import Kinetics.Formula.Optional
import Kinetics.Proofs.Fallible
import Kinetics.Proofs.Formula.Joined
import Mathlib.Data.List.TakeDrop

/-!
# Kinetics.Proofs.Formula.Written

Where the texts of compiled formulas come from. Besides symbols, which all have the same suffix, a
line of code has the texts of the leaves and fences of the formula (`ownTexts`) and what call forms,
fractions, roots, powers and signs of multiplication add (`scaffold`). Neither resolving optional
brackets nor taking the value side of an assignment brings in anything else.
-/

namespace Kinetics

namespace Formula

/-- The texts that compiling and resolving brackets add to a formula. -/
def scaffold : List String :=
  ["0", "*", "(", ")", "/", "**", "0.5", ","] ++ Keyword.all.map Node.Keyword.opening

namespace Node

variable {suffix : String} {keep : NameSet → Bool} {ws vs : List String} {n : Node}
  {ns before : List Node} {fs gs : List Fragment} {parts : List (List Fragment)}

mutual

/-- The texts of the leaves and fences of a formula that are no symbols. -/
def ownTexts : Node → List String
  | .row children => ownTextsBy children
  | .fenced opener closer children => opener :: closer :: ownTextsBy children
  | .root children => ownTextsBy children
  | .fraction a b => ownTexts a ++ ownTexts b
  | .sup a b => ownTexts a ++ ownTexts b
  | .sub _ _ => []
  | .identifier s => (constants.lookup s).toList
  | .number s => [(constants.lookup s).getD s]
  | .operator s => [operatorCode s]
  | .text s => [Text.trimString s]
  | .space _ => []
  | .unknown _ => []

def ownTextsBy : List Node → List String
  | [] => []
  | n :: ns => ownTexts n ++ ownTextsBy ns

end

theorem mem_ownTextsBy {w : String} : w ∈ ownTextsBy ns ↔ ∃ n ∈ ns, w ∈ ownTexts n := by
  induction ns with
  | nil => simp [ownTextsBy]
  | cons n ns ih => simp [ownTextsBy, ih]

theorem ownTextsBy_append (us vs : List Node) :
    ownTextsBy (us ++ vs) = ownTextsBy us ++ ownTextsBy vs := by
  induction us with
  | nil => rfl
  | cons u us ih => rw [List.cons_append, ownTextsBy, ownTextsBy, ih, List.append_assoc]

section Fragments

/-- A fragment is a symbol with the suffix, or a text of the scaffold or of the list. -/
def FromTexts (suffix : String) (ws : List String) : Fragment → Prop
  | .symbol _ s => s = suffix
  | .text code => code ∈ scaffold ∨ code ∈ ws

theorem FromTexts.mono {f : Fragment} (h : FromTexts suffix ws f) (hs : ws ⊆ vs) :
    FromTexts suffix vs f := by
  cases f with
  | symbol name s => exact h
  | text code => exact Or.imp_right (fun hc => hs hc) h

/-- Fragments that are all of that kind. -/
def AllFromTexts (suffix : String) (ws : List String) (fs : List Fragment) : Prop :=
  ∀ f ∈ fs, FromTexts suffix ws f

theorem AllFromTexts.mono (h : AllFromTexts suffix ws fs) (hs : ws ⊆ vs) :
    AllFromTexts suffix vs fs :=
  fun f hf => (h f hf).mono hs

theorem AllFromTexts.append (hf : AllFromTexts suffix ws fs) (hg : AllFromTexts suffix ws gs) :
    AllFromTexts suffix ws (fs ++ gs) :=
  List.forall_mem_append.2 ⟨hf, hg⟩

theorem AllFromTexts.text {code : String} (hc : code ∈ scaffold ∨ code ∈ ws)
    (h : AllFromTexts suffix ws fs) : AllFromTexts suffix ws (.text code :: fs) :=
  List.forall_mem_cons.2 ⟨hc, h⟩

theorem allFromTexts_nil : AllFromTexts suffix ws [] :=
  List.forall_mem_nil _

theorem AllFromTexts.parenthesized (h : AllFromTexts suffix ws fs) :
    AllFromTexts suffix ws (Node.parenthesized fs) :=
  .text (.inl (by decide +kernel)) (h.append (.text (.inl (by decide +kernel)) allFromTexts_nil))

theorem allFromTexts_flatten (h : ∀ fs ∈ parts, AllFromTexts suffix ws fs) :
    AllFromTexts suffix ws parts.flatten := by
  intro f hf
  obtain ⟨fs, hfs, hf⟩ := List.mem_flatten.1 hf
  exact h fs hfs f hf

theorem mem_of_mem_intersperse {gs : List Fragment} (h : fs ∈ parts.intersperse gs) :
    fs = gs ∨ fs ∈ parts := by
  induction parts with
  | nil => cases h
  | cons p parts ih =>
    cases parts with
    | nil => exact .inr h
    | cons q parts =>
      simp only [List.intersperse_cons_cons, List.mem_cons] at h
      rcases h with rfl | rfl | h
      · exact .inr (by simp)
      · exact .inl rfl
      · exact (ih h).imp_right (List.mem_cons_of_mem _)

theorem allFromTexts_commas (h : ∀ fs ∈ parts, AllFromTexts suffix ws fs) :
    AllFromTexts suffix ws (parts.intersperse [.text ","]).flatten := by
  apply allFromTexts_flatten
  intro fs hfs
  rcases mem_of_mem_intersperse hfs with rfl | hfs
  · exact .text (.inl (by decide +kernel)) allFromTexts_nil
  · exact h fs hfs

theorem allFromTexts_call (k : Keyword) (h : ∀ fs ∈ parts, AllFromTexts suffix ws fs) :
    AllFromTexts suffix ws (callCode k parts) := by
  have hopening : Keyword.opening k ∈ scaffold :=
    List.mem_append_right _ (List.mem_map_of_mem (by cases k <;> decide))
  have harguments : AllFromTexts suffix ws (if Keyword.separates k then
      parts.intersperse [.text ","] else parts).flatten := by
    split
    · exact allFromTexts_commas h
    · exact allFromTexts_flatten h
  have hclosing : AllFromTexts suffix ws ((Keyword.closing k).map .text) := by
    intro f hf
    obtain ⟨code, hc, rfl⟩ := List.mem_map.1 hf
    refine .inl ?_
    cases k with
    | index => cases hc
    | _ =>
      rw [List.mem_singleton.1 hc]
      decide +kernel
  rw [callCode_eq]
  exact .text (.inl hopening) (harguments.append hclosing)

mutual

/-- The texts of the code of a formula are its own or of the scaffold. -/
theorem fragments_fromTexts : ∀ (n : Node) {fs : List Fragment}, fragments suffix n = .ok fs →
    AllFromTexts suffix (ownTexts n) fs
  | .row ns, fs, h => by
    rw [fragments_row_eq] at h
    unfold rowCode at h
    split at h
    · obtain ⟨parts, hparts, rfl⟩ := map_ok.1 h
      exact allFromTexts_flatten (fragmentsEach_fromTexts ns hparts)
    · split at h
      · cases h
      · obtain ⟨parts, hparts, rfl⟩ := map_ok.1 h
        exact allFromTexts_call _ fun fs hfs =>
          fragmentsEach_fromTexts ns hparts fs (List.mem_of_mem_tail hfs)
  | .fenced opener closer ns, fs, h => by
    rw [fragments] at h
    split at h
    · cases h
    · rename_i parts hparts
      cases h
      have hns := fragmentsEach_fromTexts ns hparts
      have hsub : ownTextsBy ns ⊆ ownTexts (.fenced opener closer ns) := by
        intro w hw
        exact List.mem_cons_of_mem _ (List.mem_cons_of_mem _ hw)
      refine .text (.inr (by simp [ownTexts])) (.append ?_ (.text (.inr (by simp [ownTexts]))
        allFromTexts_nil))
      exact (allFromTexts_commas hns).mono hsub
  | .root ns, fs, h => by
    rw [fragments] at h
    split at h
    · cases h
    · rename_i parts hparts
      cases h
      refine (allFromTexts_flatten (fragmentsEach_fromTexts ns hparts)).parenthesized.append ?_
      exact .text (.inl (by decide +kernel)) (.text (.inl (by decide +kernel)) allFromTexts_nil)
  | .fraction a b, fs, h => by
    rw [fragments] at h
    split at h
    · cases h
    · rename_i fa ha
      split at h
      · cases h
      · rename_i fb hb
        cases h
        have hleft := (fragments_fromTexts a ha).mono (List.subset_append_left _ (ownTexts b))
        have hright := (fragments_fromTexts b hb).mono (List.subset_append_right (ownTexts a) _)
        exact hleft.parenthesized.append (.text (.inl (by decide +kernel)) hright.parenthesized)
  | .sup a b, fs, h => by
    rw [fragments] at h
    split at h
    · cases h
      exact List.forall_mem_singleton.2 rfl
    · split at h
      · cases h
      · rename_i fa ha
        split at h
        · cases h
        · rename_i fb hb
          cases h
          have hleft := (fragments_fromTexts a ha).mono (List.subset_append_left _ (ownTexts b))
          have hright := (fragments_fromTexts b hb).mono (List.subset_append_right (ownTexts a) _)
          exact hleft.parenthesized.append (.text (.inl (by decide +kernel)) hright.parenthesized)
  | .sub _ _, _, h => by
    rw [fragments] at h
    cases h
    exact List.forall_mem_singleton.2 rfl
  | .identifier s, _, h => by
    rw [fragments] at h
    split at h
    · rename_i code hc
      cases h
      exact .text (.inr (by simp [ownTexts, hc])) allFromTexts_nil
    · cases h
      exact List.forall_mem_singleton.2 rfl
  | .number s, _, h => by
    rw [fragments] at h
    cases h
    exact .text (.inr (by simp [ownTexts])) allFromTexts_nil
  | .operator s, _, h => by
    rw [fragments] at h
    split at h
    · cases h
      exact allFromTexts_nil
    · cases h
      exact .text (.inr (by simp [ownTexts])) allFromTexts_nil
  | .text s, _, h => by
    rw [fragments] at h
    split at h
    · cases h
      exact allFromTexts_nil
    · cases h
      exact .text (.inr (by simp [ownTexts])) allFromTexts_nil
  | .space _, _, h => by
    rw [fragments] at h
    cases h
    exact allFromTexts_nil
  | .unknown _, _, h => by
    rw [fragments] at h
    cases h
    exact allFromTexts_nil

theorem fragmentsEach_fromTexts : ∀ (ns : List Node) {parts : List (List Fragment)},
    fragmentsEach suffix ns = .ok parts → ∀ fs ∈ parts, AllFromTexts suffix (ownTextsBy ns) fs
  | [], _, h => by
    cases h
    exact List.forall_mem_nil _
  | n :: ns, _, h => by
    obtain ⟨fs, rest, hn, hrest, rfl⟩ := fragmentsEach_cons_iff.1 h
    refine List.forall_mem_cons.2 ⟨?_, fun gs hgs => ?_⟩
    · exact (fragments_fromTexts n hn).mono (List.subset_append_left _ (ownTextsBy ns))
    · exact (fragmentsEach_fromTexts ns hrest gs hgs).mono
        (List.subset_append_right (ownTexts n) _)

end

end Fragments

section Explicit

theorem mem_scaffold {w : String} (h : w ∈ ["0", "*", "(", ")", "/", "**", "0.5", ","]) :
    w ∈ scaffold :=
  List.mem_append_left _ h

theorem ownTexts_joinIf (joins : Bool) (b : Option Node) (ns : List Node) :
    ∀ w ∈ ownTextsBy (joinIf joins b ns), w ∈ scaffold ∨ w ∈ ownTextsBy ns := by
  induction ns generalizing b with
  | nil =>
    intro w hw
    cases joins <;> cases hw
  | cons n ns ih =>
    intro w hw
    have hstar : operatorCode "*" = "*" := by decide +kernel
    rw [joinIf_cons, ownTextsBy_append, ownTextsBy, List.mem_append, List.mem_append] at hw
    rw [ownTextsBy, List.mem_append]
    rcases hw with hw | hw | hw
    · split at hw
      · simp only [ownTextsBy, ownTexts, hstar, List.append_nil, List.mem_singleton] at hw
        exact .inl (hw ▸ mem_scaffold (by simp))
      · cases hw
    · exact .inr (.inl hw)
    · exact (ih _ w hw).imp_right .inr

mutual

/-- Signs of multiplication are all that is written into a formula. -/
theorem ownTexts_explicit : ∀ n : Node,
    ∀ w ∈ ownTexts n.explicit, w ∈ scaffold ∨ w ∈ ownTexts n
  | .row ns => by
    intro w hw
    rw [explicit_row_eq, ownTexts] at hw
    rcases ownTexts_joinIf _ _ _ w hw with hw | hw
    · exact .inl hw
    · exact ownTexts_explicitAll ns w hw
  | .fenced opener closer ns => by
    intro w hw
    rw [explicit, ownTexts, List.mem_cons, List.mem_cons] at hw
    rw [ownTexts, List.mem_cons, List.mem_cons]
    rcases hw with hw | hw | hw
    · exact .inr (.inl hw)
    · exact .inr (.inr (.inl hw))
    · exact (ownTexts_explicitAll ns w hw).imp_right fun hw => .inr (.inr hw)
  | .root ns => by
    intro w hw
    rw [explicit, ownTexts] at hw
    exact ownTexts_explicitAll ns w hw
  | .fraction a b => by
    intro w hw
    rw [explicit, ownTexts, List.mem_append] at hw
    rw [ownTexts, List.mem_append]
    rcases hw with hw | hw
    · exact (ownTexts_explicit a w hw).imp_right .inl
    · exact (ownTexts_explicit b w hw).imp_right .inr
  | .sup a b => by
    intro w hw
    rw [explicit, ownTexts, List.mem_append] at hw
    rw [ownTexts, List.mem_append]
    rcases hw with hw | hw
    · exact (ownTexts_explicit a w hw).imp_right .inl
    · exact (ownTexts_explicit b w hw).imp_right .inr
  | .sub _ _ => fun _ hw => .inr hw
  | .identifier _ => fun _ hw => .inr hw
  | .number _ => fun _ hw => .inr hw
  | .operator _ => fun _ hw => .inr hw
  | .space _ => fun _ hw => .inr hw
  | .text _ => fun _ hw => .inr hw
  | .unknown _ => fun _ hw => .inr hw

theorem ownTexts_explicitAll : ∀ ns : List Node,
    ∀ w ∈ ownTextsBy (explicitAll ns), w ∈ scaffold ∨ w ∈ ownTextsBy ns
  | [] => fun _ hw => nomatch hw
  | n :: ns => by
    intro w hw
    rw [explicitAll] at hw
    rw [ownTextsBy, List.mem_append]
    split at hw
    · exact (ownTexts_explicitAll ns w hw).imp_right .inr
    · rw [ownTextsBy, List.mem_append] at hw
      rcases hw with hw | hw
      · exact (ownTexts_explicit n w hw).imp_right .inl
      · exact (ownTexts_explicitAll ns w hw).imp_right .inr

end

/-- The fragments of a compiled formula. -/
theorem compile_fromTexts {e : Expression} (h : n.compile suffix = .ok e) :
    AllFromTexts suffix (ownTexts n) e.fragments := by
  rw [compile] at h
  split at h
  · cases h
  · rename_i fs hfs
    cases h
    intro f hf
    have hw := fragments_fromTexts n.explicit hfs f hf
    cases f with
    | symbol name s => exact hw
    | text code => exact hw.elim .inl (ownTexts_explicit n code)

end Explicit

section Prune

theorem mem_ownTextsBy_tail {w : String} (h : w ∈ ownTextsBy ns.tail) : w ∈ ownTextsBy ns := by
  obtain ⟨n, hn, hw⟩ := mem_ownTextsBy.1 h
  exact mem_ownTextsBy.2 ⟨n, List.mem_of_mem_tail hn, hw⟩

theorem ownTexts_nought : ∀ w ∈ ownTexts (.number "0"), w ∈ scaffold := by
  decide +kernel

theorem ownTexts_orNought (ns : List Node) :
    ∀ w ∈ ownTextsBy (orNought ns), w ∈ scaffold ∨ w ∈ ownTextsBy ns := by
  intro w hw
  rw [orNought] at hw
  split at hw
  · rw [ownTextsBy, ownTextsBy, List.append_nil] at hw
    exact .inl (ownTexts_nought w hw)
  · exact .inr hw

theorem ownTexts_rowOrNought (ns : List Node) :
    ∀ w ∈ ownTexts (rowOrNought ns), w ∈ scaffold ∨ w ∈ ownTextsBy ns := by
  intro w hw
  rw [rowOrNought] at hw
  split at hw
  · exact .inl (ownTexts_nought w hw)
  · exact .inr hw

mutual

/-- Resolving optional brackets brings in parentheses and nought only. -/
theorem ownTexts_prune : ∀ (n : Node) {p : Noted Node}, prune keep n = .ok p →
    ∀ w ∈ ownTexts p.result, w ∈ scaffold ∨ w ∈ ownTexts n
  | .row ns, p, h => by
    intro w hw
    rw [prune] at h
    split at h
    · cases h
    · rename_i q hq
      cases h
      rcases ownTexts_rowOrNought _ w hw with hw | hw
      · exact .inl hw
      · exact (ownTexts_pruneTerms ns hq w hw).imp_right (Or.resolve_left · (nofun))
  | .fenced opener closer ns, p, h => by
    intro w hw
    have hterms {q : Noted (List Node)} (hq : pruneTerms keep [] false ns = .ok q) :
        ∀ w ∈ ownTextsBy (orNought q.result), w ∈ scaffold ∨ w ∈ ownTextsBy ns := by
      intro w hw
      rcases ownTexts_orNought _ w hw with hw | hw
      · exact .inl hw
      · exact (ownTexts_pruneTerms ns hq w hw).imp_right (Or.resolve_left · (nofun))
    rw [prune] at h
    rw [ownTexts, List.mem_cons, List.mem_cons]
    split at h
    · split at h
      · cases h
      · split at h
        · split at h
          · cases h
          · rename_i q hq
            cases h
            simp only [group, ownTexts, ownTextsBy, List.append_nil, List.mem_cons] at hw
            rcases hw with rfl | rfl | hw
            · exact .inl (mem_scaffold (by simp))
            · exact .inl (mem_scaffold (by simp))
            · exact (hterms hq w hw).imp_right fun hw => .inr (.inr hw)
        · cases h
          exact .inl (ownTexts_nought w hw)
    · split at h
      · cases h
      · rename_i q hq
        cases h
        rw [ownTexts, List.mem_cons, List.mem_cons] at hw
        rcases hw with hw | hw | hw
        · exact .inr (.inl hw)
        · exact .inr (.inr (.inl hw))
        · exact (hterms hq w hw).imp_right fun hw => .inr (.inr hw)
  | .fraction a b, p, h => by
    intro w hw
    rw [prune] at h
    rw [ownTexts, List.mem_append]
    split at h
    · cases h
    · rename_i pa ha
      split at h
      · cases h
      · rename_i pb hb
        cases h
        rw [ownTexts, List.mem_append] at hw
        rcases hw with hw | hw
        · exact (ownTexts_prune a ha w hw).imp_right .inl
        · exact (ownTexts_prune b hb w hw).imp_right .inr
  | .sup a b, p, h => by
    intro w hw
    rw [prune] at h
    rw [ownTexts, List.mem_append]
    split at h
    · cases h
    · rename_i pa ha
      split at h
      · cases h
      · rename_i pb hb
        cases h
        rw [ownTexts, List.mem_append] at hw
        rcases hw with hw | hw
        · exact (ownTexts_prune a ha w hw).imp_right .inl
        · exact (ownTexts_prune b hb w hw).imp_right .inr
  | .root ns, p, h => by
    intro w hw
    rw [prune] at h
    split at h
    · cases h
    · rename_i q hq
      cases h
      rcases ownTexts_orNought _ w hw with hw | hw
      · exact .inl hw
      · exact (ownTexts_pruneTerms ns hq w hw).imp_right (Or.resolve_left · (nofun))
  | .sub a b, p, h => by
    rw [prune] at h
    cases h
    exact fun _ hw => .inr hw
  | .identifier _, p, h => by
    rw [prune] at h
    cases h
    exact fun _ hw => .inr hw
  | .number _, p, h => by
    rw [prune] at h
    cases h
    exact fun _ hw => .inr hw
  | .operator _, p, h => by
    rw [prune] at h
    cases h
    exact fun _ hw => .inr hw
  | .space _, p, h => by
    rw [prune] at h
    cases h
    exact fun _ hw => .inr hw
  | .text _, p, h => by
    rw [prune] at h
    cases h
    exact fun _ hw => .inr hw
  | .unknown _, p, h => by
    rw [prune] at h
    cases h
    exact fun _ hw => .inr hw

theorem ownTexts_pruneTerms : ∀ (ns : List Node) {before : List Node} {skip : Bool}
    {q : Noted (List Node)}, pruneTerms keep before skip ns = .ok q →
    ∀ w ∈ ownTextsBy q.result, w ∈ scaffold ∨ w ∈ ownTextsBy before ∨ w ∈ ownTextsBy ns
  | [], before, skip, q, h => by
    intro w hw
    rw [pruneTerms] at h
    cases h
    obtain ⟨n, hn, hw⟩ := mem_ownTextsBy.1 hw
    exact .inr (.inl (mem_ownTextsBy.2 ⟨n, List.mem_reverse.1 hn, hw⟩))
  | n :: ns, before, skip, q, h => by
    intro w hw
    rw [pruneTerms] at h
    rw [ownTextsBy, List.mem_append]
    split at h
    · rcases ownTexts_pruneTerms ns h w hw with hw | hw | hw
      · exact .inl hw
      · exact .inr (.inl hw)
      · exact .inr (.inr (.inr hw))
    · split at h
      · cases h
      · rename_i p hp
        simp only at h
        split at h
        · cases h
        · rename_i r hr
          cases h
          -- with the sign before it, at the front, or as it is
          split at hr
          · rcases ownTexts_pruneTerms ns hr w hw with hw | hw | hw
            · exact .inl hw
            · exact .inr (.inl (mem_ownTextsBy_tail hw))
            · exact .inr (.inr (.inr hw))
          · split at hr
            · rcases ownTexts_pruneTerms ns hr w hw with hw | hw | hw
              · exact .inl hw
              · exact .inr (.inl hw)
              · exact .inr (.inr (.inr hw))
            · rcases ownTexts_pruneTerms ns hr w hw with hw | hw | hw
              · exact .inl hw
              · rw [ownTextsBy, List.mem_append] at hw
                rcases hw with hw | hw
                · exact (ownTexts_prune n hp w hw).imp_right fun hw => .inr (.inl hw)
                · exact .inr (.inl hw)
              · exact .inr (.inr (.inr hw))

end

end Prune

section Split

theorem ownTexts_unwrap (n : Node) : ownTexts n.unwrap = ownTexts n := by
  fun_induction unwrap n with
  | case1 ns ih => rw [ih, ownTexts, ownTexts, ownTextsBy, ownTextsBy, List.append_nil, ownTexts]
  | case2 => rfl

/-- A formula is split at an equals sign among its children, or it is all value. -/
theorem split_cases (n : Node) :
    (∃ us vs, n.unwrap = .row (us ++ .operator "=" :: vs) ∧
      n.split = ⟨some (.row us), .row vs⟩) ∨ n.split = ⟨none, n.unwrap⟩ := by
  rw [split]
  split
  · rename_i children hrow
    split
    · rename_i us c vs hspan
      rw [List.span_eq_takeWhile_dropWhile, Prod.mk.injEq] at hspan
      obtain ⟨rfl, hdrop⟩ := hspan
      have hc := List.head?_dropWhile_not (fun c => !c.isOperator "=") children
      rw [hdrop, List.head?_cons] at hc
      have heq : c = .operator "=" := by
        cases c <;> simp [isOperator] at hc ⊢
        exact hc
      refine .inl ⟨_, vs, ?_, rfl⟩
      rw [hrow, ← heq, ← hdrop, List.takeWhile_append_dropWhile]
    · exact .inr (by rw [hrow])
  · exact .inr rfl

/-- Whether a text has an assignment operator among its tokens. -/
def hasEquals (code : String) : Bool :=
  (Code.lex code.toList).contains (.operator ['='])

/-- How many of its own texts of a formula have an assignment operator. -/
def equalsIn (n : Node) : Nat :=
  (ownTexts n).countP hasEquals

theorem ownTexts_equals : ownTexts (.operator "=") = ["="] := by
  decide +kernel

theorem ownTexts_value (n : Node) : ∀ w ∈ ownTexts n.split.value, w ∈ ownTexts n := by
  intro w hw
  rw [← ownTexts_unwrap n]
  rcases split_cases n with ⟨us, vs, hn, hs⟩ | hs
  · rw [hs, ownTexts] at hw
    rw [hn, ownTexts, ownTextsBy_append, ownTextsBy]
    exact List.mem_append_right _ (List.mem_append_right _ hw)
  · rwa [hs] at hw

/-- The equals sign that a formula is split at is not in the value any more. -/
theorem equalsIn_value (n : Node) :
    n.split.value.equalsIn + n.split.target.toList.length ≤ n.equalsIn := by
  have hone : ["="].countP hasEquals = 1 := by decide +kernel
  rw [equalsIn, equalsIn, ← ownTexts_unwrap n]
  rcases split_cases n with ⟨us, vs, hn, hs⟩ | hs
  · rw [hn, hs, ownTexts, ownTexts, ownTextsBy_append, ownTextsBy, ownTexts_equals,
      List.countP_append, List.countP_append, hone]
    simp only [Option.toList_some, List.length_singleton]
    omega
  · rw [hs]
    simp

end Split

end Node

end Formula

end Kinetics
