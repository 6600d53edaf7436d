import Kinetics.Proofs.Code.TopLevel
import Kinetics.Proofs.Formula.Rewriting
import Kinetics.Proofs.Formula.Written

/-!
# Kinetics.Proofs.Equation.Formula

Equals signs in formulas and in their code. The code of a formula at a point is an assignment
exactly if an equals sign stands outside all brackets in the texts of its fragments
(`hasAssignment_render`): what is put in for symbols has none, and normal form moves none. Without
a text that has one the code is no assignment (`equates_of_equalsIn`).
-/

namespace Kinetics

open Code Text Python

/-- Whether a code assigns something: an equals sign is among its tokens, outside all brackets. -/
def hasAssignment (code : String) : Bool :=
  assigns 0 (lex code.toList)

namespace Formula

/-- The tokens of a text; a symbol is none. -/
def textTokens : Fragment → List Token
  | .symbol _ _ => []
  | .text code => lex code.toList

/-- Whether an equals sign stands outside all brackets in the texts of a formula. -/
def Expression.equates (e : Expression) : Bool :=
  assigns 0 (e.fragments.flatMap textTokens)

-- goes through the text, not through all characters
instance (cs : List Char) : Decidable (Plain cs) :=
  decidable_of_iff (cs.all (fun c => !opensText c) = true) (by simp [Plain])

/-- No text of a formula has a string literal, a comment or a line feed in it. -/
def Node.PlainTexts (n : Node) : Prop :=
  ∀ w ∈ n.ownTexts, Code.Plain w.toList ∧ '\n' ∉ w.toList

instance (n : Node) : Decidable n.PlainTexts :=
  inferInstanceAs (Decidable (∀ w ∈ n.ownTexts, Code.Plain w.toList ∧ '\n' ∉ w.toList))

variable {e : Expression} {n : Node} {fs : List Fragment} {substitute : String → String}

section Access

theorem balanced_access (name : List Char) (is : List (Option Nat)) :
    Balanced (accessTokens name is) := by
  cases is with
  | nil => exact .single rfl
  | cons i is => exact ((balanced_of_turn (turn_entries i is)).wrap .square .square).cons rfl

theorem access_no_operator (name : List Char) (is : List (Option Nat)) :
    ∀ t ∈ accessTokens name is, t.isOperator = false := by
  have hentry (i : Option Nat) : ∀ t ∈ entryTokens i, t.isOperator = false := by
    cases i <;> simp [entryTokens, Token.isOperator]
  cases is with
  | nil => exact List.forall_mem_singleton.2 rfl
  | cons i is =>
    refine List.forall_mem_cons.2 ⟨rfl, List.forall_mem_cons.2 ⟨rfl, ?_⟩⟩
    refine List.forall_mem_append.2 ⟨?_, List.forall_mem_singleton.2 rfl⟩
    refine List.forall_mem_append.2 ⟨hentry i, fun t ht => ?_⟩
    obtain ⟨j, -, ht⟩ := List.mem_flatMap.1 ht
    rcases List.mem_cons.1 ht with rfl | ht
    · rfl
    · exact hentry j t ht

end Access

section Render

/-- What is put in for the symbols of a formula is an access to an array. -/
def SubstitutesArrays (substitute : String → String) (fs : List Fragment) : Prop :=
  ∀ name suffix, .symbol name suffix ∈ fs → suffix = "" ∧ ∃ target s p,
    Program.IsIdentifier target ∧ substitute name = accessCode target s p

theorem assigns_rendered (h : SubstitutesArrays substitute fs) (k : Nat) :
    assigns k (fs.flatMap fun f => lex (f.render substitute).toList) =
      assigns k (fs.flatMap textTokens) := by
  induction fs generalizing k with
  | nil => rfl
  | cons f fs ih =>
    have hrest : SubstitutesArrays substitute fs := fun name suffix hm =>
      h name suffix (List.mem_cons_of_mem _ hm)
    rw [List.flatMap_cons, List.flatMap_cons]
    cases f with
    | text code =>
      have htext : lex ((Fragment.text code).render substitute).toList =
          textTokens (.text code) := rfl
      rw [htext, assigns_append, assigns_append, ih hrest]
    | symbol name suffix =>
      obtain ⟨rfl, target, s, p, hname, haccess⟩ := h name suffix List.mem_cons_self
      have hrender : (Fragment.symbol name "").render substitute = accessCode target s p := by
        rw [Fragment.render, haccess, String.append_empty]
      rw [hrender, (lex_access hname s p).1, assigns_append,
        assigns_no_operator (access_no_operator _ _), openAfter_balanced (balanced_access _ _),
        ih hrest]
      rfl

/-- The line of a formula whose texts are plain is plain. -/
theorem plain_rawLine (h : SubstitutesArrays substitute e.fragments)
    (ht : ∀ code, .text code ∈ e.fragments → Plain code.toList ∧ '\n' ∉ code.toList) :
    Plain (e.rawLine substitute).toList ∧ '\n' ∉ (e.rawLine substitute).toList := by
  have hfragment {f : Fragment} (hf : f ∈ e.fragments) :
      Plain (f.render substitute).toList ∧ '\n' ∉ (f.render substitute).toList := by
    cases f with
    | text code => exact ht code hf
    | symbol name suffix =>
      obtain ⟨rfl, target, s, p, hname, haccess⟩ := h name suffix hf
      rw [Fragment.render, haccess, String.append_empty]
      exact (lex_access hname s p).2
  have hmem {c : Char} (hc : c ∈ (e.rawLine substitute).toList) :
      c = ' ' ∨ ∃ f ∈ e.fragments, c ∈ (f.render substitute).toList := by
    rw [toList_rawLine] at hc
    simpa using mem_intercalate hc
  refine ⟨fun c hc => ?_, fun hn => ?_⟩
  · rcases hmem hc with rfl | ⟨f, hf, hc⟩
    · rfl
    · exact (hfragment hf).1 c hc
  · rcases hmem hn with hn | ⟨f, hf, hn⟩
    · cases hn
    · exact (hfragment hf).2 hn

/-- Code is an assignment if its texts make it one, whatever arrays its symbols stand for. -/
theorem hasAssignment_render (h : SubstitutesArrays substitute e.fragments)
    (ht : ∀ code, .text code ∈ e.fragments → Plain code.toList ∧ '\n' ∉ code.toList) :
    hasAssignment (e.render substitute) = e.equates := by
  obtain ⟨hp, hn⟩ := plain_rawLine h ht
  have hlex : lex (e.rawLine substitute).toList =
      e.fragments.flatMap fun f => lex (f.render substitute).toList := by
    rw [toList_rawLine] at hp ⊢
    rw [lex_texts hp, List.flatMap_map]
  have hnormal := (lex_normalize hp (oneLine_single hn)).1
  rw [Expression.equates, ← assigns_rendered h, ← hlex, ← assigns_normal, ← hnormal,
    hasAssignment, toList_render]
  split
  · rename_i he
    rw [List.isEmpty_iff.1 he, lex_nought, lex]
    rfl
  · rfl

end Render

section Texts

theorem plain_scaffold {w : String} (h : w ∈ scaffold) : Plain w.toList ∧ '\n' ∉ w.toList := by
  have hall : ∀ w ∈ scaffold, Plain w.toList ∧ '\n' ∉ w.toList := by decide +kernel
  exact hall w h

theorem hasEquals_scaffold {w : String} (h : w ∈ scaffold) : Node.hasEquals w = false := by
  have hall : ∀ w ∈ scaffold, Node.hasEquals w = false := by decide +kernel
  exact hall w h

/-- The texts of a compiled formula are plain if its own are. -/
theorem Node.PlainTexts.fragments (h : n.PlainTexts) (hc : n.compile "" = .ok e) :
    ∀ code, .text code ∈ e.fragments → Code.Plain code.toList ∧ '\n' ∉ code.toList := by
  intro code hm
  rcases compile_fromTexts hc _ hm with hw | hw
  · exact plain_scaffold hw
  · exact h code hw

theorem Node.PlainTexts.value (h : n.PlainTexts) : n.split.value.PlainTexts :=
  fun w hw => h w (ownTexts_value n w hw)

theorem Node.PlainTexts.prune {keep : NameSet → Bool} {p : Noted Node} (h : n.PlainTexts)
    (hp : n.prune keep = .ok p) : p.result.PlainTexts := by
  intro w hw
  rcases ownTexts_prune n hp w hw with hw | hw
  · exact plain_scaffold hw
  · exact h w hw

theorem equalsIn_eq_zero : n.equalsIn = 0 ↔ ∀ w ∈ n.ownTexts, Node.hasEquals w = false := by
  simp [Node.equalsIn, List.countP_eq_zero]

theorem equalsIn_prune {keep : NameSet → Bool} {p : Noted Node} (h : n.equalsIn = 0)
    (hp : n.prune keep = .ok p) : p.result.equalsIn = 0 := by
  rw [equalsIn_eq_zero] at h ⊢
  intro w hw
  rcases Node.ownTexts_prune n hp w hw with hw | hw
  · exact hasEquals_scaffold hw
  · exact h w hw

theorem assigns_no_equals {ts : List Token} (h : Token.operator ['='] ∉ ts) (k : Nat) :
    assigns k ts = false := by
  induction ts generalizing k with
  | nil => rfl
  | cons t ts ih =>
    simp only [List.mem_cons, not_or] at h
    cases t with
    | operator s =>
      have hs : (s == ['=']) = false := by
        rw [beq_eq_false_iff_ne]
        rintro rfl
        exact h.1 rfl
      simp [assigns, hs, ih h.2]
    | opening b => exact ih h.2 (k + 1)
    | closing b => exact ih h.2 (k - 1)
    | _ => exact ih h.2 k

/-- A formula without an equals sign in its texts is no assignment. -/
theorem equates_of_equalsIn (h : n.equalsIn = 0) (hc : n.compile "" = .ok e) :
    e.equates = false := by
  rw [equalsIn_eq_zero] at h
  refine assigns_no_equals (fun ht => ?_) 0
  obtain ⟨f, hf, ht⟩ := List.mem_flatMap.1 ht
  cases f with
  | symbol name suffix => cases ht
  | text code =>
    have hnone : Node.hasEquals code = false := by
      rcases Node.compile_fromTexts hc _ hf with hw | hw
      · exact hasEquals_scaffold hw
      · exact h code hw
    have hsome : Node.hasEquals code = true := by
      rw [Node.hasEquals, List.contains_iff_mem]
      exact ht
    rw [hnone] at hsome
    cases hsome

end Texts

end Formula

end Kinetics
