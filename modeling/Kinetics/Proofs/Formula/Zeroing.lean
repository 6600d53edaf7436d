import Kinetics.Formula.Optional
import Kinetics.Proofs.Formula.Siblings
import Kinetics.Proofs.Python.Omission

/-!
# Kinetics.Proofs.Formula.Zeroing

Dropping an optional bracket against setting it to nought. `zeroed` puts nought in parentheses where
`prune` drops a bracket, and leaves all signs. `arrange` tells for a list of siblings which of them
`prune` leaves out, from what stands behind each, so `pruneTerms` and its editing of the siblings
that are done need no longer be looked at (`yields_arrange`).
-/

namespace Kinetics

namespace Formula

namespace Node

open Arithmetic (Sign)
open Python (Piece)

/-- The sign that a node is. -/
def sign? (n : Node) : Option Sign :=
  n.operator?.bind fun s =>
    if s = "+" then some .plus
    else if s = "-" ∨ s = "−" then some .minus
    else none

theorem isSign_eq (n : Node) : n.isSign = n.sign?.isSome := by
  cases n with
  | operator s =>
    simp only [isSign, isOperator, sign?, operator?, Option.bind_some]
    split
    · simp [*]
    · split <;> simp_all
  | _ => rfl

theorem sign?_of_plus {n : Node} (h : n.isOperator "+" = true) : n.sign? = some .plus := by
  cases n with
  | operator s =>
    have h : s = "+" := by simpa [isOperator] using h
    simp [sign?, operator?, h]
  | _ => cases h

/-- Whether a node is an optional bracket that is not kept. -/
def isOmitted (keep : NameSet → Bool) : Node → Bool
  | .fenced opener closer children =>
    isOptional opener closer &&
      match isKept keep children with
      | .ok k => !k.result
      | .error _ => false
  | _ => false

/-- Nought in parentheses. -/
def nought : Node :=
  .fenced "(" ")" [.number "0"]

mutual

/-- A formula with each optional bracket that is not kept set to nought. -/
def zeroed (keep : NameSet → Bool) : Node → Node
  | .row children => .row (zeroedAll keep children)
  | .fenced opener closer children =>
    if isOmitted keep (.fenced opener closer children) then nought
    else if isOptional opener closer then group (zeroedAll keep children)
    else .fenced opener closer (zeroedAll keep children)
  | .fraction a b => .fraction (zeroed keep a) (zeroed keep b)
  | .sup a b => .sup (zeroed keep a) (zeroed keep b)
  | .root children => .root (zeroedAll keep children)
  | .sub a b => .sub a b
  | .identifier s => .identifier s
  | .number s => .number s
  | .operator s => .operator s
  | .space s => .space s
  | .text s => .text s
  | .unknown s => .unknown s

def zeroedAll (keep : NameSet → Bool) : List Node → List Node
  | [] => []
  | n :: ns => zeroed keep n :: zeroedAll keep ns

end

mutual

/-- Every bracket that is asked has free symbols: what stands in it can be compiled. -/
def Decided (keep : NameSet → Bool) : Node → Prop
  | .row children => DecidedAll keep children
  | .fenced opener closer children =>
    (isOptional opener closer = true → ∃ k, isKept keep children = .ok k) ∧
      (isOmitted keep (.fenced opener closer children) = false → DecidedAll keep children)
  | .fraction a b => Decided keep a ∧ Decided keep b
  | .sup a b => Decided keep a ∧ Decided keep b
  | .root children => DecidedAll keep children
  | _ => True

def DecidedAll (keep : NameSet → Bool) : List Node → Prop
  | [] => True
  | n :: ns => Decided keep n ∧ DecidedAll keep ns

end

variable {keep : NameSet → Bool} {n : Node} {ns : List Node}

theorem decidedAll_iff : DecidedAll keep ns ↔ ∀ n ∈ ns, Decided keep n := by
  induction ns with
  | nil => simp [DecidedAll]
  | cons n ns ih => simp [DecidedAll, ih]

theorem zeroedAll_eq (ns : List Node) : zeroedAll keep ns = ns.map (zeroed keep) := by
  induction ns with
  | nil => rfl
  | cons n ns ih => rw [zeroedAll, ih, List.map_cons]

/-- What a formula becomes. -/
def resolved (keep : NameSet → Bool) (n : Node) : Node :=
  match prune keep n with
  | .ok p => p.result
  | .error _ => n

theorem resolved_of_ok {p : Noted Node} (h : prune keep n = .ok p) : resolved keep n = p.result := by
  rw [resolved, h]

/-- A node among its siblings, with the pieces of its code. -/
structure Sibling where
  node : Node
  pieces : List (Piece Fragment)

section Arrange

variable {ss : List Sibling} {s : Sibling} {before : List Node}

/-- What becomes of siblings. `front` tells whether none of those before is left. -/
def arrange (keep : NameSet → Bool) (front : Bool) : List Sibling → List (Piece Sibling)
  | [] => []
  | s :: ss =>
    if isOmitted keep s.node then
      if front && endsAtSign (ss.map Sibling.node) then
        match ss with
        | [] => [.leading]
        | t :: ts =>
          if t.node.isOperator "+" then .ahead :: arrange keep true ts
          else .leading :: arrange keep true (t :: ts)
      else .nought :: arrange keep false ss
    else
      match s.node.sign?, ss with
      | some g, t :: ts =>
        if isOmitted keep t.node && endsAtSign (ts.map Sibling.node) then
          .signed g :: arrange keep front ts
        else .both s :: arrange keep false (t :: ts)
      | _, ss => .both s :: arrange keep false ss

/-- The node that is left of a piece, before brackets in it are resolved. -/
def leftNode : Piece Sibling → List Node
  | .both s => [s.node]
  | .nought => [.number "0"]
  | .alone _ => [.number "0"]
  | _ => []

/-- Nought is left of siblings that are all left out. -/
def fill : List (Piece Sibling) → List (Piece Sibling)
  | .ahead :: ps => .ahead :: fill ps
  | .leading :: ps => .nought :: ps
  | .signed g :: ps => .alone g :: ps
  | ps => ps

/-- What becomes of siblings that do not all go. -/
def arrangement (keep : NameSet → Bool) (ss : List Sibling) : List (Piece Sibling) :=
  if ((arrange keep true ss).flatMap leftNode).isEmpty then fill (arrange keep true ss)
  else arrange keep true ss

theorem prune_operator? {p : Noted Node} (h : prune keep n = .ok p) :
    p.result.operator? = n.operator? := by
  cases n with
  | row children =>
    simp only [prune] at h
    split at h
    · cases h
    · cases h
      simp only [rowOrNought]
      split <;> rfl
  | fenced opener closer children =>
    simp only [prune] at h
    split at h
    · split at h
      · cases h
      · split at h
        · split at h
          · cases h
          · cases h
            rfl
        · cases h
          rfl
    · split at h
      · cases h
      · cases h
        rfl
  | fraction a b =>
    simp only [prune] at h
    split at h
    · cases h
    · split at h
      · cases h
      · cases h
        rfl
  | sup a b =>
    simp only [prune] at h
    split at h
    · cases h
    · split at h
      · cases h
      · cases h
        rfl
  | root children =>
    simp only [prune] at h
    split at h
    · cases h
    · cases h
      rfl
  | _ =>
    cases h
    rfl

theorem isSign_congr {m : Node} (h : m.operator? = n.operator?) : m.isSign = n.isSign := by
  rw [isSign_eq, isSign_eq, sign?, sign?, h]

/-- A bracket becomes nought exactly if it is not kept. -/
theorem isDropped_eq {p : Noted Node} (h : prune keep n = .ok p) :
    isDropped n p.result = isOmitted keep n := by
  cases n with
  | fenced opener closer children =>
    simp only [prune] at h
    simp only [isOmitted]
    split at h
    · rename_i ho
      split at h
      · cases h
      · rename_i k hk
        rw [ho, hk]
        split at h
        · rename_i hr
          split at h
          · cases h
          · cases h
            simp [hr, isDropped, group]
        · rename_i hr
          cases h
          simp [hr, isDropped]
    · rename_i ho
      rw [Bool.eq_false_iff.2 ho]
      split at h
      · cases h
      · cases h
        rfl
  | _ => rfl

theorem not_omitted_of_sign (h : n.isSign = true) : isOmitted keep n = false := by
  cases n <;> first | rfl | cases h

/-- Whether a dropped bracket that stands as a whole term is next. -/
def startsWhole (keep : NameSet → Bool) : List Sibling → Bool
  | [] => false
  | s :: ss => isOmitted keep s.node && endsAtSign (ss.map Sibling.node)

theorem startsWhole_of_endsAtSign (h : endsAtSign (ss.map Sibling.node) = true) :
    startsWhole keep ss = false := by
  cases ss with
  | nil => rfl
  | cons s ss => rw [startsWhole, not_omitted_of_sign h, Bool.false_and]

/-- What siblings become behind those that are done. -/
def Yields (keep : NameSet → Bool) (before : List Node) (skip : Bool) (ns ms : List Node) : Prop :=
  ∃ q, pruneTerms keep before skip ns = .ok q ∧ q.result = ms

section Yields

variable {ms : List Node} {b : Node}

theorem yields_plus (hn : n.isOperator "+" = true) (h : Yields keep before false ns ms) :
    Yields keep before true (n :: ns) ms := by
  obtain ⟨q, hq, rfl⟩ := h
  exact ⟨q, by rw [pruneTerms, if_pos (by simp [hn]), hq], rfl⟩

theorem yields_skip (hn : ns.head?.any (isOperator "+") = false)
    (h : Yields keep before false ns ms) : Yields keep before true ns ms := by
  obtain ⟨q, hq, rfl⟩ := h
  refine ⟨q, ?_, rfl⟩
  cases ns with
  | nil => exact hq
  | cons n ns =>
    have hn : n.isOperator "+" = false := by simpa using hn
    rw [← hq]
    simp [pruneTerms, hn]

theorem pruneTerms_cons {p : Noted Node} (h : prune keep n = .ok p) :
    pruneTerms keep before false (n :: ns) =
      match (if isOmitted keep n && endsAtSign ns && before.head?.any isSign then
          pruneTerms keep before.tail false ns
        else if isOmitted keep n && endsAtSign ns && before.isEmpty then
          pruneTerms keep before true ns
        else pruneTerms keep (resolved keep n :: before) false ns) with
      | .error e => .error e
      | .ok q => .ok ⟨q.result, p.skipped ++ q.skipped⟩ := by
  rewrite [pruneTerms, if_neg (by simp), h, resolved_of_ok h, ← isDropped_eq h]
  rfl

/-- A dropped term goes with its sign. -/
theorem yields_signed (hp : ∃ p, prune keep n = .ok p) (hn : isOmitted keep n = true)
    (hns : endsAtSign ns = true) (hb : b.isSign = true) (h : Yields keep before false ns ms) :
    Yields keep (b :: before) false (n :: ns) ms := by
  obtain ⟨p, hp⟩ := hp
  obtain ⟨q, hq, rfl⟩ := h
  refine ⟨⟨q.result, p.skipped ++ q.skipped⟩, ?_, rfl⟩
  rw [pruneTerms_cons hp, if_pos (by simp [hn, hns, hb]), List.tail_cons, hq]

/-- A dropped term that leads goes with the plus behind it. -/
theorem yields_leading (hp : ∃ p, prune keep n = .ok p) (hn : isOmitted keep n = true)
    (hns : endsAtSign ns = true) (h : Yields keep [] true ns ms) :
    Yields keep [] false (n :: ns) ms := by
  obtain ⟨p, hp⟩ := hp
  obtain ⟨q, hq, rfl⟩ := h
  refine ⟨⟨q.result, p.skipped ++ q.skipped⟩, ?_, rfl⟩
  rw [pruneTerms_cons hp, if_neg (by simp), if_pos (by simp [hn, hns]), hq]

theorem yields_stays (hp : ∃ p, prune keep n = .ok p)
    (hn : (isOmitted keep n && endsAtSign ns && (before.head?.any isSign || before.isEmpty)) = false)
    (h : Yields keep (resolved keep n :: before) false ns ms) :
    Yields keep before false (n :: ns) ms := by
  obtain ⟨p, hp⟩ := hp
  obtain ⟨q, hq, rfl⟩ := h
  rw [Bool.and_or_distrib_left, Bool.or_eq_false_iff] at hn
  refine ⟨⟨q.result, p.skipped ++ q.skipped⟩, ?_, rfl⟩
  rw [pruneTerms_cons hp, if_neg (by simp [hn.1]), if_neg (by simp [hn.2]), hq]

end Yields

theorem resolved_omitted (h : isOmitted keep n = true) : resolved keep n = .number "0" := by
  cases n with
  | fenced opener closer children =>
    simp only [isOmitted, Bool.and_eq_true] at h
    obtain ⟨ho, hk⟩ := h
    split at hk
    · rename_i k hr
      have hr' : k.result = false := by simpa using hk
      simp [resolved, prune, ho, hr, hr']
    · cases hk
  | _ => cases h

theorem isSign_resolved (hp : ∃ p, prune keep n = .ok p) :
    (resolved keep n).isSign = n.isSign := by
  obtain ⟨p, hp⟩ := hp
  rw [resolved_of_ok hp, isSign_congr (prune_operator? hp)]

/-- The siblings are what is left of them, each resolved. -/
theorem yields_arrange {front : Bool} (hp : ∀ s ∈ ss, ∃ p, prune keep s.node = .ok p)
    (hfront : before.isEmpty = front)
    (hb : before.head?.any isSign = true → startsWhole keep ss = false) :
    Yields keep before false (ss.map Sibling.node)
      (before.reverse ++ ((arrange keep front ss).flatMap leftNode).map (resolved keep)) := by
  have hnumber : (Node.number "0").isSign = false := rfl
  fun_induction arrange keep front ss generalizing before with
  | case1 => exact ⟨_, rfl, by simp⟩
  | case2 front s hs hf =>
    have hf : front = true := by simpa [endsAtSign] using hf
    have hnil : before = [] := by simpa [hf] using hfront
    subst hnil
    exact yields_leading (hp s (by simp)) hs rfl ⟨_, rfl, by simp [leftNode]⟩
  | case3 front s hs t ts ht hf ih =>
    simp only [Bool.and_eq_true] at hf
    have hnil : before = [] := by simpa [hf.1] using hfront
    subst hnil
    have hrest := @ih [] (fun u hu => hp u (by simp [hu])) rfl
      fun h => absurd h Bool.false_ne_true
    exact yields_leading (hp s (by simp)) hs hf.2 (yields_plus ht hrest)
  | case4 front s hs t ts ht hf ih =>
    simp only [Bool.and_eq_true] at hf
    have hnil : before = [] := by simpa [hf.1] using hfront
    subst hnil
    have hrest := @ih [] (fun u hu => hp u (by simp_all)) rfl
      fun h => absurd h Bool.false_ne_true
    exact yields_leading (hp s (by simp)) hs hf.2 (yields_skip (by simpa using ht) hrest)
  | case5 front s ss hs hf ih =>
    have hrest := @ih (.number "0" :: before) (fun u hu => hp u (by simp [hu])) rfl
      (fun h => by simp [hnumber] at h)
    refine yields_stays (hp s (by simp)) ?_ ?_
    · rw [hfront, Bool.eq_false_iff]
      intro h
      simp only [Bool.and_eq_true, Bool.or_eq_true] at h
      rcases h.2 with hsign | rfl
      · simp [startsWhole, h.1.1, h.1.2] at hb
        simp [hb] at hsign
      · exact hf (by simp [h.1.2])
    · rw [resolved_omitted hs]
      simpa [leftNode, resolved, prune] using hrest
  | case6 front s hs g t ts hg ht ih =>
    simp only [Bool.and_eq_true] at ht
    have hsign : s.node.isSign = true := by rw [isSign_eq, hg]; rfl
    have hps := hp s (by simp)
    have hrest := ih (fun u hu => hp u (by simp [hu])) hfront
      (fun _ => startsWhole_of_endsAtSign ht.2)
    refine yields_stays hps (by simp [hs]) ?_
    exact yields_signed (hp t (by simp)) ht.1 ht.2 (by rwa [isSign_resolved hps]) hrest
  | case7 front s hs g t ts hg ht ih =>
    have hps := hp s (by simp)
    have hrest := @ih (resolved keep s.node :: before) (fun u hu => hp u (by simp_all)) rfl
      (fun _ => by simpa [startsWhole] using ht)
    exact yields_stays hps (by simp [hs]) (by simpa [leftNode] using hrest)
  | case8 front s hs ss hno ih =>
    have hps := hp s (by simp)
    have hrest := @ih (resolved keep s.node :: before) (fun u hu => hp u (by simp [hu])) rfl
      (fun h => by
        have h : s.node.isSign = true := by simpa [isSign_resolved hps] using h
        cases ss with
        | nil => rfl
        | cons t ts =>
          rw [isSign_eq] at h
          obtain ⟨g, hg⟩ := Option.isSome_iff_exists.1 h
          exact (hno g t ts hg rfl).elim)
    exact yields_stays hps (by simp [hs]) (by simpa [leftNode] using hrest)

/-- The nodes that are left of siblings, nought if there are none. -/
def left (keep : NameSet → Bool) (ss : List Sibling) : List Node :=
  (arrangement keep ss).flatMap leftNode

theorem left_fill {ps : List (Piece Sibling)} (h : ps.flatMap leftNode = [])
    (hf : (fill ps).flatMap leftNode ≠ []) : (fill ps).flatMap leftNode = [.number "0"] := by
  fun_induction fill ps with
  | case1 ps ih => exact ih h hf
  | case2 ps => simpa [leftNode] using h
  | case3 g ps => simpa [leftNode] using h
  | case4 => exact absurd h hf

theorem orNought_left (h : left keep ss ≠ []) :
    orNought (((arrange keep true ss).flatMap leftNode).map (resolved keep)) =
      (left keep ss).map (resolved keep) := by
  rw [left, arrangement] at h ⊢
  split
  · rename_i he
    rw [if_pos he] at h
    have he : (arrange keep true ss).flatMap leftNode = [] := List.isEmpty_iff.1 he
    rw [left_fill he h, he]
    rfl
  · rename_i he
    rw [orNought, if_neg (by simpa using he)]

theorem yields_siblings (hp : ∀ s ∈ ss, ∃ p, prune keep s.node = .ok p) :
    Yields keep [] false (ss.map Sibling.node)
      (((arrange keep true ss).flatMap leftNode).map (resolved keep)) :=
  yields_arrange hp rfl nofun

theorem yields_all (hp : ∀ n ∈ ns, ∃ p, prune keep n = .ok p) :
    ∃ q, pruneTerms keep [] false ns = .ok q := by
  have hmap : (ns.map fun n => Sibling.mk n []).map Sibling.node = ns := by
    simp [Function.comp_def]
  have hp' : ∀ s ∈ ns.map fun n => Sibling.mk n [], ∃ p, prune keep s.node = .ok p := by
    simpa using hp
  obtain ⟨q, hq, -⟩ := yields_siblings hp'
  exact ⟨q, hmap ▸ hq⟩

end Arrange

mutual

/-- Where the brackets can be asked, they are resolved. -/
theorem exists_prune : ∀ n : Node, Decided keep n → ∃ p, prune keep n = .ok p
  | .row children, h => by
    obtain ⟨q, hq⟩ := yields_all (exists_prune_each children (decidedAll_iff.1 h))
    exact ⟨_, by rw [prune, hq]⟩
  | .fenced opener closer children, h => by
    obtain ⟨hk, hc⟩ := h
    rw [prune]
    split
    · rename_i ho
      obtain ⟨k, hk⟩ := hk ho
      rw [hk]
      by_cases hr : k.result = true
      · obtain ⟨q, hq⟩ := yields_all (exists_prune_each children
          (decidedAll_iff.1 (hc (by simp [isOmitted, hk, hr]))))
        exact ⟨_, by rw [hq]; simp only [hr, if_true]; rfl⟩
      · exact ⟨_, by simp only [hr]; rfl⟩
    · rename_i ho
      obtain ⟨q, hq⟩ := yields_all (exists_prune_each children
        (decidedAll_iff.1 (hc (by simp [isOmitted, ho]))))
      exact ⟨_, by rw [hq]⟩
  | .fraction a b, h => by
    obtain ⟨pa, ha⟩ := exists_prune a h.1
    obtain ⟨pb, hb⟩ := exists_prune b h.2
    exact ⟨_, by rw [prune, ha, hb]⟩
  | .sup a b, h => by
    obtain ⟨pa, ha⟩ := exists_prune a h.1
    obtain ⟨pb, hb⟩ := exists_prune b h.2
    exact ⟨_, by rw [prune, ha, hb]⟩
  | .root children, h => by
    obtain ⟨q, hq⟩ := yields_all (exists_prune_each children (decidedAll_iff.1 h))
    exact ⟨_, by rw [prune, hq]⟩
  | .sub _ _, _ => ⟨_, rfl⟩
  | .identifier _, _ => ⟨_, rfl⟩
  | .number _, _ => ⟨_, rfl⟩
  | .operator _, _ => ⟨_, rfl⟩
  | .space _, _ => ⟨_, rfl⟩
  | .text _, _ => ⟨_, rfl⟩
  | .unknown _, _ => ⟨_, rfl⟩

theorem exists_prune_each : ∀ ns : List Node, (∀ n ∈ ns, Decided keep n) →
    ∀ n ∈ ns, ∃ p, prune keep n = .ok p
  | [], _, _, hn => nomatch hn
  | n :: ns, h, m, hm => by
    rcases List.mem_cons.1 hm with hm | hm
    · rw [hm]
      exact exists_prune n (h n (by simp))
    · exact exists_prune_each ns (fun k hk => h k (List.mem_cons_of_mem _ hk)) m hm

end

section Resolved

variable {children : List Node} {ss : List Sibling} {opener closer : String} {a b : Node}

/-- The nodes of the children that stay are left, each resolved. -/
theorem pruneTerms_left (h : ∀ s ∈ ss, Decided keep s.node) (hl : left keep ss ≠ []) :
    ∃ q, pruneTerms keep [] false (ss.map Sibling.node) = .ok q ∧
      orNought q.result = (left keep ss).map (resolved keep) := by
  obtain ⟨q, hq, hr⟩ := yields_siblings fun s hs => exists_prune s.node (h s hs)
  exact ⟨q, hq, by rw [hr, orNought_left hl]⟩

theorem rowOrNought_eq (ns : List Node) :
    rowOrNought ns = .row (orNought ns) ∨ orNought ns = [.number "0"] ∧ rowOrNought ns = .number "0" := by
  rw [rowOrNought, orNought]
  split
  · exact .inr ⟨rfl, rfl⟩
  · exact .inl rfl

theorem resolved_row (h : ∀ s ∈ ss, Decided keep s.node) (hl : left keep ss ≠ []) :
    resolved keep (.row (ss.map Sibling.node)) = .row ((left keep ss).map (resolved keep)) ∨
      (left keep ss).map (resolved keep) = [.number "0"] ∧
        resolved keep (.row (ss.map Sibling.node)) = .number "0" := by
  obtain ⟨q, hq, hr⟩ := pruneTerms_left h hl
  have hres : resolved keep (.row (ss.map Sibling.node)) = rowOrNought q.result := by
    rw [resolved, prune, hq]
  rw [hres, ← hr]
  exact rowOrNought_eq q.result

theorem resolved_group (h : ∀ s ∈ ss, Decided keep s.node) (hl : left keep ss ≠ [])
    (hd : Decided keep (.fenced opener closer (ss.map Sibling.node)))
    (ho : isOptional opener closer = true)
    (hn : isOmitted keep (.fenced opener closer (ss.map Sibling.node)) = false) :
    resolved keep (.fenced opener closer (ss.map Sibling.node)) =
      group ((left keep ss).map (resolved keep)) := by
  obtain ⟨q, hq, hr⟩ := pruneTerms_left h hl
  obtain ⟨k, hk⟩ := hd.1 ho
  have hkept : k.result = true := by simpa [isOmitted, ho, hk] using hn
  rw [resolved, prune, if_pos ho, hk]
  simp only [hkept, if_true, hq, hr]

theorem resolved_fenced (h : ∀ s ∈ ss, Decided keep s.node) (hl : left keep ss ≠ [])
    (ho : isOptional opener closer = false) :
    resolved keep (.fenced opener closer (ss.map Sibling.node)) =
      .fenced opener closer ((left keep ss).map (resolved keep)) := by
  obtain ⟨q, hq, hr⟩ := pruneTerms_left h hl
  rw [resolved, prune, if_neg (by simp [ho]), hq]
  simp only [hr]

theorem resolved_root (h : ∀ s ∈ ss, Decided keep s.node) (hl : left keep ss ≠ []) :
    resolved keep (.root (ss.map Sibling.node)) = .root ((left keep ss).map (resolved keep)) := by
  obtain ⟨q, hq, hr⟩ := pruneTerms_left h hl
  rw [resolved, prune, hq]
  simp only [hr]

theorem resolved_fraction (ha : Decided keep a) (hb : Decided keep b) :
    resolved keep (.fraction a b) = .fraction (resolved keep a) (resolved keep b) := by
  obtain ⟨pa, ha⟩ := exists_prune a ha
  obtain ⟨pb, hb⟩ := exists_prune b hb
  rw [resolved, prune, ha, hb, resolved_of_ok ha, resolved_of_ok hb]

theorem resolved_sup (ha : Decided keep a) (hb : Decided keep b) :
    resolved keep (.sup a b) = .sup (resolved keep a) (resolved keep b) := by
  obtain ⟨pa, ha⟩ := exists_prune a ha
  obtain ⟨pb, hb⟩ := exists_prune b hb
  rw [resolved, prune, ha, hb, resolved_of_ok ha, resolved_of_ok hb]

end Resolved

end Node

end Formula

end Kinetics
