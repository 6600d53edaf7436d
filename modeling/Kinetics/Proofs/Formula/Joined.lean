import Kinetics.Proofs.Formula.Siblings

/-!
# Kinetics.Proofs.Formula.Joined

The code of joined siblings, read off the siblings themselves. `joinCode` puts a sign of
multiplication between the codes of two factors, so the signs need no longer be looked for among
the nodes. `forms` says as what siblings are put together, as factors or as a call form, and
`fragments_forms` what code the row of them has then.
-/

namespace Kinetics

namespace Formula

namespace Node

variable {suffix : String} {joins : Bool} {before : Option Node} {n : Node} {ns : List Node}
  {k : Option Keyword} {f : Node → Node}

/-- The code of a formula, if it has one. -/
def codeOf (suffix : String) (n : Node) : List Fragment :=
  match fragments suffix n with
  | .ok fs => fs
  | .error _ => []

theorem codeOf_of_ok {fs : List Fragment} (h : fragments suffix n = .ok fs) :
    codeOf suffix n = fs := by
  rw [codeOf, h]

/-- The code of siblings, with signs of multiplication if they are factors; `closes` tells whether
a factor stands in front of them. -/
def joinCode (suffix : String) (joins closes : Bool) : List Node → List Fragment
  | [] => []
  | n :: ns =>
    (if joins && closes && n.opensFactor then [.text "*"] else []) ++
      (codeOf suffix n ++
        joinCode suffix joins (if n.isUnknown then closes else n.closesFactor) ns)

section Each

theorem any_after (before : Option Node) (n : Node) : (after before n).any closesFactor =
    if n.isUnknown then before.any closesFactor else n.closesFactor := by
  rw [after]
  split <;> rfl

/-- The codes of siblings that can all be compiled. -/
theorem fragmentsEach_codes (h : ∀ n ∈ ns, ∃ fs, fragments suffix n = .ok fs) :
    fragmentsEach suffix ns = .ok (ns.map (codeOf suffix)) := by
  induction ns with
  | nil => rfl
  | cons n ns ih =>
    obtain ⟨⟨fs, hn⟩, hns⟩ := List.forall_mem_cons.1 h
    exact fragmentsEach_cons_iff.2 ⟨fs, _, hn, ih hns, by rw [List.map_cons, codeOf_of_ok hn]⟩

theorem fragmentsEach_joinIf (h : ∀ n ∈ ns, ∃ fs, fragments suffix n = .ok fs)
    (before : Option Node) : ∃ parts, fragmentsEach suffix (joinIf joins before ns) = .ok parts ∧
      parts.flatten = joinCode suffix joins (before.any closesFactor) ns := by
  induction ns generalizing before with
  | nil =>
    refine ⟨[], ?_, rfl⟩
    cases joins <;> rfl
  | cons n ns ih =>
    obtain ⟨⟨fs, hn⟩, hns⟩ := List.forall_mem_cons.1 h
    obtain ⟨parts, hparts, hcode⟩ := ih hns (after before n)
    rw [any_after] at hcode
    have hcons := fragmentsEach_cons_iff.2 ⟨fs, parts, hn, hparts, rfl⟩
    rw [joinIf_cons, joinCode, codeOf_of_ok hn, ← hcode]
    split
    · exact ⟨[.text "*"] :: fs :: parts,
        fragmentsEach_cons_iff.2 ⟨_, _, fragments_star, hcons, rfl⟩, rfl⟩
    · exact ⟨fs :: parts, hcons, rfl⟩

end Each

section Forms

/-- Whether siblings are put together as factors, or as the given call form. -/
def forms (k : Option Keyword) (ns : List Node) : Bool :=
  headKeyword? (visible ns) == k && joinsRow (headKeyword? ns) == joinsRow k &&
    k.all fun k => (checkArguments k (visible ns).tail).isOk

theorem checkArguments_map {k : Keyword} (hf : ∀ n ∈ ns, (f n).operator? = n.operator?) :
    checkArguments k (ns.map f) = checkArguments k ns := by
  have hlast : (ns.map f).getLast?.any (isOperator "]") = ns.getLast?.any (isOperator "]") := by
    rw [List.getLast?_map]
    cases hn : ns.getLast? with
    | none => rfl
    | some n => simp [isOperator_eq, hf n (List.mem_of_getLast? hn)]
  cases k <;>
    simp only [checkArguments, checkArguments.count, hlast, List.length_map, List.isEmpty_map]

/-- Nodes that are siblings like others are put together like them. -/
theorem forms_map (hs : ∀ n ∈ ns, (f n).isSpace = n.isSpace)
    (ho : ∀ n ∈ ns, (f n).operator? = n.operator?) : forms k (ns.map f) = forms k ns := by
  have hv : ∀ n ∈ visible ns, (f n).operator? = n.operator? := fun n hn =>
    ho n (List.mem_filter.1 hn).1
  have hc (k : Keyword) : checkArguments k ((visible ns).map f).tail =
      checkArguments k (visible ns).tail := by
    rw [← List.map_tail]
    exact checkArguments_map fun n hn => hv n (List.mem_of_mem_tail hn)
  simp only [forms, visible_map hs, headKeyword?_map hv, headKeyword?_map ho, hc]

theorem checkArguments_joinIf {k : Keyword} :
    checkArguments k (joinIf (joinsRow (some k)) none ns) = checkArguments k ns := by
  have hempty : (joinIf true none ns).isEmpty = ns.isEmpty := by
    cases ns with
    | nil => rfl
    | cons n ns => rw [joinIf_cons]; simp
  cases k <;> first | rfl | simp only [joinsRow, checkArguments, hempty]

/-- The code of visible siblings that are put together. -/
def formCode (suffix : String) (k : Option Keyword) (ns : List Node) : List Fragment :=
  match k with
  | none => joinCode suffix true false ns
  | some k => .text (Keyword.opening k) ::
      ((if Keyword.separates k then
          ((ns.tail.map (codeOf suffix)).intersperse [.text ","]).flatten
        else joinCode suffix (joinsRow (some k)) false ns.tail) ++
      (Keyword.closing k).map .text)

/-- The head of a call form is an operator, behind which no sign of multiplication stands. -/
theorem joinIf_head {k : Keyword} (h : headKeyword? ns = some k) :
    joinIf joins none ns = ns.take 1 ++ joinIf joins none ns.tail := by
  cases ns with
  | nil => cases h
  | cons n ns =>
    have hclose : (after none n).any closesFactor = (none : Option Node).any closesFactor := by
      rw [headKeyword?_cons] at h
      obtain ⟨s, hs, h⟩ := Option.bind_eq_some_iff.1 h
      have hn : n.closesFactor = false := by
        rw [closesFactor_eq, hs]
        simpa [closesFactor] using not_closesFactor_of_keyword h
      rw [any_after, hn]
      split <;> rfl
    rw [joinIf_cons, joinIf_congr hclose]
    simp

theorem fragments_forms (hf : forms k ns = true)
    (h : ∀ n ∈ visible ns, ∃ fs, fragments suffix n.explicit = .ok fs) :
    fragments suffix (explicit (.row ns)) =
      .ok (formCode suffix k ((visible ns).map explicit)) := by
  simp only [forms, Bool.and_eq_true, beq_iff_eq] at hf
  obtain ⟨⟨hk, hj⟩, hc⟩ := hf
  have hall : ∀ n ∈ (visible ns).map explicit, ∃ fs, fragments suffix n = .ok fs := by
    simpa using h
  have hhead : headKeyword? ((visible ns).map explicit) = k := by
    rw [headKeyword?_map fun n _ => explicit_operator? n, hk]
  rw [fragments_row, joined, hj, explicitAll_eq, hk]
  generalize hms : (visible ns).map explicit = ms at hall hhead
  cases k with
  | none =>
    obtain ⟨parts, hparts, hcode⟩ := @fragmentsEach_joinIf suffix true _ hall none
    rw [rowCode, joinsRow, hparts, formCode]
    exact congrArg _ hcode
  | some k =>
    obtain ⟨m, rest, rfl⟩ : ∃ m rest, ms = m :: rest := by
      cases ms with
      | nil => cases hhead
      | cons m rest => exact ⟨m, rest, rfl⟩
    obtain ⟨⟨fs, hm⟩, hrest⟩ := List.forall_mem_cons.1 hall
    have hargs : checkArguments k rest = .ok () := by
      have htail : rest = (visible ns).tail.map explicit := by
        rw [List.map_tail, hms, List.tail_cons]
      rw [htail, checkArguments_map fun n _ => explicit_operator? n]
      cases hr : checkArguments k (visible ns).tail with
      | ok _ => rfl
      | error e => simp [hr, Except.isOk, Except.toBool] at hc
    obtain ⟨parts, hparts, hcode⟩ := @fragmentsEach_joinIf suffix (joinsRow (some k)) _ hrest none
    rw [joinIf_head hhead, rowCode]
    simp only [List.take_one, List.head?_cons, Option.toList_some, List.singleton_append,
      List.tail_cons, checkArguments_joinIf, hargs,
      fragmentsEach_cons_iff.2 ⟨fs, parts, hm, hparts, rfl⟩, Except.map, formCode, callCode_eq]
    by_cases hsep : Keyword.separates k = true
    · have hcodes : parts = rest.map (codeOf suffix) := by
        have hj : joinsRow (some k) = false := by cases k <;> first | rfl | cases hsep
        rw [hj] at hparts
        exact Except.ok.inj (hparts.symm.trans (fragmentsEach_codes hrest))
      rw [if_pos hsep, if_pos hsep, hcodes]
    · rw [if_neg hsep, if_neg hsep, hcode]
      rfl

end Forms

end Node

end Formula

end Kinetics
