import Kinetics.Program.Layout
import Mathlib.Data.List.Basic

/-!
# Kinetics.Proofs.Hygiene.Name

The names that symbols get. A name is an identifier and none of the reserved names. It is one of
those that a program uses itself only if the symbol spells it, since the low line behind a reserved
name leads to none of them; so the symbols that take such a name are exactly those that spell one
which is not reserved.
-/

namespace Kinetics

namespace Program

open Text

variable {symbol name : String}

/-- The symbol with all that no identifier can hold replaced, and with a low line in front if it
would not start one. -/
def spelling (symbol : String) : String :=
  String.ofList (startName (symbol.toList.map fun c => if isIdentifierContinue c then c else '_'))

theorem nameOf_of_reserved (h : spelling symbol ∈ reservedNames) :
    nameOf symbol = spelling symbol ++ "_" :=
  if_pos (List.contains_iff_mem.2 h)

theorem nameOf_of_not_reserved (h : spelling symbol ∉ reservedNames) :
    nameOf symbol = spelling symbol :=
  if_neg fun hc => h (List.contains_iff_mem.1 hc)

/-- A low line or a character that starts an identifier, and behind it only such as continue one. -/
def IsIdentifier (name : String) : Prop :=
  (∃ c ∈ name.toList.head?, c = '_' ∨ isIdentifierStart c = true) ∧
    ∀ c ∈ name.toList, isIdentifierContinue c = true

theorem isIdentifierContinue_underscore : isIdentifierContinue '_' = true := by
  decide +kernel

theorem isIdentifier_startName {cs : List Char} (h : ∀ c ∈ cs, isIdentifierContinue c = true) :
    IsIdentifier (String.ofList (startName cs)) := by
  rw [IsIdentifier, String.toList_ofList]
  cases cs with
  | nil =>
    refine ⟨⟨'_', rfl, .inl rfl⟩, fun c hc => ?_⟩
    rw [List.mem_singleton.1 hc]
    exact isIdentifierContinue_underscore
  | cons c cs =>
    by_cases hc : (c = '_' || isIdentifierStart c) = true
    · rw [startName, if_pos hc]
      exact ⟨⟨c, rfl, by simpa using hc⟩, h⟩
    · rw [startName, if_neg hc]
      refine ⟨⟨'_', rfl, .inl rfl⟩, fun d hd => ?_⟩
      rcases List.mem_cons.1 hd with rfl | hd
      · exact isIdentifierContinue_underscore
      · exact h d hd

theorem isIdentifier_spelling (symbol : String) : IsIdentifier (spelling symbol) := by
  refine isIdentifier_startName fun c hc => ?_
  obtain ⟨d, -, rfl⟩ := List.mem_map.1 hc
  by_cases hd : isIdentifierContinue d = true
  · rwa [if_pos hd]
  · rw [if_neg hd]
    exact isIdentifierContinue_underscore

theorem IsIdentifier.append (h : IsIdentifier name) {suffix : String}
    (hs : ∀ c ∈ suffix.toList, isIdentifierContinue c = true) : IsIdentifier (name ++ suffix) := by
  obtain ⟨⟨c, hc, hstart⟩, hall⟩ := h
  rw [IsIdentifier, String.toList_append]
  refine ⟨⟨c, ?_, hstart⟩, fun d hd => ?_⟩
  · rw [List.head?_append, Option.mem_def.1 hc]
    rfl
  · exact (List.mem_append.1 hd).elim (hall d) (hs d)

theorem isIdentifier_nameOf (symbol : String) : IsIdentifier (nameOf symbol) := by
  by_cases h : spelling symbol ∈ reservedNames
  · rw [nameOf_of_reserved h]
    refine (isIdentifier_spelling symbol).append fun c hc => ?_
    rw [List.mem_singleton.1 hc]
    exact isIdentifierContinue_underscore
  · rw [nameOf_of_not_reserved h]
    exact isIdentifier_spelling symbol

theorem isIdentifierContinue_of_upper {c : Char} (h : 0x41 ≤ c.toNat ∧ c.toNat ≤ 0x5A) :
    isIdentifierContinue c = true :=
  isIdentifierContinue_of_start (inRanges_iff.2 ⟨(0x41, 0x5A), .head _, h⟩)

theorem isIdentifierContinue_of_lower {c : Char} (h : 0x61 ≤ c.toNat ∧ c.toNat ≤ 0x7A) :
    isIdentifierContinue c = true :=
  isIdentifierContinue_of_start (inRanges_iff.2 ⟨(0x61, 0x7A), .tail _ (.head _), h⟩)

theorem isIdentifierContinue_of_digit {c : Char} (h : 0x30 ≤ c.toNat ∧ c.toNat ≤ 0x39) :
    isIdentifierContinue c = true :=
  (Bool.or_eq_true _ _).mpr (.inr (inRanges_iff.2 ⟨(0x30, 0x39), .head _, h⟩))

theorem isIdentifierContinue_fluxSuffix :
    ∀ c ∈ fluxSuffix.toList, isIdentifierContinue c = true := by
  have hlist : fluxSuffix.toList = ['_', 'F', 'l', 'u', 'x'] := by simp [fluxSuffix]
  rw [hlist]
  simp only [List.forall_mem_cons, List.not_mem_nil, false_implies, implies_true, and_true]
  exact ⟨isIdentifierContinue_underscore, isIdentifierContinue_of_upper (by decide),
    isIdentifierContinue_of_lower (by decide), isIdentifierContinue_of_lower (by decide),
    isIdentifierContinue_of_lower (by decide)⟩

theorem isIdentifier_flux (h : IsIdentifier name) : IsIdentifier (name ++ fluxSuffix) :=
  h.append isIdentifierContinue_fluxSuffix

theorem nameOf_not_reserved (symbol : String) : nameOf symbol ∉ reservedNames := by
  by_cases h : spelling symbol ∈ reservedNames
  · have hall : ∀ word ∈ reservedNames, word ++ "_" ∉ reservedNames := by decide
    rw [nameOf_of_reserved h]
    exact hall _ h
  · rwa [nameOf_of_not_reserved h]

theorem flux_not_reserved (name : String) : name ++ fluxSuffix ∉ reservedNames := by
  have hall : ∀ word ∈ reservedNames, ¬fluxSuffix.toList <:+ word.toList := by decide
  intro h
  refine hall _ h ?_
  rw [String.toList_append]
  exact List.suffix_append _ _

/-- The names that programs import, define, assign, take as parameters or call, for every model. -/
def machineryNames : List String :=
  ["np", "solve_ivp", "solve_bvp", "interp1d", "simulate", "parameter_table", "_value",
    "derivative", "boundary", "_columns", "_t", "_y", "_y0", "_T", "_times", "_Y", "_Ys", "_i",
    "_mesh", "_guess", "_is_state", "sol", "result", "float", "range", "bool", "ValueError"]

/-- What stands in front of the name of a variable in the names made from it. -/
def machineryPrefixes : List String :=
  ["_y0_", "_d_", "_block_", "_interp_"]

/-- Whether a name is one that programs use themselves or make from the name of a variable. -/
def isMachinery (name : String) : Bool :=
  machineryNames.contains name ||
    machineryPrefixes.any fun start => start.toList.isPrefixOf name.toList

/-- The names made from those of variables start with a low line, so that a name which does not can
only be one of the fixed ones. -/
theorem not_machinery_append {word suffix : String}
    (hw : word.toList.head?.any (· != '_') = true)
    (hs : ∀ m ∈ machineryNames, ¬suffix.toList <:+ m.toList) :
    isMachinery (word ++ suffix) = false := by
  have hstarts : ∀ start ∈ machineryPrefixes, start.toList.head? = some '_' := by decide
  rw [isMachinery, Bool.or_eq_false_iff, List.any_eq_false]
  constructor
  · refine Bool.eq_false_iff.2 fun hm => hs _ (List.contains_iff_mem.1 hm) ?_
    rw [String.toList_append]
    exact List.suffix_append _ _
  · intro start hstart hprefix
    obtain ⟨more, hmore⟩ := List.isPrefixOf_iff_prefix.1 hprefix
    have hhead := congrArg List.head? hmore
    rw [List.head?_append, hstarts start hstart, String.toList_append, List.head?_append] at hhead
    cases hword : word.toList.head? with
    | none => simp [hword] at hw
    | some c =>
      rw [hword] at hw hhead
      cases hhead
      simp at hw

/-- No reserved word leads to a name of the machinery, be it by a low line or as a flux. -/
theorem reserved_not_machinery {word : String} (h : word ∈ reservedNames) :
    isMachinery (word ++ "_") = false ∧ isMachinery (word ++ "_" ++ fluxSuffix) = false ∧
      isMachinery (word ++ fluxSuffix) = false := by
  have hall : ∀ word ∈ reservedNames, word.toList.head?.any (· != '_') = true := by decide
  rw [String.append_assoc]
  exact ⟨not_machinery_append (hall word h) (by decide),
    not_machinery_append (hall word h) (by decide),
    not_machinery_append (hall word h) (by decide)⟩

theorem nameOf_eq_iff (h : isMachinery name = true) :
    nameOf symbol = name ↔ spelling symbol = name ∧ name ∉ reservedNames := by
  by_cases hr : spelling symbol ∈ reservedNames
  · rw [nameOf_of_reserved hr]
    constructor
    · rintro rfl
      rw [(reserved_not_machinery hr).1] at h
      cases h
    · rintro ⟨rfl, hn⟩
      exact absurd hr hn
  · rw [nameOf_of_not_reserved hr]
    constructor
    · rintro rfl
      exact ⟨rfl, hr⟩
    · exact And.left

theorem spelling_append (h : symbol ≠ "") {suffix : String}
    (hs : ∀ c ∈ suffix.toList, isIdentifierContinue c = true) :
    spelling (symbol ++ suffix) = spelling symbol ++ suffix := by
  have hsuffix : suffix.toList.map (fun c => if isIdentifierContinue c then c else '_') =
      suffix.toList :=
    (List.map_congr_left fun c hc => if_pos (hs c hc)).trans (List.map_id _)
  have hstart : ∀ cs : List Char, cs ≠ [] →
      startName (cs ++ suffix.toList) = startName cs ++ suffix.toList := by
    intro cs hcs
    cases cs with
    | nil => exact absurd rfl hcs
    | cons c cs =>
      simp only [List.cons_append, startName]
      split <;> rfl
  have hne : symbol.toList ≠ [] := fun hnil => h (String.toList_eq_nil_iff.1 hnil)
  rw [spelling, String.toList_append, List.map_append, hsuffix, hstart _ (by simpa using hne),
    String.ofList_append, String.ofList_toList]
  rfl

/-- A flux takes a name of the machinery only if its own symbol spells it. -/
theorem flux_eq_iff (h : isMachinery name = true) :
    nameOf symbol ++ fluxSuffix = name ↔
      spelling (symbol ++ fluxSuffix) = name ∧ name ∉ reservedNames := by
  by_cases he : symbol = ""
  · subst he
    have hname : nameOf "" ++ fluxSuffix ≠ name := by
      rintro rfl
      exact absurd h (by decide)
    have hspelling : spelling ("" ++ fluxSuffix) ≠ name := by
      rintro rfl
      exact absurd h (by decide +kernel)
    exact ⟨fun hn => absurd hn hname, fun hn => absurd hn.1 hspelling⟩
  · rw [spelling_append he isIdentifierContinue_fluxSuffix]
    by_cases hr : spelling symbol ∈ reservedNames
    · obtain ⟨-, hlow, hflux⟩ := reserved_not_machinery hr
      rw [nameOf_of_reserved hr]
      constructor
      · rintro rfl
        rw [hlow] at h
        cases h
      · rintro ⟨rfl, -⟩
        rw [hflux] at h
        cases h
    · rw [nameOf_of_not_reserved hr]
      constructor
      · rintro rfl
        exact ⟨rfl, flux_not_reserved _⟩
      · exact And.left

end Program

end Kinetics
