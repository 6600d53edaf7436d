import Kinetics.Proofs.Code.Lexeme
import Kinetics.Proofs.Decimal.Numeral
import Kinetics.Reaction.Basic
import Mathlib.Data.List.Forall2

/-!
# Kinetics.Proofs.Reaction.Writing

Reactions as they are written: terms with a plus between them on each side of an arrow. A text that
is `Whole` is not cut by the signs that are looked for, whatever stands around it, so the sides and
the terms of a written reaction are read back (`read_writing`). Signs within the names of species,
as those of ions, are no signs of the reaction.

A coefficient of one may be left out (`Abbreviates`) where the name is not itself read as a number
and a name (`standsAlone`).
-/

namespace Kinetics

namespace Reaction

open Text

inductive Arrow where
  | tip
  | single
  | double

def Arrow.text : Arrow → List Char
  | .tip => ['>']
  | .single => ['-', '>']
  | .double => ['=', '>']

structure Term where
  count : Nat
  species : String

namespace Term

/-- The coefficient, a blank and the name. -/
def written (t : Term) : List Char :=
  natDigits t.count ++ ' ' :: t.species.toList

def entry (t : Term) : String × Coefficient :=
  (t.species, .ofMagnitude false t.count)

end Term

/-- A name that a reaction can hold. -/
structure IsSpecies (name : String) : Prop where
  ne_nil : name.toList ≠ []
  visible : ∀ c ∈ name.toList, isBlank c = false
  noArrow : '>' ∉ name.toList
  notPlus : name.toList ≠ ['+']

theorem isSpecies_iff (name : String) : IsSpecies name ↔ name.toList ≠ [] ∧
    (name.toList.all fun c => !isBlank c) = true ∧ '>' ∉ name.toList ∧ name.toList ≠ ['+'] := by
  constructor
  · intro h
    exact ⟨h.ne_nil, by simpa using h.visible, h.noArrow, h.notPlus⟩
  · rintro ⟨hne, hv, ha, hp⟩
    exact ⟨hne, by simpa using hv, ha, hp⟩

instance (name : String) : Decidable (IsSpecies name) :=
  decidable_of_iff _ (isSpecies_iff name).symm

/-- Whether a name without a coefficient is read as that name: it does not start with a digit, or
it is a digit and nothing else. -/
def standsAlone (name : List Char) : Bool :=
  !name.head?.any isDecimal || name.length == 1

/-- A term with its coefficient, or without one that is one. -/
inductive Abbreviates : List Char → Term → Prop where
  | full (t : Term) : Abbreviates t.written t
  | bare {name : String} : standsAlone name.toList = true → Abbreviates name.toList ⟨1, name⟩

def sideText (texts : List (List Char)) : List Char :=
  List.intercalate [' ', '+', ' '] texts

/-- A reaction from the texts of its terms. -/
def writing (a : Arrow) (left right : List (List Char)) : String :=
  String.ofList (sideText left ++ ' ' :: (a.text ++ ' ' :: sideText right))

section Trim

variable {cs ds : List Char}

/-- A text that starts and ends without a blank. -/
structure Trimmed (cs : List Char) : Prop where
  first : ∃ c, cs.head? = some c ∧ isBlank c = false
  last : ∃ c, cs.getLast? = some c ∧ isBlank c = false

theorem trimStart_of_first (h : ∃ c, cs.head? = some c ∧ isBlank c = false) :
    trimStart cs = cs := by
  obtain ⟨c, hc, hb⟩ := h
  obtain ⟨r, rfl⟩ := List.head?_eq_some_iff.1 hc
  simp [trimStart, hb]

theorem trimEnd_of_last (h : ∃ c, cs.getLast? = some c ∧ isBlank c = false) : trimEnd cs = cs := by
  obtain ⟨c, hc, hb⟩ := h
  obtain ⟨r, rfl⟩ := List.getLast?_eq_some_iff.1 hc
  simp [trimEnd, hb]

theorem Trimmed.trim (h : Trimmed cs) : trim cs = cs := by
  rw [Text.trim, trimStart_of_first h.first, trimEnd_of_last h.last]

theorem Trimmed.trimStart_append (h : Trimmed cs) (ds : List Char) :
    trimStart (cs ++ ds) = cs ++ ds := by
  obtain ⟨c, hc, hb⟩ := h.first
  exact trimStart_of_first ⟨c, by rw [List.head?_append, hc, Option.some_or], hb⟩

theorem Trimmed.around (hc : Trimmed cs) (hd : Trimmed ds) (es : List Char) :
    Trimmed (cs ++ (es ++ ds)) := by
  obtain ⟨c, hc, hb⟩ := hc.first
  obtain ⟨d, hd, hb'⟩ := hd.last
  exact ⟨⟨c, by rw [List.head?_append, hc, Option.some_or], hb⟩,
    ⟨d, by rw [← List.append_assoc, List.getLast?_append, hd, Option.some_or], hb'⟩⟩

theorem Trimmed.trim_snoc (h : Trimmed cs) : Text.trim (cs ++ [' ']) = cs := by
  have hblank : isBlank ' ' = true := by decide
  have hend : trimEnd (cs ++ [' ']) = trimEnd cs := by simp [trimEnd, hblank]
  rw [Text.trim, h.trimStart_append, hend, trimEnd_of_last h.last]

theorem Trimmed.trim_cons (h : Trimmed cs) : Text.trim (' ' :: cs) = cs := by
  have hblank : isBlank ' ' = true := by decide
  have hstart : trimStart (' ' :: cs) = trimStart cs := by simp [trimStart, hblank]
  rw [Text.trim, hstart, trimStart_of_first h.first, trimEnd_of_last h.last]

theorem Trimmed.not_allBlank (h : Trimmed cs) (hd : ∀ c ∈ cs, c ∈ ds) : allBlank ds = false := by
  obtain ⟨c, hc, hb⟩ := h.first
  rw [allBlank, List.all_eq_false]
  exact ⟨c, hd c (List.mem_of_head? hc), by simp [hb]⟩

end Trim

section Arrows

variable {part cs rest : List Char} {c : Char}

theorem splitArrows_pass (h : afterArrow? (c :: rest) = none) :
    splitArrows part (c :: rest) = splitArrows (c :: part) rest := by
  rw [splitArrows]
  split
  · simp_all
  · rfl

theorem splitArrows_arrow (a : Arrow) :
    splitArrows part (a.text ++ rest) = part.reverse :: splitArrows [] rest := by
  cases a <;> (rw [Arrow.text, List.cons_append, splitArrows]; rfl)

/-- An arrow needs its tip at once or after one sign. -/
theorem afterArrow?_none (hc : c ≠ '>') (h : rest.head? ≠ some '>') :
    afterArrow? (c :: rest) = none := by
  unfold afterArrow?
  split <;> simp_all

/-- No arrow starts in a text without a tip in front of a blank. -/
theorem splitArrows_within (h : '>' ∉ cs) :
    splitArrows part (cs ++ ' ' :: rest) = splitArrows (' ' :: (cs.reverse ++ part)) rest := by
  induction cs generalizing part with
  | nil => exact splitArrows_pass (by simp [afterArrow?])
  | cons c cs ih =>
    rw [List.mem_cons, not_or] at h
    have hnext : (cs ++ ' ' :: rest).head? ≠ some '>' := by
      cases cs with
      | nil => simp
      | cons d cs => simpa using fun hd : d = '>' => h.2 (by simp [hd])
    rw [List.cons_append, splitArrows_pass (afterArrow?_none (Ne.symm h.1) hnext), ih h.2]
    simp

theorem splitArrows_last (h : '>' ∉ cs) : splitArrows part cs = [part.reverse ++ cs] := by
  induction cs generalizing part with
  | nil => simp [splitArrows]
  | cons c cs ih =>
    rw [List.mem_cons, not_or] at h
    have hnext : cs.head? ≠ some '>' := fun hd => h.2 (List.mem_of_head? hd)
    rw [splitArrows_pass (afterArrow?_none (Ne.symm h.1) hnext), ih h.2]
    simp

/-- The two sides of a written reaction. -/
theorem splitArrows_sides (a : Arrow) {left right : List Char} (hl : '>' ∉ left)
    (hr : '>' ∉ right) :
    splitArrows [] (left ++ ' ' :: (a.text ++ ' ' :: right)) = [left ++ [' '], ' ' :: right] := by
  rw [splitArrows_within hl, splitArrows_arrow, splitArrows_last (by simp [hr])]
  simp

end Arrows

section Plus

variable {term cs rest : List Char} {c : Char}

theorem splitPlus_visible (hc : isBlank c = false) :
    splitPlus term (c :: rest) = splitPlus (c :: term) rest := by
  rw [splitPlus, if_neg (by simp [hc])]

theorem splitPlus_pass (hc : isBlank c = true) (h : afterPlus? (trimStart rest) = none) :
    splitPlus term (c :: rest) = splitPlus (c :: term) rest := by
  rw [splitPlus, if_pos hc]
  split
  · simp_all
  · rfl

theorem splitPlus_plus (hc : isBlank c = true) (h : afterPlus? (trimStart rest) = some cs) :
    splitPlus term (c :: rest) = term.reverse :: splitPlus [] cs := by
  rw [splitPlus, if_pos hc]
  split
  · simp_all
  · simp_all

/-- A text that stays whole, whatever stands around it. -/
structure Whole (cs : List Char) : Prop where
  trimmed : Trimmed cs
  noArrow : '>' ∉ cs
  /-- it does not start with a plus that separates -/
  leads : ∀ rest, afterPlus? (cs ++ rest) = none
  passes : ∀ term rest, splitPlus term (cs ++ rest) = splitPlus (cs.reverse ++ term) rest

theorem Whole.splitPlus (h : Whole cs) : splitPlus [] cs = [cs] := by
  simpa [Reaction.splitPlus] using h.passes [] []

theorem splitPlus_word (h : ∀ c ∈ cs, isBlank c = false) :
    splitPlus term (cs ++ rest) = splitPlus (cs.reverse ++ term) rest := by
  induction cs generalizing term with
  | nil => rfl
  | cons c cs ih =>
    obtain ⟨hc, hcs⟩ := List.forall_mem_cons.1 h
    rw [List.cons_append, splitPlus_visible hc, ih hcs]
    simp

theorem Trimmed.of_word (hne : cs ≠ []) (h : ∀ c ∈ cs, isBlank c = false) : Trimmed cs := by
  obtain ⟨c, hc⟩ := Option.isSome_iff_exists.1 (List.isSome_head?.2 hne)
  obtain ⟨d, hd⟩ := Option.isSome_iff_exists.1 (List.getLast?_isSome.2 hne)
  exact ⟨⟨c, hc, h c (List.mem_of_head? hc)⟩, ⟨d, hd, h d (List.mem_of_getLast? hd)⟩⟩

theorem whole_species {name : String} (h : IsSpecies name) : Whole name.toList := by
  refine ⟨.of_word h.ne_nil h.visible, h.noArrow, fun rest => ?_,
    fun _ _ => splitPlus_word h.visible⟩
  have hv := h.visible
  have hp := h.notPlus
  cases hn : name.toList with
  | nil => exact absurd hn h.ne_nil
  | cons c cs =>
    rw [hn] at hv hp
    cases cs with
    | nil =>
      have hc : c ≠ '+' := fun hc => hp (by rw [hc])
      simp [afterPlus?, hc]
    | cons d cs =>
      have hd : isBlank d = false := hv d (by simp)
      unfold afterPlus?
      split <;> simp_all

theorem whole_written {t : Term} (h : IsSpecies t.species) : Whole t.written := by
  have hs := whole_species h
  have hdigit : ∀ c ∈ natDigits t.count, isBlank c = false := fun c hc =>
    Code.not_blank_of_digit (Decimal.isDigit_natDigits _ c hc)
  have hdigits : Trimmed (natDigits t.count) := .of_word (Decimal.natDigits_ne_nil _) hdigit
  obtain ⟨d, hd, -⟩ := hdigits.first
  obtain ⟨ds, hds⟩ := List.head?_eq_some_iff.1 hd
  have hd : d.isDigit = true := Decimal.isDigit_natDigits t.count d (by simp [hds])
  refine ⟨hdigits.around hs.trimmed [' '], ?_, fun rest => ?_, fun term rest => ?_⟩
  · intro hm
    simp only [Term.written, List.mem_append, List.mem_cons] at hm
    rcases hm with hm | hm | hm
    · exact absurd (Decimal.isDigit_natDigits _ _ hm) (by decide)
    · cases hm
    · exact h.noArrow hm
  · have hplus : d ≠ '+' := by
      rintro rfl
      cases hd
    rw [Term.written, hds, List.cons_append, List.cons_append]
    unfold afterPlus?
    split <;> simp_all
  · have hnone : afterPlus? (trimStart (t.species.toList ++ rest)) = none := by
      rw [hs.trimmed.trimStart_append, hs.leads]
    rw [Term.written, List.append_assoc, splitPlus_word hdigit, List.cons_append,
      splitPlus_pass (by decide) hnone, hs.passes]
    simp

end Plus

section Sides

variable {cs : List Char} {texts : List (List Char)}

theorem sideText_cons_cons (cs ds : List Char) (texts : List (List Char)) :
    sideText (cs :: ds :: texts) = cs ++ (' ' :: '+' :: ' ' :: sideText (ds :: texts)) := by
  simp [sideText, List.intercalate]

theorem sideText_single (cs : List Char) : sideText [cs] = cs := by
  simp [sideText, List.intercalate]

theorem trimmed_sideText (hne : texts ≠ []) (h : ∀ cs ∈ texts, Whole cs) :
    Trimmed (sideText texts) := by
  induction texts with
  | nil => exact absurd rfl hne
  | cons cs texts ih =>
    cases texts with
    | nil =>
      rw [sideText_single]
      exact (h cs (by simp)).trimmed
    | cons ds texts =>
      rw [sideText_cons_cons]
      have hrest := ih (by simp) fun es he => h es (List.mem_cons_of_mem _ he)
      exact (h cs (by simp)).trimmed.around hrest [' ', '+', ' ']

theorem no_tip_sideText (h : ∀ cs ∈ texts, Whole cs) : '>' ∉ sideText texts := by
  induction texts with
  | nil => simp [sideText, List.intercalate]
  | cons cs texts ih =>
    have hcs := (h cs (by simp)).noArrow
    have hrest := ih fun es he => h es (List.mem_cons_of_mem _ he)
    cases texts with
    | nil => rwa [sideText_single]
    | cons ds texts =>
      rw [sideText_cons_cons]
      simp [hcs, hrest]

theorem splitPlus_sideText (hne : texts ≠ []) (h : ∀ cs ∈ texts, Whole cs) :
    splitPlus [] (sideText texts) = texts := by
  induction texts with
  | nil => exact absurd rfl hne
  | cons cs texts ih =>
    have hcs := h cs (by simp)
    cases texts with
    | nil => rw [sideText_single, hcs.splitPlus]
    | cons ds texts =>
      have hall : ∀ es ∈ ds :: texts, Whole es := fun es he => h es (List.mem_cons_of_mem _ he)
      have hplus : afterPlus? (trimStart ('+' :: ' ' :: sideText (ds :: texts))) =
          some (sideText (ds :: texts)) := by
        have hplus : isBlank '+' = false := by decide
        have hblank : isBlank ' ' = true := by decide
        have hrest := trimStart_of_first (trimmed_sideText (by simp) hall).first
        simp only [trimStart] at hrest
        simp [trimStart, hplus, afterPlus?, hblank, hrest]
      rw [sideText_cons_cons, hcs.passes, splitPlus_plus (by decide) hplus, ih (by simp) hall]
      simp

/-- The terms of a side. -/
theorem terms_sideText (hne : texts ≠ []) (h : ∀ cs ∈ texts, Whole cs) :
    terms (sideText texts) = texts := by
  have hlead : afterPlus? (sideText texts) = none := by
    cases texts with
    | nil => exact absurd rfl hne
    | cons cs texts =>
      have hcs := (h cs (by simp)).leads
      cases texts with
      | nil => simpa [sideText_single] using hcs []
      | cons ds texts =>
        rw [sideText_cons_cons]
        exact hcs _
  unfold terms
  split
  · rename_i c r hs
    rw [hs, afterPlus?] at hlead
    rw [if_neg (by simpa using hlead), splitPlus_sideText hne h]
  · exact splitPlus_sideText hne h

end Sides

section Terms

variable {name : String} {t : Term} {cs ds : List Char}

theorem isDecimal_of_digit {c : Char} (h : c.isDigit = true) : isDecimal c = true := by
  obtain ⟨r, hr, hlow, hhigh⟩ := inRanges_iff.1 (Code.inRanges_of_digit h)
  obtain rfl := List.mem_singleton.1 hr
  exact inRanges_iff.2 ⟨(0x30, 0x39), by simp [decimalRanges], hlow, hhigh⟩

theorem countOf_natDigits (n : Nat) : countOf (natDigits n) = .ofMagnitude false n := by
  have hall : (natDigits n).all Char.isDigit = true :=
    List.all_eq_true.2 (Decimal.isDigit_natDigits n)
  rw [countOf, if_pos hall, Coefficient.ofDigits, Decimal.digitsValue_natDigits]

/-- A term with its coefficient is read as it is written. -/
theorem readTerm?_written (h : IsSpecies t.species) :
    readTerm? t.written = some (.ofMagnitude false t.count, t.species.toList) := by
  have hdec : ∀ c ∈ natDigits t.count, isDecimal c = true := fun c hc =>
    isDecimal_of_digit (Decimal.isDigit_natDigits _ c hc)
  have hblank : isDecimal ' ' = false := by decide
  have htake : t.written.takeWhile isDecimal = natDigits t.count := by
    rw [Term.written, List.takeWhile_append_of_pos hdec]
    simp [hblank]
  have hdrop : t.written.dropWhile isDecimal = ' ' :: t.species.toList := by
    rw [Term.written, List.dropWhile_append_of_pos hdec]
    simp [hblank]
  have hstart : trimStart (' ' :: t.species.toList) = t.species.toList := by
    have hs := trimStart_of_first (whole_species h).trimmed.first
    have hb : isBlank ' ' = true := by decide
    simp only [trimStart] at hs
    simp [trimStart, hb, hs]
  have hvisible : t.species.toList.any isBlank = false := by
    rw [List.any_eq_false]
    simpa using h.visible
  obtain ⟨d, ds, hds⟩ := List.exists_cons_of_ne_nil (Decimal.natDigits_ne_nil t.count)
  simp only [readTerm?, htake, hdrop, hds]
  rw [← hds, hstart, hvisible, countOf_natDigits]
  rfl

/-- A number in front of a name, and the last of several digits, are no whole name. -/
theorem length_readTerm? {c d : Char} {count : Coefficient} (hc : isDecimal c = true)
    (h : readTerm? (c :: d :: cs) = some (count, ds)) : ds.length ≤ (d :: cs).length := by
  have htake : (c :: d :: cs).takeWhile isDecimal = c :: (d :: cs).takeWhile isDecimal := by
    rw [List.takeWhile_cons, if_pos hc]
  have hdrop : (c :: d :: cs).dropWhile isDecimal = (d :: cs).dropWhile isDecimal := by
    rw [List.dropWhile_cons, if_pos hc]
  have hle := (List.dropWhile_suffix isDecimal (l := d :: cs)).length_le
  rw [readTerm?, htake, hdrop] at h
  generalize (d :: cs).takeWhile isDecimal = number at h
  generalize (d :: cs).dropWhile isDecimal = rest at h hle
  split at h
  · cases h
  · split at h <;> cases h
    exact hle
  · cases h
    simp
  · cases h
    simp
  · split at h <;> cases h
    exact ((List.dropWhile_suffix isBlank).length_le).trans hle

/-- A name alone is read as it is exactly if no number can be read in front of it. -/
theorem readTerm?_alone (h : IsSpecies name) :
    readTerm? name.toList = some (.one, name.toList) ↔ standsAlone name.toList = true := by
  have hvisible : name.toList.any isBlank = false := by
    rw [List.any_eq_false]
    simpa using h.visible
  have hne := h.ne_nil
  generalize name.toList = cs at hvisible hne
  cases cs with
  | nil => exact absurd rfl hne
  | cons c cs =>
    by_cases hc : isDecimal c = true
    · cases cs with
      | nil => simp [readTerm?, standsAlone, hc]
      | cons d cs =>
        refine iff_of_false (fun hr => ?_) (by simp [standsAlone, hc])
        have := length_readTerm? hc hr
        simp at this
    · have hread : readTerm? (c :: cs) = some (.one, c :: cs) := by
        simp [readTerm?, hc, List.any_eq_false] at hvisible ⊢
        exact hvisible
      exact iff_of_true hread (by simp [standsAlone, hc])

/-- However a term is written, it stays whole and is read as the term. -/
theorem Abbreviates.whole (h : Abbreviates cs t) (ht : IsSpecies t.species) : Whole cs := by
  cases h with
  | full => exact whole_written ht
  | bare => exact whole_species ht

theorem Abbreviates.readTerm? (h : Abbreviates cs t) (ht : IsSpecies t.species) :
    Reaction.readTerm? cs = some (.ofMagnitude false t.count, t.species.toList) := by
  cases h with
  | full => exact readTerm?_written ht
  | bare hn =>
    have hone : Coefficient.one = .ofMagnitude false 1 := by decide +kernel
    rw [(readTerm?_alone ht).2 hn, hone]

end Terms

section Reading

variable {species : List String} {text : String} {left right ts : List Term}
  {ls rs texts : List (List Char)}

theorem wholes (h : List.Forall₂ Abbreviates texts ts) (ht : ∀ t ∈ ts, IsSpecies t.species) :
    ∀ cs ∈ texts, Whole cs := by
  induction h with
  | nil => exact List.forall_mem_nil _
  | cons hc _ ih =>
    obtain ⟨hs, hts⟩ := List.forall_mem_cons.1 ht
    exact List.forall_mem_cons.2 ⟨hc.whole hs, ih hts⟩

theorem readTerms_texts (h : List.Forall₂ Abbreviates texts ts)
    (ht : ∀ t ∈ ts, IsSpecies t.species) :
    readTerms text texts = .ok (ts.map Term.entry) := by
  induction h with
  | nil => rfl
  | cons hc _ ih =>
    obtain ⟨hs, hts⟩ := List.forall_mem_cons.1 ht
    rw [readTerms, (hc.whole hs).trimmed.trim, hc.readTerm? hs, ih hts]
    simp [Term.entry]

/-- The terms of one side, blanks around it aside. -/
theorem readSide_texts {side : List Char} (hne : ts ≠ [])
    (h : List.Forall₂ Abbreviates texts ts) (ht : ∀ t ∈ ts, IsSpecies t.species)
    (hside : trim side = sideText texts) : readSide text side = .ok (ts.map Term.entry) := by
  have hne : texts ≠ [] := by
    rintro rfl
    cases h
    exact hne rfl
  rw [readSide, hside, terms_sideText hne (wholes h ht), readTerms_texts h ht]

/-- The terms with the signs of their sides. -/
def signedEntries (left right : List Term) : List (String × Coefficient) :=
  (left.map Term.entry).map (fun e => (e.1, e.2.neg)) ++ right.map Term.entry

/-- A written reaction is read as the terms that it is written from. -/
theorem read_writing (a : Arrow) (hl : left ≠ []) (hr : right ≠ [])
    (h : ∀ t ∈ left ++ right, IsSpecies t.species ∧ t.species ∈ species)
    (hls : List.Forall₂ Abbreviates ls left) (hrs : List.Forall₂ Abbreviates rs right) :
    read species (writing a ls rs) =
      .ok ⟨writing a ls rs, participantsOf species (signedEntries left right)⟩ := by
  have hleft : ∀ t ∈ left, IsSpecies t.species := fun t ht => (h t (by simp [ht])).1
  have hright : ∀ t ∈ right, IsSpecies t.species := fun t ht => (h t (by simp [ht])).1
  have hwl := wholes hls hleft
  have hwr := wholes hrs hright
  have htl : Trimmed (sideText ls) := trimmed_sideText (by rintro rfl; cases hls; exact hl rfl) hwl
  have htr : Trimmed (sideText rs) := trimmed_sideText (by rintro rfl; cases hrs; exact hr rfl) hwr
  have htrim : trim (writing a ls rs).toList =
      sideText ls ++ ' ' :: (a.text ++ ' ' :: sideText rs) := by
    have := (htl.around htr (' ' :: (a.text ++ [' ']))).trim
    simpa [writing] using this
  have hdeclared : (signedEntries left right).find? (fun t => !species.contains t.1) = none := by
    rw [List.find?_eq_none]
    intro e he
    simp only [signedEntries, List.mem_append, List.mem_map] at he
    rcases he with ⟨_, ⟨t, ht, rfl⟩, rfl⟩ | ⟨t, ht, rfl⟩
    · simpa [Term.entry] using (h t (by simp [ht])).2
    · simpa [Term.entry] using (h t (by simp [ht])).2
  have hbl : allBlank (sideText ls ++ [' ']) = false := htl.not_allBlank fun c hc =>
    List.mem_append_left _ hc
  have hbr : allBlank (' ' :: sideText rs) = false :=
    htr.not_allBlank fun c hc => List.mem_cons_of_mem _ hc
  unfold read
  rw [htrim, splitArrows_sides a (no_tip_sideText hwl) (no_tip_sideText hwr)]
  simp only [hbl, hbr, Bool.or_false, Bool.false_eq_true, if_false,
    readSide_texts hl hls hleft htl.trim_snoc, readSide_texts hr hrs hright htr.trim_cons]
  rw [signedEntries] at hdeclared
  rw [hdeclared, signedEntries]

theorem full_texts (ts : List Term) : List.Forall₂ Abbreviates (ts.map Term.written) ts := by
  induction ts with
  | nil => exact .nil
  | cons t ts ih => exact .cons (.full t) ih

/-- Coefficients of one may be left out where the names can stand alone. -/
theorem read_abbreviated (a : Arrow) (hs : ∀ name ∈ species, IsSpecies name) (hl : left ≠ [])
    (hr : right ≠ []) (h : ∀ t ∈ left ++ right, t.species ∈ species)
    (hls : List.Forall₂ Abbreviates ls left) (hrs : List.Forall₂ Abbreviates rs right) :
    ∃ full short,
      read species (writing a (left.map Term.written) (right.map Term.written)) = .ok full ∧
        read species (writing a ls rs) = .ok short ∧ short.participants = full.participants := by
  have h : ∀ t ∈ left ++ right, IsSpecies t.species ∧ t.species ∈ species := fun t ht =>
    ⟨hs _ (h t ht), h t ht⟩
  exact ⟨_, _, read_writing a hl hr h (full_texts left) (full_texts right),
    read_writing a hl hr h hls hrs, rfl⟩

/-- Ions, and a name that starts with a digit, which keeps its coefficient. -/
theorem read_abbreviated_ions :
    (∀ name ∈ ["H+", "Cl-", "3He"], IsSpecies name) ∧
      ∃ full short,
        read ["H+", "Cl-", "3He"] (writing .single [Term.written ⟨1, "H+"⟩, Term.written ⟨2, "Cl-"⟩]
          [Term.written ⟨1, "3He"⟩, Term.written ⟨1, "Cl-"⟩]) = .ok full ∧
        read ["H+", "Cl-", "3He"] (writing .single ["H+".toList, Term.written ⟨2, "Cl-"⟩]
          [Term.written ⟨1, "3He"⟩, "Cl-".toList]) = .ok short ∧
        short.participants = full.participants := by
  have hs : ∀ name ∈ ["H+", "Cl-", "3He"], IsSpecies name := by decide +kernel
  have hl : List.Forall₂ Abbreviates ["H+".toList, Term.written ⟨2, "Cl-"⟩]
      [⟨1, "H+"⟩, ⟨2, "Cl-"⟩] :=
    .cons (.bare (by decide +kernel)) (.cons (.full _) .nil)
  have hr : List.Forall₂ Abbreviates [Term.written ⟨1, "3He"⟩, "Cl-".toList]
      [⟨1, "3He"⟩, ⟨1, "Cl-"⟩] :=
    .cons (.full _) (.cons (.bare (by decide +kernel)) .nil)
  have hread := read_abbreviated .single hs (by simp) (by simp) (by simp) hl hr
  exact ⟨hs, hread⟩

/-- A name that starts with a digit is read as a number and a name when its coefficient is left
out. -/
theorem read_bare_isotope :
    (∀ name ∈ ["3He", "A"], IsSpecies name) ∧
      read ["3He", "A"] (writing .tip [Term.written ⟨1, "3He"⟩] [Term.written ⟨1, "A"⟩]) =
        .ok ⟨"1 3He > 1 A", [("3He", .whole true 1), ("A", .whole false 1)]⟩ ∧
      read ["3He", "A"] (writing .tip ["3He".toList] [Term.written ⟨1, "A"⟩]) =
        .error (.undeclaredParticipant "3He > 1 A" "He") := by
  decide +kernel

end Reading

end Reaction

end Kinetics
