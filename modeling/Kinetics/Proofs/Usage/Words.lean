import Kinetics.Program.Statement
import Kinetics.Proofs.Decimal.Numeral
import Kinetics.Proofs.Hygiene.Name

/-!
# Kinetics.Proofs.Usage.Words

The names that a line of code reads. A line is scanned character by character, so that the scan of a
text put together from parts goes through the parts. A word that an equals sign follows is a target
or a keyword and is not read; attributes, numbers, literals and comments hold no names.
-/

namespace Kinetics

namespace Program

open Text

namespace Scan

def startsWord (c : Char) : Bool :=
  c == '_' || c.isAlpha || 128 ≤ c.toNat

def continuesWord (c : Char) : Bool :=
  c == '_' || c.isAlphanum || 128 ≤ c.toNat

/-- Where in a line a scan is. -/
inductive Mode where
  | between
  | word (cs : List Char)
  /-- blanks after a word -/
  | after (cs : List Char)
  /-- an equals sign after a word -/
  | bound (cs : List Char)
  /-- a number, or what follows a dot -/
  | attribute
  | quoted
  | escaped
  | comment
  deriving DecidableEq

namespace Mode

/-- The mode that a character between words leads to. -/
def enter (c : Char) : Mode :=
  if startsWord c then .word [c]
  else if c == '.' || c.isDigit then .attribute
  else if c == '\'' then .quoted
  else if c == '#' then .comment
  else .between

/-- The word that is read when a character follows, and the mode that this leads to. -/
def step : Mode → Char → List String × Mode
  | .between, c => ([], enter c)
  | .word cs, c =>
    if continuesWord c then ([], .word (cs ++ [c]))
    else if c == ' ' then ([], .after cs)
    else if c == '=' then ([], .bound cs)
    else ([String.ofList cs], enter c)
  | .after cs, c =>
    if c == ' ' then ([], .after cs)
    else if c == '=' then ([], .bound cs)
    else ([String.ofList cs], enter c)
  | .bound cs, c => if c == '=' then ([String.ofList cs], .between) else ([], enter c)
  | .attribute, c => ([], if c == '.' || continuesWord c then .attribute else enter c)
  | .quoted, c => ([], if c == '\\' then .escaped else if c == '\'' then .between else .quoted)
  | .escaped, _ => ([], .quoted)
  | .comment, _ => ([], .comment)

/-- The word that is read when the line ends. -/
def close : Mode → List String
  | .word cs => [String.ofList cs]
  | .after cs => [String.ofList cs]
  | _ => []

end Mode

/-- The words that are read in a text, and the mode at its end. -/
def run (m : Mode) : List Char → List String × Mode
  | [] => ([], m)
  | c :: cs => ((m.step c).1 ++ (run (m.step c).2 cs).1, (run (m.step c).2 cs).2)

/-- The words that are read in a line. -/
def words (code : String) : List String :=
  (run .between code.toList).1 ++ (run .between code.toList).2.close

variable {m m' m₁ : Mode} {s t : String} {cs ds : List Char} {us vs ws : List String} {x : String}

theorem run_append (m : Mode) (cs ds : List Char) :
    run m (cs ++ ds) =
      ((run m cs).1 ++ (run (run m cs).2 ds).1, (run (run m cs).2 ds).2) := by
  induction cs generalizing m with
  | nil => rfl
  | cons c cs ih => simp only [List.cons_append, run, ih, List.append_assoc]

/-- A text leads from one mode to another, and reads these words. -/
def Scans (m : Mode) (s : String) (ws : List String) (m' : Mode) : Prop :=
  run m s.toList = (ws, m')

instance : Decidable (Scans m s ws m') :=
  inferInstanceAs (Decidable (_ = _))

theorem Scans.append (hs : Scans m s ws m₁) (ht : Scans m₁ t vs m') :
    Scans m (s ++ t) (ws ++ vs) m' := by
  rw [Scans, String.toList_append, run_append, hs, ht]

theorem Scans.words (h : Scans .between s ws m) : words s = ws ++ m.close := by
  rw [Scan.words, h]

/-- A text that starts with a character which ends words, numbers and attributes. -/
def Delimited (t : String) : Prop :=
  t.toList.head?.any (fun c => !continuesWord c && c != ' ' && c != '=' && c != '.') = true

instance : Decidable (Delimited t) :=
  inferInstanceAs (Decidable (_ = _))

theorem Delimited.exists_cons (h : Delimited t) : ∃ c cs, t.toList = c :: cs ∧
    continuesWord c = false ∧ c ≠ ' ' ∧ c ≠ '=' ∧ c ≠ '.' := by
  unfold Delimited at h
  cases ht : t.toList with
  | nil => simp [ht] at h
  | cons c cs =>
    simp only [ht, List.head?_cons, Option.any_some, Bool.and_eq_true, Bool.not_eq_true',
      bne_iff_ne, ne_eq] at h
    obtain ⟨⟨⟨hc, hb⟩, he⟩, hd⟩ := h
    exact ⟨c, cs, rfl, hc, hb, he, hd⟩

theorem Delimited.append (h : Delimited t) : Delimited (t ++ s) := by
  obtain ⟨c, cs, ht, hc, hb, he, hd⟩ := h.exists_cons
  simp [Delimited, ht, hc, hb, he, hd]

theorem Delimited.word (h : Delimited t) (cs : List Char) (ht : Scans .between t ws m) :
    Scans (.word cs) t (String.ofList cs :: ws) m := by
  obtain ⟨c, ds, hlist, hc, hb, he, -⟩ := h.exists_cons
  rw [Scans, hlist, run, Prod.mk.injEq] at ht ⊢
  simpa [Mode.step, hc, hb, he] using ht

theorem Delimited.attribute (h : Delimited t) (ht : Scans .between t ws m) :
    Scans .attribute t ws m := by
  obtain ⟨c, ds, hlist, hc, -, -, hd⟩ := h.exists_cons
  rw [Scans, hlist, run] at ht ⊢
  simpa [Mode.step, hc, hd] using ht

/-- A text that does not start with an equals sign. -/
def Opens (t : String) : Prop :=
  t.toList.head?.any (· != '=') = true

instance : Decidable (Opens t) :=
  inferInstanceAs (Decidable (_ = _))

theorem Opens.append (h : Opens t) : Opens (t ++ s) := by
  unfold Opens at h ⊢
  cases ht : t.toList with
  | nil => simp [ht] at h
  | cons c cs => simpa [ht] using h

/-- What is given to a keyword is read as elsewhere. -/
theorem Scans.keyword (hs : Scans m s ws (.bound cs)) (ho : Opens t)
    (ht : Scans .between t vs m') : Scans m (s ++ t) (ws ++ vs) m' := by
  refine hs.append ?_
  unfold Opens at ho
  rw [Scans] at ht ⊢
  cases hlist : t.toList with
  | nil => simp [hlist] at ho
  | cons c ds =>
    rw [hlist] at ho ht
    have hc : c ≠ '=' := by simpa using ho
    rw [run] at ht ⊢
    simpa [Mode.step, hc] using ht

section Identifier

/-- The only identifier characters of ASCII are letters, digits and the low line. -/
theorem ascii_ranges : (∀ r ∈ startRanges, 128 ≤ r.1 ∨ r = (0x41, 0x5A) ∨ r = (0x61, 0x7A)) ∧
    ∀ r ∈ continueRanges, 128 ≤ r.1 ∨ r = (0x30, 0x39) ∨ r = (0x5F, 0x5F) := by
  decide +kernel

theorem isAlpha_iff {c : Char} : c.isAlpha = true ↔
    (0x41 ≤ c.toNat ∧ c.toNat ≤ 0x5A) ∨ (0x61 ≤ c.toNat ∧ c.toNat ≤ 0x7A) := by
  change (decide (65 ≤ c.val ∧ c.val ≤ 90) ||
    decide (97 ≤ c.val) && decide (c.val ≤ 122)) = true ↔ _
  simp only [Bool.or_eq_true, Bool.and_eq_true, decide_eq_true_eq, UInt32.le_iff_toNat_le]
  rfl

theorem startsWord_of_identifier {c : Char} (h : isIdentifierStart c = true) :
    startsWord c = true := by
  obtain ⟨r, hr, hlow, hhigh⟩ := inRanges_iff.1 h
  simp only [startsWord, isAlpha_iff, Bool.or_eq_true, decide_eq_true_eq]
  rcases ascii_ranges.1 r hr with hr | rfl | rfl
  · exact .inr (Nat.le_trans hr hlow)
  · exact .inl (.inr (.inl ⟨hlow, hhigh⟩))
  · exact .inl (.inr (.inr ⟨hlow, hhigh⟩))

theorem continuesWord_of_identifier {c : Char} (h : isIdentifierContinue c = true) :
    continuesWord c = true := by
  rcases (Bool.or_eq_true _ _).mp h with h | h
  · have hstart := startsWord_of_identifier h
    simp only [startsWord, continuesWord, Char.isAlphanum, Bool.or_eq_true] at hstart ⊢
    tauto
  · obtain ⟨r, hr, hlow, hhigh⟩ := inRanges_iff.1 h
    simp only [continuesWord, Bool.or_eq_true, decide_eq_true_eq, beq_iff_eq]
    rcases ascii_ranges.2 r hr with hr | rfl | rfl
    · exact .inr (Nat.le_trans hr hlow)
    · refine .inl (.inr ?_)
      simp only [Char.isAlphanum, Char.isDigit, Bool.or_eq_true, Bool.and_eq_true,
        decide_eq_true_eq, UInt32.le_iff_toNat_le, ge_iff_le]
      exact .inr ⟨hlow, hhigh⟩
    · refine .inl (.inl (Char.toNat_inj.1 ?_))
      exact Nat.le_antisymm hhigh hlow

theorem run_word (h : ∀ c ∈ ds, continuesWord c = true) :
    run (.word cs) ds = ([], .word (cs ++ ds)) := by
  induction ds generalizing cs with
  | nil => simp [run]
  | cons d ds ih =>
    obtain ⟨hd, hds⟩ := List.forall_mem_cons.1 h
    simp [run, Mode.step, hd, ih hds]

theorem scans_identifier (h : IsIdentifier x) : Scans .between x [] (.word x.toList) := by
  obtain ⟨⟨c, hc, hstart⟩, hall⟩ := h
  cases hx : x.toList with
  | nil => simp [hx] at hc
  | cons d ds =>
    rw [hx] at hc hall
    cases hc
    have henter : Mode.enter c = .word [c] := by
      refine if_pos ?_
      rcases hstart with rfl | hstart
      · decide
      · exact startsWord_of_identifier hstart
    rw [Scans, hx, run, Mode.step, henter,
      run_word fun c hc => continuesWord_of_identifier (hall c (List.mem_cons_of_mem _ hc))]
    rfl

/-- A name in front of what ends it is read. -/
theorem Scans.name (hx : IsIdentifier x) (hd : Delimited t) (ht : Scans .between t ws m) :
    Scans .between (x ++ t) (x :: ws) m := by
  have h := (scans_identifier hx).append (hd.word x.toList ht)
  rwa [String.ofList_toList, List.nil_append] at h

end Identifier

section Number

/-- In these modes a digit starts or continues a number. -/
def Mode.Counts (m : Mode) : Prop :=
  m = .between ∨ m = .attribute

theorem step_digit {d : Char} (hm : m.Counts) (h : d.isDigit = true) :
    m.step d = ([], .attribute) := by
  have hword : continuesWord d = true := by simp [continuesWord, Char.isAlphanum, h]
  have hstart : startsWord d = false := by
    refine Bool.eq_false_iff.2 fun hs => ?_
    have hhigh : d.toNat ≤ 57 := by
      simp only [Char.isDigit, Bool.and_eq_true, decide_eq_true_eq, UInt32.le_iff_toNat_le] at h
      exact h.2
    simp only [startsWord, isAlpha_iff, Bool.or_eq_true, decide_eq_true_eq, beq_iff_eq] at hs
    rcases hs with (rfl | ⟨hlow, -⟩ | ⟨hlow, -⟩) | hlow
    · exact absurd h (by decide)
    · exact absurd (Nat.le_trans hlow hhigh) (by decide)
    · exact absurd (Nat.le_trans hlow hhigh) (by decide)
    · omega
  rcases hm with rfl | rfl
  · simp [Mode.step, Mode.enter, hstart, h]
  · simp [Mode.step, hword]

theorem run_digits (hm : m.Counts) (hne : ds ≠ []) (h : ∀ d ∈ ds, d.isDigit = true) :
    run m ds = ([], .attribute) := by
  induction ds generalizing m with
  | nil => exact absurd rfl hne
  | cons d ds ih =>
    obtain ⟨hd, hds⟩ := List.forall_mem_cons.1 h
    rw [run, step_digit hm hd]
    cases ds with
    | nil => rfl
    | cons e ds => rw [ih (.inr rfl) (List.cons_ne_nil e ds) hds]; rfl

theorem scans_nat (n : Nat) : Scans .between (toString n) [] .attribute := by
  have hlist : (toString n).toList = natDigits n := by simp [toString, Nat.repr, natDigits]
  rw [Scans, hlist]
  exact run_digits (.inl rfl) (Decimal.natDigits_ne_nil n) (Decimal.isDigit_natDigits n)

theorem run_numeral {n : Decimal.Numeral} (h : n.Regular) (plus : Bool) :
    run .between (n.text plus) = ([], .attribute) := by
  have hsign : run .between (Decimal.Numeral.signText n.negative) = ([], .between) := by
    cases n.negative <;> rfl
  have hwhole := run_digits (.inl rfl) h.whole h.wholeDigits
  have hfraction : run .attribute (if n.fraction.isEmpty then [] else '.' :: n.fraction) =
      ([], .attribute) := by
    cases hf : n.fraction with
    | nil => rfl
    | cons d ds =>
      have hd := h.fractionDigits
      rw [hf] at hd
      have hrun := run_digits (.inr rfl) (List.cons_ne_nil d ds) hd
      exact hrun
  have hpower (e : Int) {m : Mode} (hm : m.Counts) : run m (natDigits e.natAbs) =
      ([], .attribute) :=
    run_digits hm (Decimal.natDigits_ne_nil _) (Decimal.isDigit_natDigits _)
  rw [Decimal.Numeral.text, run_append, run_append, run_append, hsign, hwhole, hfraction]
  dsimp only [List.nil_append]
  cases n.exponent with
  | none => rfl
  | some e =>
    dsimp only
    split
    · exact hpower e (.inl rfl)
    · cases plus
      · exact hpower e (.inr rfl)
      · exact hpower e (.inl rfl)

theorem opens_numeral {n : Decimal.Numeral} (h : n.Regular) (plus : Bool) :
    Opens (String.ofList (n.text plus)) := by
  obtain ⟨c, cs, hw⟩ := List.exists_cons_of_ne_nil h.whole
  have hc : c ≠ '=' := by
    rintro rfl
    exact absurd (h.wholeDigits '=' (hw ▸ List.mem_cons_self)) (by decide)
  rw [Opens, String.toList_ofList, Decimal.Numeral.text, hw]
  cases n.negative <;> simp [Decimal.Numeral.signText, hc]

/-- A literal of a number reads nothing but the name of the array library. -/
theorem scans_float (y : Float) : Opens (floatLiteral y) ∧
    ∃ ws, (∀ w ∈ ws, w = "np") ∧ Scans .between (floatLiteral y) ws .attribute := by
  unfold floatLiteral Decimal.programText
  split
  · rename_i n hn
    have hn := Decimal.Style.regular_numeral? hn
    refine ⟨opens_numeral hn _, [], nofun, ?_⟩
    rw [Scans, String.toList_ofList]
    exact run_numeral hn _
  · have hnp : ∀ w ∈ ["np"], w = "np" := fun _ => List.mem_singleton.1
    split
    · exact ⟨by decide, ["np"], hnp, by decide⟩
    · split
      · exact ⟨by decide, ["np"], hnp, by decide⟩
      · exact ⟨by decide, ["np"], hnp, by decide⟩

end Number

section Joined

/-- A text whose end is between words, or in a number. -/
def Fits (s : String) (ws : List String) : Prop :=
  ∃ m : Mode, m.Counts ∧ Scans .between s ws m

theorem Fits.followed (h : Fits s ws) (hd : Delimited t) (ht : Scans .between t vs m) :
    Scans .between (s ++ t) (ws ++ vs) m := by
  obtain ⟨m₁, rfl | rfl, hs⟩ := h
  · exact hs.append ht
  · exact hs.append (hd.attribute ht)

theorem Fits.words (h : Fits s ws) : words s = ws := by
  obtain ⟨m, rfl | rfl, hs⟩ := h
  · simp [hs.words, Mode.close]
  · simp [hs.words, Mode.close]

/-- Texts with commas between them read what each one reads. -/
theorem fits_joined {parts : List String} (h : ∀ s ∈ parts, ∃ ws, Fits s ws) :
    Fits (joinWith ", " parts) (parts.flatMap Scan.words) := by
  induction parts with
  | nil => exact ⟨.between, .inl rfl, rfl⟩
  | cons s parts ih =>
    obtain ⟨⟨ws, hs⟩, hparts⟩ := List.forall_mem_cons.1 h
    cases parts with
    | nil =>
      rw [joinWith, String.intercalate_singleton, List.flatMap_singleton, hs.words]
      exact hs
    | cons t parts =>
      obtain ⟨m, hm, hrest⟩ := ih hparts
      rw [joinWith, String.intercalate_cons_cons, List.flatMap_cons, hs.words]
      have hcomma : Scans .between ", " [] .between := by decide
      have hfirst := hs.followed (by decide) hcomma
      rw [List.append_nil] at hfirst
      exact ⟨m, hm, hfirst.append hrest⟩

/-- Extents are a tuple of numbers. -/
theorem scans_shape (ns : List Nat) : Scans .between (shapeLiteral ns) [] .between := by
  have hopen : Scans .between "(" [] .between := by decide
  have hclose : Scans .between ")" [] .between := by decide
  have hnat (n : Nat) : Fits (toString n) [] := ⟨.attribute, .inr rfl, scans_nat n⟩
  unfold shapeLiteral
  split
  · rename_i n
    have hlast : Scans .between ",)" [] .between := by decide
    rw [String.append_assoc]
    exact hopen.append ((hnat n).followed (by decide) hlast)
  · have hparts : ∀ s ∈ ns.map toString, Fits s [] := by
      intro s hs
      obtain ⟨n, -, rfl⟩ := List.mem_map.1 hs
      exact hnat n
    have hall := fits_joined fun s hs => ⟨[], hparts s hs⟩
    rw [List.flatMap_eq_nil_iff.2 fun s hs => (hparts s hs).words] at hall
    rw [String.append_assoc]
    exact hopen.append (hall.followed (by decide) hclose)

/-- A literal of a text reads nothing. -/
theorem scans_quoted (s : String) : Scans .between (stringLiteral s) [] .between := by
  have hinner : ∀ cs : List Char, run .quoted (cs.flatMap escape ++ ['\'']) = ([], .between) := by
    intro cs
    induction cs with
    | nil => rfl
    | cons c cs ih =>
      have hc : run .quoted (escape c) = ([], .quoted) := by
        unfold escape
        split
        · rfl
        · split
          · rfl
          · rename_i hback hquote
            split
            · rfl
            · simp [run, Mode.step, hback, hquote]
      rw [List.flatMap_cons, List.append_assoc, run_append, hc, ih]
      rfl
  rw [Scans, stringLiteral, String.toList_ofList, List.cons_append]
  exact hinner s.toList

end Joined

end Scan

end Program

end Kinetics
