import Kinetics.Json.Record
import Kinetics.Proofs.Dict
import Kinetics.Proofs.Json.Text

/-!
# Kinetics.Proofs.Json.Record

Reading back what is written to JSON. Texts, words, lists, sets, maps and records are read as they
were written, exactly if what they hold is; a number is, unless it has no written form or its digits
are read as a neighbour.
-/

namespace Kinetics

namespace Json

open Decimal

variable {α : Type}

section Regular

@[simp] theorem regular_ofString (s : String) : (ofString s).Regular :=
  .string (takeLiteral_written s)

@[simp] theorem regular_ofFloat (x : Float) : (ofFloat x).Regular := by
  unfold ofFloat
  split
  · exact .number (Style.regular_numeral? ‹_›)
  · exact .null

@[simp] theorem regular_ofNat (n : Nat) : (ofNat n).Regular :=
  .number (Numeral.regular_ofNat n)

@[simp] theorem regular_ofOption {f : α → Json} (h : ∀ a, (f a).Regular) (o : Option α) :
    (ofOption f o).Regular := by
  cases o with
  | none => exact .null
  | some a => exact h a

@[simp] theorem regular_ofList {f : α → Json} (h : ∀ a, (f a).Regular) (as : List α) :
    (ofList f as).Regular := by
  refine .array fun j hj => ?_
  obtain ⟨a, -, rfl⟩ := List.mem_map.1 hj
  exact h a

/-- The values of all members are regular. -/
def RegularMembers (members : List (String × Json)) : Prop :=
  ∀ m ∈ members, m.2.Regular

@[simp] theorem regularMembers_nil : RegularMembers [] :=
  List.forall_mem_nil _

@[simp] theorem regularMembers_cons {m : String × Json} {members : List (String × Json)} :
    RegularMembers (m :: members) ↔ m.2.Regular ∧ RegularMembers members :=
  List.forall_mem_cons

@[simp] theorem regularMembers_append {members members' : List (String × Json)} :
    RegularMembers (members ++ members') ↔ RegularMembers members ∧ RegularMembers members' :=
  List.forall_mem_append

/-- A field that may be left out is regular if what it holds is. -/
@[simp] theorem regularMembers_present {f : α → Json} (h : ∀ a, (f a).Regular) (name : String)
    (o : Option α) : RegularMembers (present name f o) := by
  cases o with
  | none => exact regularMembers_nil
  | some a => exact List.forall_mem_singleton.2 (h a)

theorem regular_record {members : List (String × Json)} (h : RegularMembers members) :
    (record members).Regular := by
  refine .object (fun m hm => ?_) fun m hm => ?_
  · obtain ⟨a, -, rfl⟩ := List.mem_map.1 hm
    exact takeLiteral_written a.1
  · obtain ⟨a, ha, rfl⟩ := List.mem_map.1 hm
    exact h a ha

@[simp] theorem regular_ofDict {f : α → Json} (h : ∀ a, (f a).Regular) (d : Dict String α) :
    (ofDict f d).Regular := by
  refine regular_record fun m hm => ?_
  obtain ⟨e, -, rfl⟩ := List.mem_map.1 hm
  exact h e.2

end Regular

section Values

@[simp] theorem required_some (f : Json → Option α) (j : Json) : required f (some j) = f j := rfl

@[simp] theorem defaulted_some (a : α) (f : Json → Option α) (j : Json) :
    defaulted a f (some j) = f j := rfl

/-- A number that is finite and read from its digits as itself. -/
def Survives (x : Float) : Prop :=
  asFloat (ofFloat x) = some x

instance (x : Float) : Decidable (Survives x) :=
  inferInstanceAs (Decidable (_ = _))

@[simp] theorem asText_ofString (s : String) : asText (ofString s) = some s :=
  text?_ofString s

/-- A word stands for what it is listed with. -/
@[simp] theorem asEnumerated_ofString (words : List (String × α)) (s : String) :
    asEnumerated words (ofString s) = words.lookup s := by
  rw [ofString, asEnumerated, text?_ofString, Option.bind_some]

theorem asWord_ofNat (n : UInt64) : asWord (ofNat n.toNat) = some n := by
  have hvalue : Text.digitsValue (Numeral.ofNat n.toNat).whole = n.toNat :=
    Decimal.digitsValue_natDigits n.toNat
  have hlt : n.toNat < Nat.pow 2 64 := n.toNat_lt
  rw [ofNat, asWord, Numeral.toWord?, hvalue]
  simp only [hlt, Numeral.isWhole, Numeral.ofNat, List.isEmpty_nil, Option.isNone_none, decide_true,
    Bool.not_false, Bool.and_self, if_true, UInt64.ofNat_toNat]

@[simp] theorem nullable_ofOption (o : Option String) :
    nullable asText (ofOption ofString o) = some o := by
  cases o with
  | none => rfl
  | some s => exact congrArg (Option.map some) (asText_ofString s)

/-- An optional text that is written only if it is there. -/
@[simp] theorem optional_text (o : Option String) :
    defaulted none (nullable asText) (o.map ofString) = some o := by
  cases o with
  | none => rfl
  | some s => exact congrArg (Option.map some) (asText_ofString s)

theorem nullable_ofFloat {x : Float} : nullable asFloat (ofFloat x) = some (some x) ↔ Survives x := by
  unfold Survives ofFloat
  split
  · rename_i n _
    show (asFloat (.number n)).map some = _ ↔ _
    rw [Option.map_eq_some_iff]
    simp only [Option.some.injEq, exists_eq_right]
  · simp [nullable, asFloat]

/-- An optional number that is written only if it is there. -/
theorem optional_float {o : Option Float} :
    defaulted none (nullable asFloat) (o.map ofFloat) = some o ↔ ∀ x ∈ o.toList, Survives x := by
  cases o with
  | none => simp [defaulted]
  | some x =>
    rw [Option.toList_some, List.forall_mem_singleton]
    exact nullable_ofFloat

end Values

section Collections

variable {f : Json → Option α} {g : α → Json}

theorem sequence_eq_some_iff {β γ : Type} {r : β → Option γ} {bs : List β} {cs : List γ} :
    sequence r bs = some cs ↔ List.Forall₂ (fun b c => r b = some c) bs cs := by
  induction bs generalizing cs with
  | nil => cases cs <;> simp [sequence]
  | cons b bs ih =>
    cases cs with
    | nil =>
      simp only [sequence, List.forall₂_cons_left_iff]
      constructor
      · intro h
        split at h
        · cases h
        · split at h <;> cases h
      · rintro ⟨_, _, _, _, h⟩
        cases h
    | cons c cs =>
      rw [List.forall₂_cons, ← ih, sequence]
      cases r b with
      | none => simp
      | some d => cases sequence r bs <;> simp

/-- A list is read back if and only if its members are. -/
theorem sequence_map_iff {β : Type} {r : β → Option α} {w : α → β} {as : List α} :
    sequence r (as.map w) = some as ↔ ∀ a ∈ as, r (w a) = some a := by
  rw [sequence_eq_some_iff, List.forall₂_map_left_iff, List.forall₂_same]

theorem asList_ofList {as : List α} :
    asList f (ofList g as) = some as ↔ ∀ a ∈ as, f (g a) = some a :=
  sequence_map_iff

@[simp] theorem asList_texts (as : List String) : asList asText (ofList ofString as) = some as :=
  asList_ofList.2 fun s _ => asText_ofString s

/-- A set is read back if its members are. -/
theorem asSet_ofSet {κ : Type} [Ord κ] [Std.TransOrd κ] {f : Json → Option κ} {g : κ → Json}
    (h : ∀ k, f (g k) = some k) (s : OrderedSet κ) : asSet f (ofSet g s) = some s := by
  rw [asSet, ofSet, asList_ofList.2 fun k _ => h k, Option.map_some, OrderedSet.ofList_toList]

@[simp] theorem asSet_texts (s : NameSet) : asSet asText (ofSet ofString s) = some s :=
  asSet_ofSet asText_ofString s

/-- A map is read back if and only if its values are. -/
theorem asDict_ofDict {d : Dict String α} :
    asDict f (ofDict g d) = some d ↔ ∀ a ∈ d.values, f (g a) = some a := by
  have hmember (e : String × α) :
      asMember f (Literal.ofString e.1, g e.2) = some e ↔ f (g e.2) = some e.2 := by
    rw [asMember, text?_ofString]
    cases f (g e.2) with
    | none => simp
    | some a => simp [Prod.ext_iff]
  have hmembers : asDict f (ofDict g d) =
      (sequence (asMember f) (d.entries.map fun e => (Literal.ofString e.1, g e.2))).map Dict.ofList := by
    rw [ofDict, record, asDict, List.map_map]
    rfl
  have hall : sequence (asMember f) (d.entries.map fun e => (Literal.ofString e.1, g e.2)) =
      some d.entries ↔ ∀ a ∈ d.values, f (g a) = some a := by
    rw [sequence_map_iff, Dict.values, List.forall_mem_map]
    exact forall₂_congr fun e _ => hmember e
  rw [hmembers, ← hall, Option.map_eq_some_iff]
  constructor
  · rintro ⟨es, hes, hd⟩
    have hpairs := List.forall₂_map_left_iff.1 (sequence_eq_some_iff.1 hes)
    have hkeys : d.entries.map Prod.fst = es.map Prod.fst := by
      rw [← List.forall₂_eq_eq_eq, List.forall₂_map_left_iff, List.forall₂_map_right_iff]
      refine hpairs.imp fun e e' he => ?_
      rw [asMember, text?_ofString] at he
      split at he
      · rename_i hk _
        cases he
        exact Option.some.inj hk
      · cases he
    have hascending : Ascending es := by
      have h : (d.entries.map Prod.fst).Pairwise fun a b => compare a b = .lt :=
        List.pairwise_map.2 d.ascending
      rw [hkeys] at h
      exact List.pairwise_map.1 h
    rw [← Dict.entries_ofList hascending, hd] at hes
    exact hes
  · intro h
    exact ⟨d.entries, h, Dict.ofList_entries d⟩

end Collections

section Records

/-- The members of a record, of which some are left out. -/
def written (fields : List (String × Option Json)) : List (String × Json) :=
  fields.filterMap fun e => e.2.map fun j => (e.1, j)

@[simp] theorem written_nil : written [] = [] := rfl

@[simp] theorem written_some (name : String) (j : Json) (fields : List (String × Option Json)) :
    written ((name, some j) :: fields) = (name, j) :: written fields := rfl

@[simp] theorem written_map (name : String) (g : α → Json) (o : Option α)
    (fields : List (String × Option Json)) :
    written ((name, o.map g) :: fields) = present name g o ++ written fields := by
  cases o <;> rfl

variable {fields : List (String × Option Json)}

theorem written_filter (name : String) (p : String × Option Json) :
    (written (p :: fields)).filter (fun m => m.1 == name) =
      (if p.1 = name then (p.2.map fun j => (p.1, j)).toList else []) ++
        (written fields).filter (fun m => m.1 == name) := by
  obtain ⟨key, value⟩ := p
  cases value with
  | none => simp [written]
  | some j =>
    rw [written_some, List.filter_cons]
    by_cases hk : key = name
    · simp [hk]
    · simp [hk]

/-- No member has the name of no field. -/
theorem written_filter_eq_nil {name : String} (h : name ∉ fields.map Prod.fst) :
    (written fields).filter (fun m => m.1 == name) = [] := by
  induction fields with
  | nil => rfl
  | cons p fields ih =>
    rw [List.map_cons, List.mem_cons, not_or] at h
    rw [written_filter, if_neg (Ne.symm h.1), ih h.2, List.nil_append]

/-- A field of a record with distinct names is found with what was written, if anything. -/
theorem field?_written (hnames : (fields.map Prod.fst).Nodup) {e : String × Option Json}
    (he : e ∈ fields) : field? (written fields) e.1 = some e.2 := by
  have hfilter : (written fields).filter (fun m => m.1 == e.1) =
      (e.2.map fun j => (e.1, j)).toList := by
    induction fields with
    | nil => cases he
    | cons p fields ih =>
      obtain ⟨hp, hfields⟩ := List.nodup_cons.1 hnames
      rw [written_filter]
      rcases List.mem_cons.1 he with rfl | he
      · rw [if_pos rfl, written_filter_eq_nil hp, List.append_nil]
      · have hne : p.1 ≠ e.1 := fun h => hp (h ▸ List.mem_map_of_mem he)
        rw [if_neg hne, List.nil_append, ih hfields he]
  rw [field?, hfilter]
  cases e.2 <;> rfl

/-- The fields of a record are found again, those left out as absent. -/
theorem fields?_record (fields : List (String × Option Json)) {names : List String}
    {members : List (String × Json)} (hm : members = written fields)
    (hnames : fields.map Prod.fst = names) (hd : names.Nodup) :
    fields? names (record members) = some (fields.map Prod.snd) := by
  subst hm hnames
  have hmembers : sequence (asMember some)
      ((written fields).map fun m => (Literal.ofString m.1, m.2)) = some (written fields) := by
    refine sequence_map_iff.2 fun m _ => ?_
    rw [asMember, text?_ofString]
  have hfields : sequence (field? (written fields)) (fields.map Prod.fst) =
      some (fields.map Prod.snd) := by
    rw [sequence_eq_some_iff, List.forall₂_map_left_iff, List.forall₂_map_right_iff,
      List.forall₂_same]
    exact fun e he => field?_written hd he
  rw [record, fields?, hmembers]
  exact hfields

end Records

section Texts

/-- A value is read back from its text, compact or pretty. -/
def ReadsBack (write : α → Json) (read : Json → Option α) (a : α) : Prop :=
  (parse? (write a).text).bind read = some a ∧ (parse? (write a).pretty).bind read = some a

/-- Reading back a text is reading back the value that it is the text of. -/
theorem readsBack_iff {write : α → Json} {read : Json → Option α} {a : α}
    (h : (write a).Regular) : ReadsBack write read a ↔ read (write a) = some a := by
  rw [ReadsBack, parse?_text h, parse?_pretty h, Option.bind_some, and_self]

end Texts

end Json

end Kinetics
