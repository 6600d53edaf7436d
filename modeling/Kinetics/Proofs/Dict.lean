import Kinetics.Dict
import Mathlib.Data.List.Sort

/-!
# Kinetics.Proofs.Dict

Membership in maps and sets: the entries, the keys and the lookups of a map say the same.
-/

namespace Kinetics

namespace Dict

variable {κ α : Type} [Ord κ] [Std.LawfulEqOrd κ]

theorem findEntry_eq_some_iff {k : κ} {a : α} {es : List (κ × α)} (h : Ascending es) :
    findEntry k es = some a ↔ (k, a) ∈ es := by
  induction es with
  | nil => simp [findEntry]
  | cons e es ih =>
    obtain ⟨hlt, hes⟩ := List.pairwise_cons.1 h
    simp only [findEntry, List.mem_cons]
    by_cases hk : k = e.1
    · subst hk
      have hc : compare e.1 e.1 = .eq := Std.ReflCmp.compare_self
      rw [if_pos hc, Option.some.injEq]
      constructor
      · rintro rfl
        exact .inl rfl
      · rintro (he | he)
        · exact (congrArg Prod.snd he).symm
        · have := hlt _ he
          rw [hc] at this
          cases this
    · rw [if_neg (fun hc => hk (Std.LawfulEqOrd.eq_of_compare hc)), ih hes]
      constructor
      · exact .inr
      · rintro (he | he)
        · exact absurd (congrArg Prod.fst he) hk
        · exact he

theorem find?_eq_some_iff {d : Dict κ α} {k : κ} {a : α} :
    d.find? k = some a ↔ (k, a) ∈ d.entries :=
  findEntry_eq_some_iff d.ascending

theorem contains_iff {d : Dict κ α} {k : κ} : d.contains k = true ↔ k ∈ d.keys := by
  rw [contains, Option.isSome_iff_exists, keys, List.mem_map]
  constructor
  · rintro ⟨a, ha⟩
    exact ⟨(k, a), find?_eq_some_iff.1 ha, rfl⟩
  · rintro ⟨⟨_, a⟩, ha, rfl⟩
    exact ⟨a, find?_eq_some_iff.2 ha⟩

theorem nodup_keys {d : Dict κ α} : d.keys.Nodup := by
  refine List.pairwise_map.2 (d.ascending.imp fun {a b} hlt he => ?_)
  have hc : compare b.1 b.1 = .eq := Std.ReflCmp.compare_self
  rw [he, hc] at hlt
  cases hlt

section Latest

variable {κ α : Type} [DecidableEq κ]

/-- The value that a list of pairs has for a key: of several the last one. -/
def latest (es : List (κ × α)) (k : κ) : Option α :=
  (es.filter fun e => e.1 = k).getLast?.map Prod.snd

theorem latest_cons {e : κ × α} {es : List (κ × α)} {k : κ} :
    latest (e :: es) k = (latest es k).or (if e.1 = k then some e.2 else none) := by
  by_cases h : e.1 = k
  · rw [if_pos h]
    simp only [latest, h, decide_true, List.filter_cons_of_pos, List.getLast?_cons]
    cases (es.filter fun e => e.1 = k).getLast? <;> rfl
  · simp [latest, h]

theorem mem_of_latest {es : List (κ × α)} {k : κ} {a : α} (h : latest es k = some a) :
    (k, a) ∈ es := by
  obtain ⟨e, he, rfl⟩ := Option.map_eq_some_iff.1 h
  obtain ⟨hm, hk⟩ := List.mem_filter.1 (List.mem_of_getLast? he)
  cases of_decide_eq_true hk
  exact hm

end Latest

section Insert

variable [Std.TransOrd κ]

theorem mem_keys_insert {d : Dict κ α} {j k : κ} {a : α} :
    j ∈ (d.insert k a).keys ↔ j = k ∨ j ∈ d.keys := by
  rw [← contains_iff, ← contains_iff, contains_insert, Bool.or_eq_true, beq_iff_eq]
  exact or_congr_left Std.LawfulEqCmp.compare_eq_iff_eq

theorem find?_insert_of_ne {d : Dict κ α} {j k : κ} {a : α} (h : j ≠ k) :
    (d.insert k a).find? j = d.find? j := by
  rw [find?_insert, if_neg (fun hc => h (Std.LawfulEqOrd.eq_of_compare hc))]

/-- What is inserted under a new key hides nothing. -/
theorem find?_insert_new {d : Dict κ α} {j k : κ} {a b : α} (hk : d.find? k = none)
    (hj : d.find? j = some b) : (d.insert k a).find? j = some b := by
  have hne : j ≠ k := by
    rintro rfl
    rw [hk] at hj
    cases hj
  rw [find?_insert_of_ne hne, hj]

/-- Only what is inserted is new. -/
theorem eq_of_find?_insert {d : Dict κ α} {j k : κ} {a b : α} (hj : (d.insert k a).find? j = some b)
    (hnone : d.find? j = none) : j = k ∧ b = a := by
  by_cases h : j = k
  · subst h
    rw [find?_insert_self] at hj
    exact ⟨rfl, (Option.some.inj hj).symm⟩
  · rw [find?_insert_of_ne h, hnone] at hj
    cases hj

theorem mem_keys_insertAll {β : Type} (f : β → κ) (g : β → α) {d : Dict κ α} {k : κ} (bs : List β) :
    k ∈ (bs.foldl (fun d b => d.insert (f b) (g b)) d).keys ↔ k ∈ d.keys ∨ k ∈ bs.map f := by
  induction bs generalizing d with
  | nil => simp
  | cons b bs ih =>
    rw [List.foldl_cons, ih, mem_keys_insert, List.map_cons, List.mem_cons]
    constructor
    · rintro ((rfl | h) | h)
      · exact .inr (.inl rfl)
      · exact .inl h
      · exact .inr (.inr h)
    · rintro (h | rfl | h)
      · exact .inl (.inr h)
      · exact .inl (.inl rfl)
      · exact .inr h

/-- Of several values that are inserted under one key the last one stays. -/
theorem find?_insertAll [DecidableEq κ] {d : Dict κ α} {k : κ} (es : List (κ × α)) :
    (es.foldl (fun d e => d.insert e.1 e.2) d).find? k = (latest es k).or (d.find? k) := by
  induction es generalizing d with
  | nil => rfl
  | cons e es ih =>
    rw [List.foldl_cons, ih, latest_cons]
    by_cases h : e.1 = k
    · subst h
      rw [find?_insert_self, if_pos rfl]
      cases latest es e.1 <;> rfl
    · rw [find?_insert_of_ne (Ne.symm h), if_neg h, Option.or_none]

theorem mem_keys_ofList {es : List (κ × α)} {k : κ} : k ∈ (ofList es).keys ↔ k ∈ es.map Prod.fst := by
  rw [ofList, mem_keys_insertAll Prod.fst Prod.snd es]
  simp [keys, empty]

end Insert

theorem find?_mapValues {β : Type} (f : κ → α → β) (d : Dict κ α) (k : κ) :
    (d.mapValues f).find? k = (d.find? k).map (f k) := by
  obtain ⟨es, hes⟩ := d
  simp only [find?, mapValues]
  clear hes
  induction es with
  | nil => rfl
  | cons e es ih =>
    simp only [List.map_cons, findEntry]
    split
    · rename_i hc
      rw [Std.LawfulEqOrd.eq_of_compare hc, Option.map_some]
    · exact ih

/-- What two maps select among their entries is the same list if it has the same members. -/
theorem filter_entries_eq [Std.OrientedOrd κ] {c d : Dict κ α} {p q : κ × α → Bool}
    (h : ∀ e, (e ∈ c.entries ∧ p e = true) ↔ (e ∈ d.entries ∧ q e = true)) :
    c.entries.filter p = d.entries.filter q := by
  have hirrefl : Std.Irrefl fun a b : κ × α => compare a.1 b.1 = .lt := by
    refine ⟨fun a ha => ?_⟩
    cases ha.symm.trans Std.ReflOrd.compare_self
  have hantisymm : Std.Antisymm fun a b : κ × α => compare a.1 b.1 = .lt := by
    refine ⟨fun a b hab hba => ?_⟩
    cases hba.symm.trans (Std.OrientedCmp.gt_of_lt hab)
  refine (c.ascending.filter p).eq_of_mem_iff (d.ascending.filter q) fun e => ?_
  rw [List.mem_filter, List.mem_filter, h]

section OfList

variable {κ α : Type} [Ord κ] [Std.TransOrd κ]

/-- A key above all others goes to the end. -/
theorem insertEntry_last {k : κ} {a : α} {es : List (κ × α)}
    (h : ∀ e ∈ es, compare e.1 k = .lt) : insertEntry k a es = es ++ [(k, a)] := by
  induction es with
  | nil => rfl
  | cons e es ih =>
    obtain ⟨he, hes⟩ := List.forall_mem_cons.1 h
    have hgt : compare k e.1 = .gt := Std.OrientedCmp.gt_of_lt he
    rw [insertEntry, hgt]
    simp only [ih hes, List.cons_append]

theorem entries_insertAll {es : List (κ × α)} {d : Dict κ α} (h : Ascending (d.entries ++ es)) :
    (es.foldl (fun d e => d.insert e.1 e.2) d).entries = d.entries ++ es := by
  induction es generalizing d with
  | nil => exact (List.append_nil _).symm
  | cons e es ih =>
    have hlast : (d.insert e.1 e.2).entries = d.entries ++ [e] :=
      insertEntry_last fun c hc => (List.pairwise_append.1 h).2.2 c hc e List.mem_cons_self
    have hall : (d.insert e.1 e.2).entries ++ es = d.entries ++ e :: es := by
      rw [hlast, List.append_assoc, List.singleton_append]
    rw [List.foldl_cons, ih (by rwa [hall]), hall]

/-- Entries in key order are the entries of their map. -/
theorem entries_ofList {es : List (κ × α)} (h : Ascending es) : (ofList es).entries = es :=
  entries_insertAll h

theorem ofList_entries (d : Dict κ α) : ofList d.entries = d :=
  ext_entries (entries_ofList d.ascending)

end OfList

end Dict

namespace OrderedSet

variable {κ : Type} [Ord κ] [Std.TransOrd κ] [Std.LawfulEqOrd κ]

theorem mem_toList_ofList {ks : List κ} {k : κ} : k ∈ (ofList ks).toList ↔ k ∈ ks := by
  rw [toList, ← Dict.contains_iff, ofList, contains_addAll]
  simp [Dict.contains, Dict.find?_empty]

theorem mem_toList_add {s : OrderedSet κ} {j k : κ} :
    j ∈ (s.add k).toList ↔ j = k ∨ j ∈ s.toList :=
  Dict.mem_keys_insert

theorem mem_toList_addAll {s : OrderedSet κ} {ks : List κ} {k : κ} :
    k ∈ (s.addAll ks).toList ↔ k ∈ s.toList ∨ k ∈ ks := by
  rw [toList, toList, ← Dict.contains_iff, ← Dict.contains_iff, contains_addAll]
  simp [or_comm]

theorem ofList_toList {κ : Type} [Ord κ] [Std.TransOrd κ] (s : OrderedSet κ) :
    ofList s.toList = s := by
  have h : ofList s.toList = Dict.ofList s.entries := by
    rw [ofList, addAll, toList, Dict.keys, Dict.ofList, List.foldl_map]
    rfl
  rw [h, Dict.ofList_entries]

end OrderedSet

end Kinetics
