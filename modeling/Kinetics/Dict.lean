/-!
# Kinetics.Dict

Finite maps and sets in key order. A map is its list of entries with strictly ascending keys, so
two maps with the same entries are equal and listing a map needs no sorting. Everything an
operation does is said through `find?` and `keys`.
-/

namespace Kinetics

/-- A list of entries has strictly ascending keys. -/
def Ascending {κ α : Type} [Ord κ] (es : List (κ × α)) : Prop :=
  es.Pairwise fun a b => compare a.1 b.1 = .lt

/-- Puts an entry at its place, over the entry with the same key if there is one. -/
def insertEntry {κ α : Type} [Ord κ] (k : κ) (a : α) : List (κ × α) → List (κ × α)
  | [] => [(k, a)]
  | e :: es =>
    match compare k e.1 with
    | .lt => (k, a) :: e :: es
    | .eq => (k, a) :: es
    | .gt => e :: insertEntry k a es

def findEntry {κ α : Type} [Ord κ] (k : κ) : List (κ × α) → Option α
  | [] => none
  | e :: es => if compare k e.1 = .eq then some e.2 else findEntry k es

theorem mem_insertEntry {κ α : Type} [Ord κ] {k : κ} {a : α} {e : κ × α} {es : List (κ × α)}
    (h : e ∈ insertEntry k a es) : e = (k, a) ∨ e ∈ es := by
  induction es with
  | nil => simpa [insertEntry] using h
  | cons d ds ih =>
    simp only [insertEntry] at h
    split at h
    · simpa using h
    · rcases List.mem_cons.1 h with h | h
      · exact .inl h
      · exact .inr (List.mem_cons_of_mem _ h)
    · rcases List.mem_cons.1 h with h | h
      · exact .inr (h ▸ List.mem_cons_self)
      · exact (ih h).imp id (List.mem_cons_of_mem _)

theorem ascending_insertEntry {κ α : Type} [Ord κ] [Std.TransOrd κ] (k : κ) (a : α)
    {es : List (κ × α)} (h : Ascending es) : Ascending (insertEntry k a es) := by
  induction es with
  | nil => simp [Ascending, insertEntry]
  | cons d ds ih =>
    have hd := List.pairwise_cons.1 h
    simp only [insertEntry]
    split
    · rename_i hc
      refine List.pairwise_cons.2 ⟨fun e he => ?_, h⟩
      rcases List.mem_cons.1 he with rfl | he
      · exact hc
      · exact Std.TransCmp.lt_trans hc (hd.1 e he)
    · rename_i hc
      exact List.pairwise_cons.2
        ⟨fun e he => Std.TransCmp.lt_of_eq_of_lt hc (hd.1 e he), hd.2⟩
    · rename_i hc
      refine List.pairwise_cons.2 ⟨fun e he => ?_, ih hd.2⟩
      rcases mem_insertEntry he with rfl | he
      · exact Std.OrientedCmp.lt_of_gt hc
      · exact hd.1 e he

theorem findEntry_insertEntry {κ α : Type} [Ord κ] [Std.TransOrd κ] (j k : κ) (a : α)
    (es : List (κ × α)) :
    findEntry j (insertEntry k a es) =
      if compare j k = .eq then some a else findEntry j es := by
  induction es with
  | nil => simp [insertEntry, findEntry]
  | cons d ds ih =>
    simp only [insertEntry]
    split
    · simp [findEntry]
    · rename_i hc
      simp only [findEntry]
      have : compare j d.1 = compare j k := (Std.TransCmp.congr_right hc).symm
      rw [this]
      split <;> rfl
    · rename_i hc
      simp only [findEntry, ih]
      split
      · rename_i hj
        split
        · rename_i hk
          have := Std.TransCmp.eq_trans (Std.OrientedCmp.eq_symm hk) hj
          rw [hc] at this
          cases this
        · rfl
      · rfl

/-- A stronger test that fails on a member on which the weaker one holds counts fewer members. -/
theorem countP_lt {κ : Type} {l : List κ} {p q : κ → Bool} {x : κ} (hx : x ∈ l)
    (hp : p x = true) (hq : q x = false) (h : ∀ y, q y = true → p y = true) :
    l.countP q < l.countP p := by
  induction l with
  | nil => cases hx
  | cons y ys ih =>
    have hle : ys.countP q ≤ ys.countP p := List.countP_mono_left fun y _ => h y
    rcases List.mem_cons.1 hx with rfl | hx
    · simp only [List.countP_cons, hp, hq]
      simpa using Nat.lt_succ_of_le hle
    · have := ih hx
      have hy := h y
      simp only [List.countP_cons]
      split
      · rename_i hqy
        simp only [hy hqy]
        simpa using this
      · omega

/-- A finite map in key order. -/
structure Dict (κ α : Type) [Ord κ] where
  entries : List (κ × α)
  ascending : Ascending entries

namespace Dict

variable {κ α β : Type} [Ord κ]

theorem ext_entries {c d : Dict κ α} (h : c.entries = d.entries) : c = d := by
  cases c
  cases d
  cases h
  rfl

instance [DecidableEq κ] [DecidableEq α] : DecidableEq (Dict κ α) := fun c d =>
  if h : c.entries = d.entries then isTrue (ext_entries h)
  else isFalse fun hcd => h (hcd ▸ rfl)

def empty : Dict κ α :=
  ⟨[], List.Pairwise.nil⟩

def find? (d : Dict κ α) (k : κ) : Option α :=
  findEntry k d.entries

def contains (d : Dict κ α) (k : κ) : Bool :=
  (d.find? k).isSome

def keys (d : Dict κ α) : List κ :=
  d.entries.map Prod.fst

def values (d : Dict κ α) : List α :=
  d.entries.map Prod.snd

def size (d : Dict κ α) : Nat :=
  d.entries.length

def isEmpty (d : Dict κ α) : Bool :=
  d.entries.isEmpty

/-- A map with the same keys and each value changed, with its key at hand. -/
def mapValues (f : κ → α → β) (d : Dict κ α) : Dict κ β where
  entries := d.entries.map fun e => (e.1, f e.1 e.2)
  ascending := List.pairwise_map.2 (d.ascending.imp fun h => h)

theorem find?_empty (k : κ) : (empty : Dict κ α).find? k = none := rfl

theorem mem_keys_of_find? [Std.LawfulEqOrd κ] {d : Dict κ α} {k : κ} {a : α}
    (h : d.find? k = some a) : k ∈ d.keys := by
  obtain ⟨es, _⟩ := d
  induction es with
  | nil => cases h
  | cons e es ih =>
    simp only [find?, findEntry] at h
    split at h
    · rename_i hc
      have := Std.LawfulEqOrd.eq_of_compare hc
      simp [keys, this]
    · simp only [keys, List.map_cons, List.mem_cons]
      exact .inr (ih (by simp_all [Ascending]) h)

/-- The value of a key, or a fault of the caller's making. -/
def get {ε : Type} (d : Dict κ α) (k : κ) (fault : ε) : Except ε α :=
  match d.find? k with
  | some a => .ok a
  | none => .error fault

variable [Std.TransOrd κ]

def insert (d : Dict κ α) (k : κ) (a : α) : Dict κ α :=
  ⟨insertEntry k a d.entries, ascending_insertEntry k a d.ascending⟩

/-- The map of a list of entries; of two entries with one key the later counts. -/
def ofList (es : List (κ × α)) : Dict κ α :=
  es.foldl (fun d e => d.insert e.1 e.2) empty

theorem find?_insert (d : Dict κ α) (j k : κ) (a : α) :
    (d.insert k a).find? j = if compare j k = .eq then some a else d.find? j :=
  findEntry_insertEntry j k a d.entries

theorem find?_insert_self (d : Dict κ α) (k : κ) (a : α) : (d.insert k a).find? k = some a := by
  simp [find?_insert]

theorem contains_insert (d : Dict κ α) (j k : κ) (a : α) :
    (d.insert k a).contains j = (compare j k == .eq || d.contains j) := by
  simp only [contains, find?_insert]
  by_cases h : compare j k = .eq <;> simp [h]

end Dict

/-- A finite set in order. -/
abbrev OrderedSet (κ : Type) [Ord κ] :=
  Dict κ PUnit

namespace OrderedSet

variable {κ : Type} [Ord κ]

def toList (s : OrderedSet κ) : List κ :=
  Dict.keys s

def disjoint (s t : OrderedSet κ) : Bool :=
  s.toList.all fun k => !Dict.contains t k

/-- The members of the first set that the second one has too, in order. -/
def common (s t : OrderedSet κ) : List κ :=
  s.toList.filter (Dict.contains t)

variable [Std.TransOrd κ]

def add (s : OrderedSet κ) (k : κ) : OrderedSet κ :=
  Dict.insert s k PUnit.unit

def addAll (s : OrderedSet κ) (ks : List κ) : OrderedSet κ :=
  ks.foldl add s

def ofList (ks : List κ) : OrderedSet κ :=
  addAll Dict.empty ks

theorem contains_add (s : OrderedSet κ) (j k : κ) :
    Dict.contains (s.add k) j = (compare j k == .eq || Dict.contains s j) :=
  Dict.contains_insert s j k PUnit.unit

theorem contains_addAll (s : OrderedSet κ) (ks : List κ) (j : κ) :
    Dict.contains (s.addAll ks) j = (ks.any (compare j · == .eq) || Dict.contains s j) := by
  induction ks generalizing s with
  | nil => simp [addAll]
  | cons k ks ih =>
    have : addAll s (k :: ks) = addAll (s.add k) ks := rfl
    rw [this, ih, contains_add, List.any_cons]
    cases compare j k == .eq <;> simp

end OrderedSet

/-- A set of names. -/
abbrev NameSet :=
  OrderedSet String

end Kinetics
