import Kinetics.Proofs.Keys
import Kinetics.Proofs.Parameter.Table
import Kinetics.Proofs.Space.Naming

/-!
# Kinetics.Proofs.Parameter.Values

When there is a parameter table, and what its entries hold. A table is made by adding fixed values,
adding coefficients, setting known values and converting to standard units. Each step is told by the
value that an index has after it, so that none of them has to be opened again: before known values
are set an entry holds what its own index says, the fixed value of the variable it names or a
coefficient, and the conversion takes each entry for itself.
-/

namespace Kinetics

namespace ParameterTable

variable {o : Ontology} {t : Topology} {m : Model} {known : List KnownValue}
  {es out : TableEntries} {k : ParameterIndex} {name : String}

/-- The known value of an index; the last one counts. -/
def knownAt (known : List KnownValue) (k : ParameterIndex) : Option (ParameterValue Float) :=
  Dict.latest (known.map fun v => (v.index, v.value)) k

def coefficientAt (t : Topology) (k : ParameterIndex) : Option Coefficient :=
  Dict.latest (Reaction.stoichiometry t.reactions) k

theorem name_of_coefficientAt {c : Coefficient} (h : coefficientAt t k = some c) :
    k.name = Reaction.coefficientName :=
  Reaction.name_of_mem_stoichiometry (List.mem_map_of_mem (f := Prod.fst) (Dict.mem_of_latest h))

/-- The variable is an input or a state of the model, and not that of the coefficients. -/
structure Expands (o : Ontology) (m : Model) (name : String) (v : Variable) : Prop where
  plain : name ≠ Reaction.coefficientName
  listed : o.variableOf name = .ok v
  tabled : m.definitions.find? name = some .leaf ∨
    ∃ law, m.definitions.find? name = some (.state law)

/-- The index stands for a point of a variable that the table expands. -/
def Entry (o : Ontology) (t : Topology) (m : Model) (v : Variable) (k : ParameterIndex) : Prop :=
  Expands o m k.name v ∧ ∃ shape, Shape.ofDimensions v.dimensions = .ok shape ∧
    k ∈ t.indicesOver k.name shape

/-- The index of an input that has no value, though it is no operation parameter. -/
structure Lacks (o : Ontology) (known : List KnownValue) (t : Topology) (m : Model)
    (k : ParameterIndex) : Prop where
  leaf : m.definitions.find? k.name = some .leaf
  unknown : knownAt known k = none
  unfixed : ∃ v, Entry o t m v k ∧ v.fixedValue = none ∧ v.role ≠ .operationParameter

theorem expands_iff {v : Variable} : Expands o m name v ↔ name ≠ Reaction.coefficientName ∧
    o.variableOf name = .ok v ∧ ∃ d, m.definitions.find? name = some d ∧ d.isTabled = true := by
  constructor
  · rintro ⟨hplain, hv, hd | ⟨law, hd⟩⟩
    · exact ⟨hplain, hv, _, hd, rfl⟩
    · exact ⟨hplain, hv, _, hd, rfl⟩
  · rintro ⟨hplain, hv, d, hd, ht⟩
    cases d with
    | leaf => exact ⟨hplain, hv, .inl hd⟩
    | state law => exact ⟨hplain, hv, .inr ⟨law, hd⟩⟩
    | _ => cases ht

theorem tables_iff : Tables o t m.definitions.entries k ↔ ∃ v, Entry o t m v k := by
  constructor
  · rintro ⟨name, d, v, shape, hd, ht, hplain, hv, hs, hk⟩
    obtain rfl := Simulation.name_of_mem_indicesOver hk
    exact ⟨v, expands_iff.2 ⟨hplain, hv, d, Dict.find?_eq_some_iff.2 hd, ht⟩, shape, hs, hk⟩
  · rintro ⟨v, he, shape, hs, hk⟩
    obtain ⟨hplain, hv, d, hd, ht⟩ := expands_iff.1 he
    exact ⟨k.name, d, v, shape, Dict.find?_eq_some_iff.1 hd, ht, hplain, hv, hs, hk⟩

section Steps

/-- What an entry holds before any value is known. -/
def declaredAt (o : Ontology) (t : Topology) (k : ParameterIndex) :
    Option (ParameterValue Float) :=
  if k.name = Reaction.coefficientName then
    (coefficientAt t k).map fun c => .scalar c.toFloat
  else
    match o.variableOf k.name with
    | .ok v => v.fixedValue.map .scalar
    | .error _ => none

theorem find?_addPoints {value x : Option (ParameterValue Float)} {ps : List Point}
    (h : (addPoints t name value es ps).find? k = some x) :
    k.name = name ∧ x = value ∨ es.find? k = some x := by
  have hfold : addPoints t name value es ps =
      (ps.map fun p => (t.indexAt name p, value)).foldl (fun es e => es.insert e.1 e.2) es := by
    rw [List.foldl_map]
    rfl
  rw [hfold, Dict.find?_insertAll, Option.or_eq_some_iff] at h
  rcases h with h | ⟨-, h⟩
  · obtain ⟨p, -, hp⟩ := List.mem_map.1 (Dict.mem_of_latest h)
    cases hp
    exact .inl ⟨rfl, rfl⟩
  · exact .inr h

/-- An entry that a variable adds holds the fixed value of the variable that its index names. -/
theorem addVariables_declared {ds : List (String × Definition)}
    (h : addVariables o t es ds = .ok out)
    (hes : ∀ k x, es.find? k = some x → k.name ≠ Reaction.coefficientName ∧ x = declaredAt o t k) :
    ∀ k x, out.find? k = some x → k.name ≠ Reaction.coefficientName ∧ x = declaredAt o t k := by
  induction ds generalizing es with
  | nil =>
    cases h
    exact hes
  | cons e ds ih =>
    obtain ⟨name, d⟩ := e
    simp only [addVariables] at h
    split at h
    · rename_i hc
      simp only [Bool.and_eq_true, bne_iff_ne] at hc
      split at h
      · cases h
      · rename_i v hv
        split at h
        · cases h
        · refine ih h fun k x hk => ?_
          rcases find?_addPoints hk with ⟨rfl, rfl⟩ | hk
          · exact ⟨hc.2, by rw [declaredAt, if_neg hc.2, hv]⟩
          · exact hes k x hk
    · exact ih h hes

theorem find?_addCoefficients :
    (addCoefficients t es).find? k =
      ((coefficientAt t k).map fun c => some (.scalar c.toFloat)).or (es.find? k) := by
  have hfold : addCoefficients t es = ((Reaction.stoichiometry t.reactions).map fun e =>
      (e.1, some (.scalar e.2.toFloat))).foldl (fun es e => es.insert e.1 e.2) es := by
    rw [List.foldl_map]
    rfl
  rw [hfold, Dict.find?_insertAll]
  congr 1
  simp only [coefficientAt, Dict.latest, List.filter_map, List.getLast?_map, Option.map_map]
  rfl

theorem find?_setKnown {v : KnownValue} : (setKnown es v).find? k =
    (es.find? k).map fun x => (if v.index = k then some v.value else none).or x := by
  unfold setKnown
  split
  · rename_i hc
    by_cases hk : v.index = k
    · subst hk
      obtain ⟨x, hx⟩ := Option.isSome_iff_exists.1 hc
      rw [Dict.find?_insert_self, hx, if_pos rfl]
      rfl
    · simp [Dict.find?_insert_of_ne (Ne.symm hk), hk]
  · rename_i hc
    by_cases hk : v.index = k
    · subst hk
      rw [Option.not_isSome_iff_eq_none.1 hc]
      rfl
    · simp [hk]

theorem find?_setAllKnown : (known.foldl setKnown es).find? k =
    (es.find? k).map (knownAt known k).or := by
  induction known generalizing es with
  | nil =>
    cases h : es.find? k with
    | none => simpa using h
    | some x => simpa [knownAt, Dict.latest] using h
  | cons v known ih =>
    rw [List.foldl_cons, ih, find?_setKnown, Option.map_map]
    congr 1
    funext x
    have hcons : knownAt (v :: known) k =
        (knownAt known k).or (if v.index = k then some v.value else none) := Dict.latest_cons
    rw [hcons, Option.or_assoc]
    rfl

variable {defs : Dict String Definition} {f : Fault}
  {entries result : List (ParameterIndex × Option (ParameterValue Float))}

theorem mem_standardEntries (h : standardEntries o defs entries = .ok result)
    {e : ParameterIndex × Option (ParameterValue Float)} (he : e ∈ entries) :
    ∃ y, standardEntry o defs e.1 e.2 = .ok y ∧ (e.1, y) ∈ result := by
  induction entries generalizing result with
  | nil => cases he
  | cons d entries ih =>
    simp only [standardEntries] at h
    split at h
    · cases h
    · rename_i y hy
      split at h
      · cases h
      · rename_i rest hrest
        cases h
        rcases List.mem_cons.1 he with rfl | he
        · exact ⟨y, hy, List.mem_cons_self⟩
        · obtain ⟨z, hz, hm⟩ := ih hrest he
          exact ⟨z, hz, List.mem_cons_of_mem _ hm⟩

end Steps

section Declared

theorem declared_eq {x : Option (ParameterValue Float)} (h : declared o t m = .ok es)
    (hk : es.find? k = some x) : x = declaredAt o t k := by
  simp only [declared] at h
  split at h
  · cases h
  · rename_i vs hvs
    have hvariables := addVariables_declared hvs fun k x hk => by cases hk
    cases h
    split at hk
    · rw [find?_addCoefficients, Option.or_eq_some_iff] at hk
      rcases hk with hk | ⟨-, hk⟩
      · obtain ⟨c, hc, rfl⟩ := Option.map_eq_some_iff.1 hk
        rw [declaredAt, if_pos (name_of_coefficientAt hc), hc]
        rfl
      · exact (hvariables k x hk).2
    · exact (hvariables k x hk).2

theorem mem_declared_iff (h : declared o t m = .ok es) : k ∈ es.keys ↔ (∃ v, Entry o t m v k) ∨
    m.definitions.contains Reaction.coefficientName = true ∧
      k ∈ (Reaction.stoichiometry t.reactions).map Prod.fst := by
  rw [mem_declared h, tables_iff]

end Declared

section Conversion

theorem lacks_iff {v : Variable} (he : Entry o t m v k) : Lacks o known t m k ↔
    m.definitions.find? k.name = some .leaf ∧ v.role ≠ .operationParameter ∧
      (knownAt known k).or (v.fixedValue.map .scalar) = none := by
  rw [Option.or_eq_none_iff, Option.map_eq_none_iff]
  constructor
  · rintro ⟨hleaf, hknown, v', ⟨⟨-, hv', -⟩, -⟩, hfixed, hrole⟩
    cases he.1.listed.symm.trans hv'
    exact ⟨hleaf, hrole, hknown, hfixed⟩
  · rintro ⟨hleaf, hrole, hknown, hfixed⟩
    exact ⟨hleaf, hknown, v, he, hfixed, hrole⟩

theorem mayLackValue_iff {v : Variable} {d : Definition} (hd : d.isTabled = true) :
    mayLackValue v d = true ↔ d = .leaf → v.role = .operationParameter := by
  cases d with
  | leaf => simp [mayLackValue, Definition.isState]
  | state law => simp [mayLackValue, Definition.isState]
  | _ => cases hd

/-- The conversion fails on an entry that lacks a value, and on no other one. -/
theorem standardEntry_eq {v : Variable} (he : Entry o t m v k) {x : Option (ParameterValue Float)}
    (hx : x = (knownAt known k).or (v.fixedValue.map .scalar)) :
    (Lacks o known t m k → standardEntry o m.definitions k x = .error (.noValue k)) ∧
      (¬Lacks o known t m k → standardEntry o m.definitions k x =
        .ok (x.map (Scale.rescale negligibleRatio (o.unitOf v)))) := by
  obtain ⟨hplain, hv, d, hd, ht⟩ := expands_iff.1 he.1
  have hget : m.definitions.get k.name (Fault.unlisted k.name) = .ok d := by
    rw [Dict.get, hd]
  rw [lacks_iff he, ← hx, hd, Option.some.injEq, standardEntry, if_neg hplain, hv]
  cases x with
  | some x => simp
  | none =>
    simp only [hget, mayLackValue_iff ht, and_true, Option.map_none]
    constructor
    · rintro ⟨hleaf, hrole⟩
      rw [if_neg fun h => hrole (h hleaf)]
    · intro h
      rw [if_pos fun hleaf => not_not.1 fun hrole => h ⟨hleaf, hrole⟩]

/-- The value of an entry in standard units. -/
def ValueAt (o : Ontology) (known : List KnownValue) (t : Topology) (m : Model) (k : ParameterIndex)
    (x : Option (ParameterValue Float)) : Prop :=
  (∀ v, Entry o t m v k → x = ((knownAt known k).or (v.fixedValue.map .scalar)).map
    (Scale.rescale negligibleRatio (o.unitOf v))) ∧
  (m.definitions.contains Reaction.coefficientName = true → ∀ c, coefficientAt t k = some c →
    x = some ((knownAt known k).getD (.scalar c.toFloat)))

/-- With known values set, each declared entry is converted for itself. -/
theorem standardEntry_declared (h : declared o t m = .ok es) {x : Option (ParameterValue Float)}
    (hk : (known.foldl setKnown es).find? k = some x) :
    (Lacks o known t m k → standardEntry o m.definitions k x = .error (.noValue k)) ∧
      (¬Lacks o known t m k → ∃ y, standardEntry o m.definitions k x = .ok y ∧
        ValueAt o known t m k y) := by
  rw [find?_setAllKnown, Option.map_eq_some_iff] at hk
  obtain ⟨z, hz, hx⟩ := hk
  obtain rfl := declared_eq h hz
  rcases (mem_declared_iff h).1 (Dict.mem_keys_of_find? hz) with ⟨v, he⟩ | ⟨hc, hk⟩
  · have hplain := he.1.plain
    rw [declaredAt, if_neg hplain, he.1.listed] at hx
    obtain ⟨hlacks, hvalue⟩ := standardEntry_eq he hx.symm
    refine ⟨hlacks, fun hno => ⟨_, hvalue hno, fun v' he' => ?_, fun _ c hc => ?_⟩⟩
    · cases he.1.listed.symm.trans he'.1.listed
      rw [← hx]
    · exact absurd (name_of_coefficientAt hc) hplain
  · have hname := Reaction.name_of_mem_stoichiometry hk
    refine ⟨fun hlacks => ?_, fun _ => ⟨x, by rw [standardEntry, if_pos hname], fun v he => ?_,
      fun _ c hcoefficient => ?_⟩⟩
    · obtain ⟨v, he, -⟩ := hlacks.unfixed
      exact absurd hname he.1.plain
    · exact absurd hname he.1.plain
    · rw [declaredAt, if_pos hname, hcoefficient] at hx
      rw [← hx]
      cases knownAt known k <;> rfl

end Conversion

section Build

variable {table : ParameterTable}

/-- The entries of a table hold their values in standard units. -/
theorem value?_build (h : build o known t m = .ok table) (hk : k ∈ table.indices) :
    ValueAt o known t m k (table.value? k) := by
  obtain ⟨es, result, hes, hresult, rfl⟩ := build_ok h
  have hascending : Ascending result := by
    have hkeys : (result.map Prod.fst).Pairwise fun i j => compare i j = .lt := by
      rw [standardEntries_keys hresult]
      exact List.pairwise_map.2 (known.foldl setKnown es).ascending
    exact List.pairwise_map.1 hkeys
  have hin : k ∈ (known.foldl setKnown es).keys := by
    rw [Dict.keys, ← standardEntries_keys hresult]
    exact Dict.mem_keys_ofList.1 hk
  obtain ⟨x, hx⟩ := Option.isSome_iff_exists.1 (Dict.contains_iff.2 hin)
  obtain ⟨y, hy, hm⟩ := mem_standardEntries hresult (Dict.find?_eq_some_iff.1 hx)
  have hfind : (Dict.ofList result).find? k = some y := by
    rw [Dict.find?_eq_some_iff, Dict.entries_ofList hascending]
    exact hm
  obtain ⟨hlacks, hvalue⟩ := standardEntry_declared hes hx
  have hno : ¬Lacks o known t m k := by
    intro hk
    cases (hlacks hk).symm.trans hy
  obtain ⟨z, hz, hat⟩ := hvalue hno
  cases hy.symm.trans hz
  rw [value?, hfind]
  exact hat

end Build

end ParameterTable

namespace Topology

variable {t : Topology} {p : Plant}

end Topology

namespace ParameterTable

variable {o : Ontology} {s : Selection} {t : Topology} {m : Model} {k : ParameterIndex}

section Heating

open Simulation

/-- The plant of the conversion: one stream, and a reaction of its two species. -/
def plant : Topology where
  species := ["A", "B"]
  reactions := [⟨"A > B", [("A", Coefficient.one.neg), ("B", .one)]⟩]
  streams := [⟨"Liquid", [0, 1]⟩]
  gases := []
  solids := []

end Heating

end ParameterTable

end Kinetics
