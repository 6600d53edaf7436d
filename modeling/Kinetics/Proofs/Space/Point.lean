import Kinetics.Proofs.Grid.Index
import Kinetics.Space.Access
import Mathlib.Data.List.Induction

/-!
# Kinetics.Proofs.Space.Point

The points of a plant lie in the dense arrays of their shapes. A point has a coordinate below the
extent on every axis of its shape and none elsewhere, so that its coordinates give it back, and its
offset is the position of its coordinates row by row.
-/

namespace Kinetics

/-- The coordinates of a point along the axes of a shape. -/
def Point.along (q : Point) (axes : List Axis) : List Nat :=
  axes.map fun a => (q.coordinate a).getD 0

@[simp] theorem Point.length_along (q : Point) (axes : List Axis) :
    (q.along axes).length = axes.length := by
  simp [Point.along]

theorem Point.along_concat (q : Point) (axes : List Axis) (a : Axis) :
    q.along (axes ++ [a]) = q.along axes ++ [(q.coordinate a).getD 0] := by
  simp [Point.along]

@[simp] theorem Point.coordinate_stream (q : Point) : q.coordinate .stream = q.stream := rfl

@[simp] theorem Point.coordinate_reaction (q : Point) : q.coordinate .reaction = q.reaction := rfl

@[simp] theorem Point.coordinate_species (q : Point) : q.coordinate .species = q.species := rfl

@[simp] theorem Point.coordinate_phase (k : Phase) (i : Nat) (a b c : Option Nat) :
    (Point.mk (some (k, i)) a b c).coordinate (.phase k) = some i := if_pos rfl

/-- The point with given coordinates on the axes of a shape. -/
def Shape.point (s : Shape) (f : Axis → Nat) : Point where
  phase := s.phase?.map fun k => (k, f (.phase k))
  stream := if s.axes.contains .stream then some (f .stream) else none
  reaction := if s.axes.contains .reaction then some (f .reaction) else none
  species := if s.axes.contains .species then some (f .species) else none

theorem Shape.phase?_eq_some {s : Shape} {k : Phase} :
    s.phase? = some k ↔ .phase k ∈ s.axes := by
  cases s <;> simp [Shape.phase?, Shape.axes, eq_comm]

theorem Shape.coordinate_point (s : Shape) {f : Axis → Nat} {a : Axis} (ha : a ∈ s.axes) :
    (s.point f).coordinate a = some (f a) := by
  cases a with
  | phase k =>
    simp only [Shape.point, Shape.phase?_eq_some.2 ha, Option.map_some, Point.coordinate_phase]
  | stream => simp [Shape.point, ha]
  | reaction => simp [Shape.point, ha]
  | species => simp [Shape.point, ha]

theorem Shape.point_congr (s : Shape) {f g : Axis → Nat} (h : ∀ a ∈ s.axes, f a = g a) :
    s.point f = s.point g := by
  have hphase : (s.phase?.map fun k => (k, f (.phase k))) =
      s.phase?.map fun k => (k, g (.phase k)) := by
    cases hk : s.phase? with
    | none => rfl
    | some k => simp [h _ (Shape.phase?_eq_some.1 hk)]
  have hif : ∀ a, (if s.axes.contains a then some (f a) else none) =
      if s.axes.contains a then some (g a) else none := by
    intro a
    by_cases ha : a ∈ s.axes
    · simp [ha, h a ha]
    · simp [ha]
  rw [Shape.point, Shape.point, hphase, hif, hif, hif]

namespace Topology

variable {t : Topology} {s : Shape} {q r : Point} {axes : List Axis}

/-- What streams and phases hold are positions in the list of species. -/
def Placed (t : Topology) : Prop :=
  ∀ g ∈ t.streams ++ t.gases ++ t.solids, ∀ i ∈ g.species, i < t.species.length

theorem ofPlant_placed {p : Plant} (h : ofPlant p = .ok t) : t.Placed := by
  unfold ofPlant at h
  split at h
  · cases h
  · cases h
    have hgroups : ∀ gs, ∀ g ∈ groups p.species gs, ∀ i ∈ g.species, i < p.species.length := by
      intro gs g hg i hi
      simp only [groups, List.mem_map] at hg
      obtain ⟨e, -, rfl⟩ := hg
      exact List.mem_range.1 (List.mem_filter.1 hi).1
    intro g hg
    simp only [List.mem_append] at hg
    rcases hg with (hg | hg) | hg <;> exact hgroups _ g hg

theorem participants_lt {reaction : Reaction} {i : Nat} (h : i ∈ t.participants reaction) :
    i < t.species.length := by
  simp only [participants, List.mem_filterMap] at h
  obtain ⟨p, -, hp⟩ := h
  obtain ⟨hlt, -⟩ := List.idxOf?_eq_some_iff.1 hp
  exact hlt

theorem Placed.of_streams (h : t.Placed) {g : Group} {i j : Nat} (hg : t.streams[i]? = some g)
    (hj : j ∈ g.species) : j < t.species.length :=
  h g (by simp [List.mem_of_getElem? hg]) j hj

theorem Placed.of_phases (h : t.Placed) {k : Phase} {g : Group} {i j : Nat}
    (hg : (t.phases k)[i]? = some g) (hj : j ∈ g.species) : j < t.species.length := by
  refine h g ?_ j hj
  have hm := List.mem_of_getElem? hg
  cases k
  · exact List.mem_append_left _ (List.mem_append_right _ hm)
  · exact List.mem_append_right _ hm

/-- The points of a shape have coordinates on its axes only, below the extents. -/
theorem points_form (h : t.Placed) (hq : q ∈ t.points s) :
    q = s.point (fun a => (q.coordinate a).getD 0) ∧
      ∀ a ∈ s.axes, (q.coordinate a).getD 0 < t.extent a := by
  cases s with
  | scalar =>
    cases List.mem_singleton.1 hq
    exact ⟨rfl, fun a ha => nomatch ha⟩
  | species =>
    simp only [points, List.mem_map, List.mem_range] at hq
    obtain ⟨i, hi, rfl⟩ := hq
    exact ⟨rfl, by simpa [Shape.axes, extent] using hi⟩
  | stream =>
    simp only [points, List.mem_map, List.mem_range] at hq
    obtain ⟨i, hi, rfl⟩ := hq
    exact ⟨rfl, by simpa [Shape.axes, extent] using hi⟩
  | reaction =>
    simp only [points, List.mem_map, List.mem_range] at hq
    obtain ⟨i, hi, rfl⟩ := hq
    exact ⟨rfl, by simpa [Shape.axes, extent] using hi⟩
  | streamSpecies =>
    simp only [points, List.mem_flatMap, Prod.exists, List.mem_zipIdx_iff_getElem?,
      List.mem_map] at hq
    obtain ⟨g, i, hg, j, hj, rfl⟩ := hq
    have hi := (List.getElem?_eq_some_iff.1 hg).1
    exact ⟨rfl, by simpa [Shape.axes, extent] using ⟨hi, h.of_streams hg hj⟩⟩
  | reactionSpecies =>
    simp only [points, List.mem_flatMap, Prod.exists, List.mem_zipIdx_iff_getElem?,
      List.mem_map] at hq
    obtain ⟨r, i, hr, j, hj, rfl⟩ := hq
    have hi := (List.getElem?_eq_some_iff.1 hr).1
    exact ⟨rfl, by simpa [Shape.axes, extent] using ⟨hi, participants_lt hj⟩⟩
  | streamReaction =>
    simp only [points, List.mem_flatMap, List.mem_range, List.mem_map] at hq
    obtain ⟨i, hi, j, hj, rfl⟩ := hq
    exact ⟨rfl, by simpa [Shape.axes, extent] using ⟨hi, hj⟩⟩
  | streamReactionSpecies =>
    simp only [points, List.mem_flatMap, Prod.exists, List.mem_zipIdx_iff_getElem?, List.mem_map,
      List.mem_filter] at hq
    obtain ⟨g, i, hg, r, j, hr, k, ⟨hk, -⟩, rfl⟩ := hq
    have hi := (List.getElem?_eq_some_iff.1 hg).1
    have hj := (List.getElem?_eq_some_iff.1 hr).1
    exact ⟨rfl, by simpa [Shape.axes, extent] using ⟨hi, hj, participants_lt hk⟩⟩
  | phase kind =>
    simp only [points, List.mem_map, List.mem_range] at hq
    obtain ⟨i, hi, rfl⟩ := hq
    exact ⟨by cases kind <;> rfl, by simpa [Shape.axes, extent] using hi⟩
  | phaseSpecies kind =>
    simp only [points, List.mem_flatMap, Prod.exists, List.mem_zipIdx_iff_getElem?,
      List.mem_map] at hq
    obtain ⟨g, i, hg, j, hj, rfl⟩ := hq
    have hi := (List.getElem?_eq_some_iff.1 hg).1
    exact ⟨by cases kind <;> rfl, by simpa [Shape.axes, extent] using ⟨hi, h.of_phases hg hj⟩⟩
  | phaseStream kind =>
    simp only [points, List.mem_flatMap, List.mem_range, List.mem_map] at hq
    obtain ⟨i, hi, j, hj, rfl⟩ := hq
    exact ⟨by cases kind <;> rfl, by simpa [Shape.axes, extent] using ⟨hi, hj⟩⟩
  | phaseStreamSpecies kind =>
    simp only [points, List.mem_flatMap, Prod.exists, List.mem_zipIdx_iff_getElem?, List.mem_map,
      List.mem_filter] at hq
    obtain ⟨g, i, hg, r, j, hr, k, ⟨hk, -⟩, rfl⟩ := hq
    have hi := (List.getElem?_eq_some_iff.1 hg).1
    have hj := (List.getElem?_eq_some_iff.1 hr).1
    exact ⟨by cases kind <;> rfl, by simpa [Shape.axes, extent] using ⟨hi, hj, h.of_phases hg hk⟩⟩

theorem coordinate_points (h : t.Placed) (hq : q ∈ t.points s) {a : Axis} (ha : a ∈ s.axes) :
    ∃ i, q.coordinate a = some i ∧ i < t.extent a := by
  obtain ⟨hform, hlt⟩ := points_form h hq
  refine ⟨_, ?_, hlt a ha⟩
  conv_lhs => rw [hform]
  exact s.coordinate_point ha

theorem along_within (h : t.Placed) (hq : q ∈ t.points s) :
    Grid.Within (q.along s.axes) (t.extents s) := by
  have hlt := (points_form h hq).2
  rw [Point.along, extents, Grid.Within, List.forall₂_map_left_iff, List.forall₂_map_right_iff,
    List.forall₂_same]
  exact hlt

/-- The coordinates of a point give it back. -/
theorem along_injective (h : t.Placed) (hq : q ∈ t.points s) (hr : r ∈ t.points s)
    (ha : q.along s.axes = r.along s.axes) : q = r := by
  have hsame : ∀ a ∈ s.axes, (q.coordinate a).getD 0 = (r.coordinate a).getD 0 :=
    List.map_inj_left.1 ha
  rw [(points_form h hq).1, (points_form h hr).1]
  exact s.point_congr hsame

/-- Offsets run row by row. -/
theorem offsetOver_eq (q : Point) (axes : List Axis) :
    t.offsetOver q axes = Grid.rowMajor (axes.map t.extent) (q.along axes) := by
  rw [offsetOver]
  induction axes using List.reverseRecOn with
  | nil => rfl
  | append_singleton axes a ih =>
    rw [List.foldl_append, List.foldl_cons, List.foldl_nil, ih, Point.along_concat,
      List.map_append, List.map_singleton, Grid.rowMajor_concat (by simp)]

/-- A point addresses one cell of an array of its shape. -/
theorem accessPositions_points (h : t.Placed) (hq : q ∈ t.points s) :
    accessPositions s q = (q.along s.axes).map some := by
  have hmap : s.axes.map q.coordinate = (q.along s.axes).map some := by
    rw [Point.along, List.map_map]
    refine List.map_congr_left fun a ha => ?_
    obtain ⟨i, hi, -⟩ := coordinate_points h hq ha
    simp [hi]
  have hdrop : ∀ is : List Nat, (is.map some).dropWhile Option.isNone = is.map some := by
    intro is
    cases is <;> rfl
  rw [accessPositions, hmap, ← List.map_reverse, hdrop, ← List.map_reverse, List.reverse_reverse]

end Topology

end Kinetics
