import Kinetics.Proofs.Python.Subscript
import Kinetics.Proofs.Space.Membership

/-!
# Kinetics.Proofs.Space.Indexing

What the code of an access stands for. It is a name or a subscript of it (`expresses_access`), and
with an array of the extents of a shape for the name it stands for the part of that array in which
the point's positions are fixed (`access_part`); a point of the shape has one cell of it, at its
offset (`access_cell`).
-/

namespace Kinetics

open Code Text
open Python

section Code

variable {name : String} {s : Shape} {q : Point} {is : List (Option Nat)} {i : Option Nat}

def entryText (i : Option Nat) : List Char :=
  (positionText i).toList

theorem entryText_some (i : Nat) : entryText (some i) = natDigits i := by
  simp [entryText, positionText, toString, Nat.repr, natDigits]

theorem intercalate_cons_flatMap (sep cs : List Char) (css : List (List Char)) :
    List.intercalate sep (cs :: css) = cs ++ css.flatMap (sep ++ ·) := by
  induction css generalizing cs with
  | nil => simp [List.intercalate]
  | cons ds css ih =>
    have h : List.intercalate sep (cs :: ds :: css) = cs ++ (sep ++ List.intercalate sep (ds :: css)) := by
      simp [List.intercalate]
    rw [h, ih]
    simp

theorem spells_entry {rest : List Char} {ts : List Token} (i : Option Nat)
    (hr : Ends continuesName rest) (h : Spells rest ts) :
    Spells (entryText i ++ rest) (entryTokens i ++ ts) := by
  cases i with
  | none =>
    have hcolon : entryText none = [':'] := by simp [entryText, positionText]
    rw [hcolon]
    exact .token .colon (fun _ _ => rfl) h
  | some i =>
    rw [entryText_some]
    exact .token (.number (natDigits i)) hr h

/-- The entries behind the first one, and the bracket behind them. -/
theorem spells_entries (is : List (Option Nat)) :
    Ends continuesName (is.flatMap (fun i => ',' :: ' ' :: entryText i) ++ [']']) ∧
      Spells (is.flatMap (fun i => ',' :: ' ' :: entryText i) ++ [']'])
        (is.flatMap (fun i => Token.comma :: entryTokens i) ++ [Token.closing .square]) := by
  induction is with
  | nil => exact ⟨.cons (by decide +kernel), .token (.closing .square) (fun _ _ => rfl) .nil⟩
  | cons i is ih =>
    obtain ⟨he, hs⟩ := ih
    refine ⟨.cons (by decide +kernel), ?_⟩
    have hentry := spells_entry i he hs
    simpa [Token.text] using Spells.token .comma (fun _ _ => rfl) (.blank rfl hentry)

theorem toList_access (name : String) (s : Shape) (q : Point) :
    (accessCode name s q).toList =
      match accessPositions s q with
      | [] => name.toList
      | i :: is => name.toList ++ '[' ::
          (entryText i ++ (is.flatMap (fun i => ',' :: ' ' :: entryText i) ++ [']'])) := by
  rw [accessCode, Place.code, Place.at]
  cases accessPositions s q with
  | nil => rfl
  | cons i is =>
    have hlist : (joinWith ", " ((i :: is).map positionText)).toList =
        entryText i ++ is.flatMap (fun i => ',' :: ' ' :: entryText i) := by
      rw [joinWith, String.toList_intercalate, List.map_map, List.map_cons,
        intercalate_cons_flatMap, List.flatMap_map]
      simp [entryText]
    rw [if_neg (by simp), String.toList_append, String.toList_append, String.toList_append, hlist]
    simp

/-- The brackets of an access, written behind the name. -/
theorem spells_subscript (i : Option Nat) (is : List (Option Nat)) :
    Spells ('[' :: (entryText i ++ (is.flatMap (fun i => ',' :: ' ' :: entryText i) ++ [']'])))
      (inBrackets .square (entriesTokens i is)) := by
  obtain ⟨he, hs⟩ := spells_entries is
  have hopen := Spells.token (.opening .square) (fun _ _ => rfl) (spells_entry i he hs)
  simpa [inBrackets, entriesTokens, Token.text, Bracket.opener] using hopen

/-- The code of an access is an expression: a name or a subscript of it. -/
theorem expresses_access (hn : isPath name.toList = true) (s : Shape) (q : Point) :
    Expresses (accessCode name s q) (accessTree name.toList (accessPositions s q)) := by
  refine ⟨accessTokens name.toList (accessPositions s q), ?_, parses_access hn _⟩
  rw [toList_access]
  cases accessPositions s q with
  | nil => simpa [accessTokens, Token.text] using Spells.token (.name name.toList) (.nil _) .nil
  | cons i is =>
    have hbracket : continuesName '[' = false := by decide +kernel
    exact .token (.name name.toList) (.cons hbracket) (spells_subscript i is)

end Code

section Part

variable {α : Type} {t : Topology} {p : Plant} {s : Shape} {q : Point} {a b : Grid α}

/-- What an access leaves out are whole axes. -/
theorem accessPositions_append (s : Shape) (q : Point) :
    ∃ n, accessPositions s q ++ List.replicate n none = s.axes.map q.coordinate := by
  have hwhole : ∀ i ∈ (s.axes.map q.coordinate).reverse.takeWhile Option.isNone, i = none :=
    fun i hi => Option.isNone_iff_eq_none.1 (List.all_eq_true.1 List.all_takeWhile i hi)
  refine ⟨((s.axes.map q.coordinate).reverse.takeWhile Option.isNone).length, ?_⟩
  rw [accessPositions, ← List.reverse_replicate, ← List.eq_replicate_of_mem hwhole,
    ← List.reverse_append, List.takeWhile_append_dropWhile, List.reverse_reverse]

theorem select_access (ha : a.extents = t.extents s) :
    a.select (accessPositions s q) = a.select (s.axes.map q.coordinate) := by
  obtain ⟨n, hn⟩ := accessPositions_append s q
  have hlen : (accessPositions s q).length + n = s.axes.length := by
    have := congrArg List.length hn
    simpa using this
  rw [← hn, Grid.select_append_whole]
  rw [hlen, ha, Topology.extents, List.length_map]

/-- The positions of a point lie in an array over the axes of a shape. -/
def Point.InRange (t : Topology) (s : Shape) (q : Point) : Prop :=
  ∀ x ∈ s.axes, ∀ i, q.coordinate x = some i → i < t.extent x

/-- An array is the part of another over the axes of a shape in which the positions of a point are
fixed and all other axes are whole. -/
structure IsPart (t : Topology) (s : Shape) (q : Point) (a b : Grid α) : Prop where
  extents : b.extents = (Grid.free q.coordinate s.axes).map t.extent
  cells : ∀ f : Axis → Nat, (∀ x ∈ s.axes, ∀ i, q.coordinate x = some i → f x = i) →
    b.cell ((Grid.free q.coordinate s.axes).map f) = a.cell (s.axes.map f)

theorem select_part (ha : a.extents = t.extents s) (h : q.InRange t s) :
    ∃ b, a.select (accessPositions s q) = some b ∧ IsPart t s q a b := by
  obtain ⟨b, hb, he, hc⟩ := Grid.select_axes (a := a) ha h
  exact ⟨b, (select_access ha).trans hb, he, hc⟩

theorem select_outside (ha : a.extents = t.extents s) (h : ¬q.InRange t s) :
    a.select (accessPositions s q) = none := by
  simp only [Point.InRange, not_forall, Nat.not_lt] at h
  obtain ⟨x, hx, i, hi, hlt⟩ := h
  rw [select_access ha]
  exact Grid.select_outside ha hx hi hlt

namespace Topology

theorem free_points (h : t.Placed) (hq : q ∈ t.points s) :
    Grid.free q.coordinate s.axes = [] := by
  refine List.filter_eq_nil_iff.2 fun x hx hn => ?_
  obtain ⟨i, hi, -⟩ := coordinate_points h hq hx
  simp [hi] at hn

theorem inRange_points (h : t.Placed) (hq : q ∈ t.points s) : q.InRange t s := by
  intro x hx i hi
  obtain ⟨j, hj, hlt⟩ := coordinate_points h hq hx
  rw [hi] at hj
  cases hj
  exact hlt

/-- The part of an array at a point of its shape is the cell at the offset of the point. -/
theorem part_points (h : t.Placed) (hq : q ∈ t.points s) (ha : a.extents = t.extents s)
    (hb : IsPart t s q a b) : b.extents = [] ∧ b.cell [] = a.flat (t.offsetAt s q) := by
  have hfree := free_points h hq
  refine ⟨by rw [hb.extents, hfree, List.map_nil], ?_⟩
  have hcell := hb.cells (fun x => (q.coordinate x).getD 0) fun x _ i hi => by
    rw [hi, Option.getD_some]
  rw [hfree, List.map_nil] at hcell
  rw [hcell, offsetAt, offsetOver_eq, ← extents, ← ha, Grid.flat_rowMajor (ha ▸ along_within h hq)]
  rfl

theorem offsetAt_lt (h : t.Placed) (hq : q ∈ t.points s) :
    t.offsetAt s q < (t.extents s).prod := by
  rw [offsetAt, offsetOver_eq]
  exact Grid.rowMajor_lt (along_within h hq)

theorem offsetAt_injOn (h : t.Placed) : Set.InjOn (t.offsetAt s) {q | q ∈ t.points s} := by
  intro q hq r hr he
  rw [offsetAt, offsetAt, offsetOver_eq, offsetOver_eq] at he
  exact along_injective h hq hr
    (Grid.rowMajor_injective (along_within h hq) (along_within h hr) he)

end Topology

/-- What the code of an access stands for: the code is an expression with one tree, and with an
array over the axes of the shape for the name, the tree stands for the part of the array at the
point, or for nothing if a position is out of range. -/
structure Accesses (t : Topology) (name : String) (s : Shape) (q : Point) (tree : Tree) : Prop where
  expresses : ∀ other, Expresses (accessCode name s q) other ↔ other = tree
  part : ∀ (α : Type) (env : List Char → Option (Grid α)) (a : Grid α),
    env name.toList = some a → a.extents = t.extents s → q.InRange t s →
    ∃ b, tree.grid? env = some b ∧ IsPart t s q a b
  outside : ∀ (α : Type) (env : List Char → Option (Grid α)) (a : Grid α),
    env name.toList = some a → a.extents = t.extents s → ¬q.InRange t s → tree.grid? env = none

theorem exists_accesses {name : String} (hn : isPath name.toList = true) (t : Topology) (s : Shape)
    (q : Point) : ∃ tree, Accesses t name s q tree := by
  have hcode := expresses_access hn s q
  refine ⟨accessTree name.toList (accessPositions s q), fun other => ⟨fun h => ?_, ?_⟩, ?_, ?_⟩
  · exact expresses_unique h hcode
  · rintro rfl
    exact hcode
  · intro α env a henv ha hr
    obtain ⟨b, hb, hpart⟩ := select_part ha hr
    exact ⟨b, by rw [grid?_accessTree, henv, Option.bind_some, hb], hpart⟩
  · intro α env a henv ha hr
    rw [grid?_accessTree, henv, Option.bind_some, select_outside ha hr]

/-- The index space of a plant: its points are those that the plant's names allow, each listed
once; each has an offset of its own in an array of the shape, and code that addresses it there. -/
theorem Topology.points_addressed (h : Topology.ofPlant p = .ok t) (s : Shape) :
    (t.points s).Nodup ∧
      (∀ q, q ∈ t.points s ↔ t.Ranges s q ∧ p.Carries s q) ∧
      Set.InjOn (t.offsetAt s) {q | q ∈ t.points s} ∧
      (∀ q ∈ t.points s, t.offsetAt s q < (t.extents s).prod) ∧
      ∀ name : String, isPath name.toList = true → ∀ q, ∃ tree, Accesses t name s q tree ∧
        (q ∈ t.points s → ∀ (α : Type) (env : List Char → Option (Grid α)) (a : Grid α),
          env name.toList = some a → a.extents = t.extents s →
          ∃ b, tree.grid? env = some b ∧ b.extents = [] ∧ b.cell [] = a.flat (t.offsetAt s q)) := by
  have hplaced := Topology.ofPlant_placed h
  refine ⟨Topology.nodup_points (Topology.ofPlant_named h) s, fun q => Topology.mem_points h,
    Topology.offsetAt_injOn hplaced, fun q hq => Topology.offsetAt_lt hplaced hq,
    fun name hn q => ?_⟩
  obtain ⟨tree, ht⟩ := exists_accesses hn t s q
  refine ⟨tree, ht, fun hq α env a henv ha => ?_⟩
  obtain ⟨b, hb, hpart⟩ := ht.part α env a henv ha (Topology.inRange_points hplaced hq)
  exact ⟨b, hb, Topology.part_points hplaced hq ha hpart⟩

/-- Two streams and a reaction; the third species repeats the first one, so that no stream holds
it and no reaction involves it. -/
def mixture : Plant where
  species := ["A", "B", "A"]
  reactions := ["A > B"]
  streams := Dict.ofList [("Feed", ["B", "A"]), ("Waste", ["B"])]
  gases := Dict.empty
  solids := Dict.empty

def mixtureTopology : Topology where
  species := ["A", "B", "A"]
  reactions := [⟨"A > B", [("A", Coefficient.one.neg), ("B", .one)]⟩]
  streams := [⟨"Feed", [0, 1]⟩, ⟨"Waste", [1]⟩]
  gases := []
  solids := []

/-- The second stream, with the product of the reaction. -/
def wasted : Point :=
  ⟨none, some 1, some 0, some 1⟩

theorem Topology.points_addressed_mixture : Topology.ofPlant mixture = .ok mixtureTopology ∧
    (mixtureTopology.points .streamReactionSpecies).Nodup ∧
    wasted ∈ mixtureTopology.points .streamReactionSpecies ∧
    ∃ tree, Accesses mixtureTopology "C" .streamReactionSpecies wasted tree ∧
      ∀ (α : Type) (env : List Char → Option (Grid α)) (a : Grid α),
        env ['C'] = some a → a.extents = [2, 1, 3] →
        ∃ b, tree.grid? env = some b ∧ b.extents = [] ∧ b.cell [] = a.flat 4 := by
  have hok : Topology.ofPlant mixture = .ok mixtureTopology := by decide +kernel
  have hlist : "C".toList = ['C'] := by simp
  have hmem : wasted ∈ mixtureTopology.points .streamReactionSpecies := by decide
  obtain ⟨hnodup, -, -, -, haccess⟩ := Topology.points_addressed hok .streamReactionSpecies
  obtain ⟨tree, htree, hcell⟩ := haccess "C" (hlist ▸ by decide +kernel) wasted
  exact ⟨hok, hnodup, hmem, tree, htree, fun α env a henv ha => hcell hmem α env a (hlist ▸ henv) ha⟩

end Part

end Kinetics
