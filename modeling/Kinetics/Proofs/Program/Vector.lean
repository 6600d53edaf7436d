import Kinetics.Program.Derivative
import Kinetics.Program.Result
import Kinetics.Program.Solver
import Kinetics.Proofs.Fallible
import Kinetics.Proofs.Grid.Code
import Kinetics.Proofs.Program.Layout
import Mathlib.Tactic.Choose

/-!
# Kinetics.Proofs.Program.Vector

What a program does with the flat vector: it takes the states out of it, puts the initial values
and the derivatives into it, and marks which of its positions hold fluxes. All of these address
one layout, the one under which the rows of the solution are stored.
-/

namespace Kinetics

namespace Program

open Grid Statement

namespace VectorBlock

def blockName (s : VectorBlock) : String :=
  "_block_" ++ s.name

def blockCode (s : VectorBlock) : Code :=
  .reshape (.slice "_y" s.offset (s.offset + s.length)) s.blockExtents

/-- A half of a state in terms of the flat vector, or of the block of a joint state. -/
def viewCode (s : VectorBlock) (h : Half) : Code :=
  match s.joint, s.extents.getLast?, h with
  | _, none, _ => .item "_y" (s.offset + h.shift 1)
  | false, some _, _ => s.blockCode
  | true, some n, .state => .front s.blockName n
  | true, some n, .flux => .back s.blockName n

def viewCodes (s : VectorBlock) : List (String × Code) :=
  (if s.joint && !s.extents.isEmpty then [(s.blockName, s.blockCode)] else []) ++
    (s.name, s.viewCode .state) :: if s.joint then [(s.fluxName, s.viewCode .flux)] else []

/-- Puts the halves of a block, given by their codes, together as they lie in the vector. -/
def storedCode (s : VectorBlock) (codes : Half → Code) : Code :=
  match s.joint, s.extents with
  | false, _ => .ravel (codes .state)
  | true, [] => .pair (codes .state) (codes .flux)
  | true, _ => .flattened (.joined (codes .state) (codes .flux))

def derivativeHalf (s : VectorBlock) : Half → Code
  | .state => .name s.derivativeName
  | .flux => .name (s.derivativeName ++ fluxSuffix)

def initialHalf (s : VectorBlock) : Half → Code
  | .state => .name (initialName s)
  | .flux => if s.extents.isEmpty then .zero else .zerosLike (.name (initialName s))

def maskHalf (s : VectorBlock) : Half → Code
  | .state => .trues s.extents
  | .flux => .falses s.extents

def maskUpdates (s : VectorBlock) : List Update :=
  match s.joint, s.extents with
  | false, _ => []
  | true, [] => [.item (s.offset + 1) .false]
  | true, _ => [.slice s.offset (s.offset + s.length) (s.storedCode s.maskHalf)]

section Text

variable (s : VectorBlock)

theorem views_eq : s.views = s.viewCodes.map fun v => define v.1 v.2.text := by
  rcases List.eq_nil_or_concat s.extents with he | ⟨ns, n, he⟩
  · cases hj : s.joint with
    | false =>
      simp [views, viewCodes, viewCode, hj, he, Half.shift, toString]
    | true =>
      simp [views, viewCodes, viewCode, hj, he, Half.shift, toString]
  · cases hj : s.joint with
    | false =>
      simp [views, viewCodes, viewCode, blockCode, blockExtents, hj, he, toString,
        String.append_assoc]
    | true =>
      simp [views, viewCodes, viewCode, blockCode, blockName, hj, he, toString,
        String.append_assoc]

theorem derivativeCode_eq : s.derivativeCode = (s.storedCode s.derivativeHalf).text := by
  cases hj : s.joint with
  | false => simp [derivativeCode, storedCode, derivativeHalf, hj, toString]
  | true =>
    cases he : s.extents with
    | nil => simp [derivativeCode, storedCode, derivativeHalf, hj, he, toString]
    | cons n ns =>
      simp [derivativeCode, storedCode, derivativeHalf, hj, he, toString, String.append_assoc]

theorem initialCode_eq : s.initialCode = (s.storedCode s.initialHalf).text := by
  cases hj : s.joint with
  | false => simp [initialCode, storedCode, initialHalf, hj, toString]
  | true =>
    cases he : s.extents with
    | nil => simp [initialCode, storedCode, initialHalf, hj, he, toString, String.append_assoc]
    | cons n ns =>
      have hlit : ", np.zeros_like(" = ", " ++ "np.zeros_like(" := rfl
      simp [initialCode, storedCode, initialHalf, hj, he, toString, String.append_assoc]
      rw [hlit, String.append_assoc]

theorem maskFlux_eq :
    SolverCode.maskFlux s = s.maskUpdates.map fun u => .line (u.text "_is_state") := by
  cases hj : s.joint with
  | false => simp [SolverCode.maskFlux, maskUpdates, hj]
  | true =>
    cases he : s.extents with
    | nil =>
      simp [SolverCode.maskFlux, maskUpdates, hj, he, Update.text, toString, String.append_assoc]
    | cons n ns =>
      simp [SolverCode.maskFlux, maskUpdates, storedCode, maskHalf, hj, he, Update.text, toString,
        String.append_assoc]

end Text

section Meaning

variable {R : Type} [Zero R] {env : Environment R} {s : VectorBlock} {h : Half} {is : List Nat}
  {y : Grid (Cell R)} {n : Nat}

/-- The flat vector is at hand and, where a joint block is taken apart, that block. -/
def Sees (env : Environment R) (y : Grid (Cell R)) (s : VectorBlock) : Prop :=
  env "_y" = some y ∧
    (s.joint = true → s.extents ≠ [] → env s.blockName = s.blockCode.eval env)

theorem blockCode_ok (hy : env "_y" = some y) (hn : y.extents = [n])
    (hle : s.offset + s.length ≤ n) (hp : s.blockExtents.prod = s.length) :
    ∃ b, s.blockCode.eval env = some b ∧ b.extents = s.blockExtents ∧
      ∀ is, Within is s.blockExtents →
        b.cell is = y.cell [s.offset + rowMajor s.blockExtents is] := by
  obtain ⟨a, ha, hae, hcells⟩ := slice_of_vector hn (Nat.le_add_right _ s.length) hle
  rw [Nat.add_sub_cancel_left] at hae
  obtain ⟨b, hb, hbe, hbcells⟩ := reshape_of_vector hae hp
  refine ⟨b, ?_, hbe, fun is hw => ?_⟩
  · simp only [blockCode, Code.eval, hy, Option.bind_some, ha, hb]
  · rw [hbcells is hw, hcells]

theorem viewCode_scalar (hs : s.Sees env y) (hn : y.extents = [n]) (hle : s.offset + s.length ≤ n)
    (hh : s.Holds h) (he : s.extents = []) :
    ∃ a, (s.viewCode h).eval env = some a ∧ a.extents = s.extents ∧
      ∀ is, Within is s.extents → a.cell is = y.cell [s.offset + s.index h is] := by
  have hnil : Within [] s.extents := by
    rw [he]
    exact .nil
  have hlt := index_lt hh hnil
  have hindex : s.index h [] = h.shift 1 := by
    cases hj : s.joint with
    | false =>
      rw [hh.eq_state hj, index_alone hj, he]
      rfl
    | true => exact index_joint_scalar hj he
  have hitem := item_of_vector hn (k := s.offset + h.shift 1) (by omega)
  refine ⟨scalar (y.cell [s.offset + h.shift 1]), ?_, he.symm, fun is hw => ?_⟩
  · simp only [viewCode, he, List.getLast?_nil, Code.eval, hs.1, Option.bind_some, hitem]
  · rw [he] at hw
    cases hw
    rw [hindex]
    rfl

theorem viewCode_alone (hs : s.Sees env y) (hn : y.extents = [n]) (hle : s.offset + s.length ≤ n)
    (hh : s.Holds h) (hj : s.joint = false) (he : s.extents ≠ []) :
    ∃ a, (s.viewCode h).eval env = some a ∧ a.extents = s.extents ∧
      ∀ is, Within is s.extents → a.cell is = y.cell [s.offset + s.index h is] := by
  have hb : s.blockExtents = s.extents := by simp [blockExtents, hj]
  have hp : s.blockExtents.prod = s.length := by rw [hb, length_eq, hj]; rfl
  obtain ⟨b, hcode, hbe, hcells⟩ := blockCode_ok hs.1 hn hle hp
  rw [hb] at hbe hcells
  refine ⟨b, ?_, hbe, fun is hw => ?_⟩
  · simp only [viewCode, hj, List.getLast?_eq_some_getLast he, hcode]
  · rw [hcells is hw, hh.eq_state hj, index_alone hj]

theorem viewCode_joint {ns : List Nat} {l : Nat} (hs : s.Sees env y) (hn : y.extents = [n])
    (hle : s.offset + s.length ≤ n) (hj : s.joint = true) (he : s.extents = ns ++ [l]) :
    ∃ a, (s.viewCode h).eval env = some a ∧ a.extents = s.extents ∧
      ∀ is, Within is s.extents → a.cell is = y.cell [s.offset + s.index h is] := by
  have hb : s.blockExtents = ns ++ [2 * l] := by
    simp [blockExtents, hj, he, doubleLast_concat]
  have hp : s.blockExtents.prod = s.length := by rw [hb, length_joint hj he]
  obtain ⟨b, hcode, hbe, hcells⟩ := blockCode_ok hs.1 hn hle hp
  rw [hb] at hbe hcells
  have hname : env s.blockName = some b := by rw [hs.2 hj (by simp [he]), hcode]
  have hview : ∃ a, (s.viewCode h).eval env = some a ∧ a.extents = s.extents ∧
      ∀ is i, a.cell (is ++ [i]) = b.cell (is ++ [i + h.shift l]) := by
    cases h with
    | state =>
      refine ⟨⟨ns ++ [l], b.cell⟩, ?_, he.symm, fun is i => rfl⟩
      simp only [viewCode, hj, he, List.getLast?_concat, Code.eval, hname, Option.bind_some]
      exact front_concat hbe (by omega)
    | flux =>
      refine ⟨⟨ns ++ [2 * l - l], fun is => b.cell (shiftLast l is)⟩, ?_, ?_, fun is i => ?_⟩
      · simp only [viewCode, hj, he, List.getLast?_concat, Code.eval, hname, Option.bind_some]
        exact back_concat hbe
      · rw [he, show 2 * l - l = l by omega]
      · exact congrArg b.cell (shiftLast_concat l i is)
  obtain ⟨a, ha, hae, hacells⟩ := hview
  refine ⟨a, ha, hae, fun is hw => ?_⟩
  rw [he] at hw
  obtain ⟨js, i, rfl, hjs, hi⟩ := within_concat.1 hw
  have hin : Within (js ++ [i + h.shift l]) (ns ++ [2 * l]) := by
    refine within_concat.2 ⟨js, _, rfl, hjs, ?_⟩
    cases h <;> simp only [Half.shift] <;> omega
  rw [hacells, hcells _ hin, index_joint hj he]

/-- What is taken out of the vector is what lies at the position of each cell. -/
theorem viewCode_ok (hs : s.Sees env y) (hn : y.extents = [n]) (hle : s.offset + s.length ≤ n)
    (hh : s.Holds h) :
    ∃ a, (s.viewCode h).eval env = some a ∧ a.extents = s.extents ∧
      ∀ is, Within is s.extents → a.cell is = y.cell [s.offset + s.index h is] := by
  rcases List.eq_nil_or_concat s.extents with he | ⟨ns, l, he⟩
  · exact viewCode_scalar hs hn hle hh he
  · rw [List.concat_eq_append] at he
    cases hj : s.joint with
    | false => exact viewCode_alone hs hn hle hh hj (by simp [he])
    | true => exact viewCode_joint hs hn hle hj he

theorem storedCode_axes {codes : Half → Code} (hj : s.joint = true) (he : s.extents ≠ []) :
    s.storedCode codes = .flattened (.joined (codes .state) (codes .flux)) := by
  cases hs : s.extents with
  | nil => exact absurd hs he
  | cons n ns => simp only [storedCode, hj, hs]

/-- Put together, each half has its place in the block. -/
theorem storedCode_ok {codes : Half → Code} {parts : Half → Grid (Cell R)}
    (hc : ∀ h, s.Holds h → (codes h).eval env = some (parts h) ∧ (parts h).extents = s.extents) :
    ∃ v, (s.storedCode codes).eval env = some v ∧ v.extents = [s.length] ∧
      ∀ h is, s.Holds h → Within is s.extents → v.cell [s.index h is] = (parts h).cell is := by
  obtain ⟨hstate, hse⟩ := hc .state nofun
  cases hj : s.joint with
  | false =>
    refine ⟨(parts .state).ravel, ?_, ?_, fun h is hh hw => ?_⟩
    · simp only [storedCode, hj, Code.eval, hstate, Option.map_some]
    · rw [length_eq, hj, ← hse]
      rfl
    · rw [hh.eq_state hj, index_alone hj, ← hse]
      exact flat_rowMajor (hse ▸ hw)
  | true =>
    obtain ⟨hflux, hfe⟩ := hc .flux fun _ => hj
    rcases List.eq_nil_or_concat s.extents with he | ⟨ns, m, he⟩
    · obtain ⟨c, hpair, hce, hzero, hone⟩ := pair_of_scalars (hse.trans he) (hfe.trans he)
      refine ⟨c, ?_, ?_, fun h is hh hw => ?_⟩
      · simp only [storedCode, hj, he, Code.eval, hstate, hflux, Option.bind_some, hpair]
      · rw [hce, length_eq, hj, he]
        rfl
      · rw [he] at hw
        cases hw
        rw [index_joint_scalar hj he]
        cases h with
        | state => exact hzero
        | flux => exact hone
    · rw [List.concat_eq_append] at he
      obtain ⟨c, hjoin, hce, hleft, hright⟩ := joined_concat (hse.trans he) (hfe.trans he)
      refine ⟨c.ravel, ?_, ?_, fun h is hh hw => ?_⟩
      · rw [storedCode_axes hj (by simp [he])]
        simp only [Code.eval, hstate, hflux, Option.bind_some, hjoin, Option.map_some]
      · rw [length_joint hj he, Nat.two_mul, ← hce]
        rfl
      · rw [he] at hw
        obtain ⟨js, i, rfl, hjs, hi⟩ := within_concat.1 hw
        have hin : Within (js ++ [i + h.shift m]) c.extents := by
          rw [hce]
          refine within_concat.2 ⟨js, _, rfl, hjs, ?_⟩
          cases h <;> simp only [Half.shift] <;> omega
        rw [index_joint hj he, Nat.two_mul, ← hce]
        refine (flat_rowMajor hin).trans ?_
        cases h with
        | state => exact hleft js i hi
        | flux => exact hright js i

theorem mapM_eval {blocks : List VectorBlock} {c : VectorBlock → Code}
    {f : VectorBlock → Grid (Cell R)} (h : ∀ s ∈ blocks, (c s).eval env = some (f s)) :
    (blocks.map c).mapM (Code.eval env) = some (blocks.map f) := by
  induction blocks with
  | nil => rfl
  | cons s blocks ih =>
    rw [List.map_cons, List.mapM_cons, h s (by simp), ih fun b hb => h b (List.mem_cons_of_mem _ hb)]
    rfl

/-- The parts of all blocks together: every half of every cell has its place. -/
theorem concatenated_ok {blocks : List VectorBlock} {codes : VectorBlock → Half → Code}
    {parts : VectorBlock → Half → Grid (Cell R)} (hst : Stacked 0 blocks) (hne : blocks ≠ [])
    (hc : ∀ s ∈ blocks, ∀ h, s.Holds h →
      (codes s h).eval env = some (parts s h) ∧ (parts s h).extents = s.extents) :
    ∃ v, Code.concatenated env (blocks.map fun s => s.storedCode (codes s)) = some v ∧
      v.extents = [total blocks] ∧
      ∀ s ∈ blocks, ∀ h is, s.Holds h → Within is s.extents →
        v.cell [s.offset + s.index h is] = (parts s h).cell is := by
  have hparts : ∀ s : VectorBlock, ∃ v, s ∈ blocks →
      (s.storedCode (codes s)).eval env = some v ∧ v.extents = [s.length] ∧
        ∀ h is, s.Holds h → Within is s.extents → v.cell [s.index h is] = (parts s h).cell is := by
    intro s
    by_cases hs : s ∈ blocks
    · obtain ⟨v, hv⟩ := storedCode_ok (hc s hs)
      exact ⟨v, fun _ => hv⟩
    · exact ⟨parts s .state, fun hin => absurd hin hs⟩
  choose f hf using hparts
  have hlength : ∀ s ∈ blocks, (f s).extents.prod = s.length := by
    intro s hs
    rw [(hf s hs).2.1, List.prod_singleton]
  have htotal : ∀ bs : List VectorBlock, (∀ s ∈ bs, s ∈ blocks) →
      ((bs.map f).map fun a => a.extents.prod).sum = total bs := by
    intro bs hbs
    rw [List.map_map, total]
    exact congrArg List.sum (List.map_congr_left fun s hs => hlength s (hbs s hs))
  have hvectors : ∀ a ∈ blocks.map f, ∃ n, a.extents = [n] := by
    intro a ha
    obtain ⟨s, hs, rfl⟩ := List.mem_map.1 ha
    exact ⟨_, (hf s hs).2.1⟩
  obtain ⟨v, hv, hve, hcells⟩ := concatenate_ok (by simpa using hne) hvectors
  refine ⟨v, ?_, ?_, fun s hs h is hh hw => ?_⟩
  · rw [Code.concatenated, mapM_eval fun s hs => (hf s hs).1, Option.bind_some, hv]
  · rw [hve, htotal blocks fun s hs => hs]
  · obtain ⟨before, after, hsplit⟩ := List.append_of_mem hs
    have hbefore : ∀ b ∈ before, b ∈ blocks := fun b hb => by simp [hsplit, hb]
    have hindex : s.index h is < (f s).extents.prod := by
      rw [hlength s hs]
      exact index_lt hh hw
    have hat := hcells (before.map f) (f s) (after.map f) (by simp [hsplit]) _ hindex
    rw [htotal before hbefore] at hat
    have hoffset : s.offset = 0 + total before := by
      rw [hsplit] at hst
      exact hst.offset_eq
    rw [← (hf s hs).2.2 h is hh hw, ← hat, hoffset, Nat.zero_add]

/-- The mask of one block is unset at its fluxes only. -/
theorem maskUpdates_ok (env : Environment R) {m : Grid (Cell R)} (hm : m.extents = [n])
    (hle : s.offset + s.length ≤ n)
    (htrue : ∀ k, s.offset ≤ k → k < s.offset + s.length → m.cell [k] = .truth true) :
    ∃ m', Update.runAll env m s.maskUpdates = some m' ∧ m'.extents = [n] ∧
      (∀ k, k < s.offset ∨ s.offset + s.length ≤ k → m'.cell [k] = m.cell [k]) ∧
      ∀ h is, s.Holds h → Within is s.extents →
        m'.cell [s.offset + s.index h is] = .truth (h = .state) := by
  cases hj : s.joint with
  | false =>
    refine ⟨m, ?_, hm, fun k hk => rfl, fun h is hh hw => ?_⟩
    · simp only [maskUpdates, hj, Update.runAll]
    · have hlt := index_lt hh hw
      rw [htrue _ (by omega) (by omega), hh.eq_state hj]
      simp
  | true =>
    by_cases he : s.extents = []
    · have hlen : s.length = 2 := by rw [length_eq, hj, he]; rfl
      obtain ⟨b, hb, hbe, hset, hkept⟩ := setItem_of_vector (x := scalar (.truth false)) hm
        (k := s.offset + 1) (by omega) rfl
      refine ⟨b, ?_, hbe, fun k hk => hkept k (by omega), fun h is hh hw => ?_⟩
      · simp only [maskUpdates, hj, he, Update.runAll, Update.run, Code.eval, Option.bind_some, hb]
      · rw [he] at hw
        cases hw
        rw [index_joint_scalar hj he]
        cases h with
        | state =>
          rw [hkept _ (by simp [Half.shift]), htrue _ (by simp [Half.shift])
            (by simp [Half.shift, hlen])]
          simp
        | flux => exact hset
    · have hhalves : ∀ h, s.Holds h →
          (s.maskHalf h).eval env = some (constant s.extents (.truth (h = .state))) ∧
            (constant s.extents (Cell.truth (R := R) (h = .state))).extents = s.extents := by
        intro h _
        cases h <;> exact ⟨by simp [maskHalf, Code.eval], rfl⟩
      obtain ⟨v, hv, hve, hcells⟩ := storedCode_ok hhalves
      obtain ⟨b, hb, hbe, hset, hkept⟩ := setSlice_of_vector (x := v) hm
        (Nat.le_add_right s.offset s.length) hle (by rw [hve, Nat.add_sub_cancel_left])
      refine ⟨b, ?_, hbe, hkept, fun h is hh hw => ?_⟩
      · cases hs : s.extents with
        | nil => exact absurd hs he
        | cons k ks =>
          simp only [maskUpdates, hj, hs, Update.runAll, Update.run, hv, Option.bind_some, hb]
      · have hlt := index_lt hh hw
        rw [hset _ (by omega) (by omega), Nat.add_sub_cancel_left, hcells h is hh hw]
        rfl

/-- The mask of all blocks, which starts set everywhere. -/
theorem maskAll_ok (env : Environment R) {blocks : List VectorBlock} {o : Nat} {m : Grid (Cell R)}
    (hst : Stacked o blocks) (hm : m.extents = [n]) (hle : o + total blocks ≤ n)
    (htrue : ∀ k, o ≤ k → k < o + total blocks → m.cell [k] = .truth true) :
    ∃ m', Update.runAll env m (blocks.flatMap maskUpdates) = some m' ∧ m'.extents = [n] ∧
      (∀ k, k < o ∨ o + total blocks ≤ k → m'.cell [k] = m.cell [k]) ∧
      ∀ s ∈ blocks, ∀ h is, s.Holds h → Within is s.extents →
        m'.cell [s.offset + s.index h is] = .truth (h = .state) := by
  induction blocks generalizing o m with
  | nil => exact ⟨m, rfl, hm, fun k _ => rfl, fun s hs => nomatch hs⟩
  | cons s blocks ih =>
    obtain ⟨hoff, hrest⟩ := hst
    rw [total_cons] at hle htrue
    have hend : s.offset + s.length ≤ n := by omega
    obtain ⟨m₁, hrun, hm₁, hkept, hown⟩ := maskUpdates_ok env hm hend
      fun k h1 h2 => htrue k (by omega) (by omega)
    obtain ⟨m₂, hrun', hm₂, hkept', hothers⟩ := ih hrest hm₁ (by omega) fun k h1 h2 => by
      rw [hkept k (by omega)]
      exact htrue k (by omega) (by omega)
    refine ⟨m₂, ?_, hm₂, fun k hk => ?_, fun s' hs' h is hh hw => ?_⟩
    · rw [List.flatMap_cons, Update.runAll_append, hrun, Option.bind_some, hrun']
    · rw [total_cons] at hk
      rw [hkept' k (by omega), hkept k (by omega)]
    · rcases List.mem_cons.1 hs' with rfl | hs'
      · have hlt := index_lt hh hw
        rw [hkept' _ (by omega), hown h is hh hw]
      · exact hothers s' hs' h is hh hw

/-- The mask is unset exactly where fluxes lie. -/
theorem mask_ok {blocks : List VectorBlock} (hst : Stacked 0 blocks) (hy : env "_y0" = some y)
    (hye : y.extents = [total blocks]) :
    ∃ m m', (Code.truesFor "_y0").eval env = some m ∧
      Update.runAll env m (blocks.flatMap maskUpdates) = some m' ∧
      m'.extents = [total blocks] ∧
      (∀ k, k < total blocks → (m'.cell [k] = .truth true ∨ m'.cell [k] = .truth false) ∧
        (m'.cell [k] = .truth false ↔ ∃ s ∈ blocks, s.joint = true ∧
          ∃ is, Within is s.extents ∧ k = s.offset + s.index .flux is)) ∧
      ∀ s ∈ blocks, ∀ h is, s.Holds h → Within is s.extents →
        m'.cell [s.offset + s.index h is] = .truth (h = .state) := by
  have hstart : (Code.truesFor "_y0").eval env =
      some (constant [total blocks] (.truth true)) := by
    simp only [Code.eval, hy, Option.map_some, hye, List.prod_singleton]
  have hall : ∀ k, 0 ≤ k → k < 0 + total blocks →
      (constant [total blocks] (Cell.truth (R := R) true)).cell [k] = .truth true :=
    fun k _ _ => rfl
  obtain ⟨m, hrun, hme, -, hcells⟩ := maskAll_ok env hst rfl (by omega) hall
  refine ⟨_, m, hstart, hrun, hme, fun k hk => ?_, hcells⟩
  obtain ⟨s, hs, h, is, hh, hw, rfl⟩ := hst.surjective (Nat.zero_le k) (by omega)
  rw [hcells s hs h is hh hw]
  cases h with
  | flux => exact ⟨.inr rfl, fun _ => ⟨s, hs, hh rfl, is, hw, rfl⟩, fun _ => rfl⟩
  | state =>
    refine ⟨.inl rfl, fun hf => absurd hf (by simp), ?_⟩
    rintro ⟨s', hs', hj, js, hw', he⟩
    -- no state lies where a flux does
    obtain ⟨i, hi⟩ := List.getElem?_of_mem hs
    obtain ⟨j, hj'⟩ := List.getElem?_of_mem hs'
    obtain ⟨-, hhalf, -⟩ := hst.injective hi hj' hh (fun _ => hj) hw hw' he
    cases hhalf

end Meaning

/-- One layout of the flat vector, in which points of states and of fluxes have positions of their
own, and which everything that a program does with the vector goes by. -/
structure Shared (R : Type) [Zero R] (t : Topology) (blocks : List VectorBlock) : Prop where
  injective : ∀ (i j : Nat) (s s' : VectorBlock) q q' h h' k, blocks[i]? = some s →
    blocks[j]? = some s' → q ∈ t.points s.shape → q' ∈ t.points s'.shape →
    s.cellOf t q h = some k → s'.cellOf t q' h' = some k → i = j ∧ q = q' ∧ h = h'
  bounded : ∀ s ∈ blocks, ∀ q ∈ t.points s.shape, ∀ h k, s.cellOf t q h = some k →
    k < total blocks
  /-- row by row in the stored extents, with the fluxes of a joint state behind the states -/
  position : ∀ s ∈ blocks, ∀ q ∈ t.points s.shape, ∀ h k, s.cellOf t q h = some k ↔
    s.Holds h ∧ k = s.offset + s.index h (q.along s.shape.axes)
  /-- what is assigned at a point is assigned to the cell at its coordinates -/
  addressed : ∀ s ∈ blocks, ∀ q ∈ t.points s.shape,
    Within (q.along s.shape.axes) s.extents ∧
      ∀ x, (Place.at x s.shape q).positions = (q.along s.shape.axes).map some
  views : ∀ s ∈ blocks, s.views = (s.viewCodes.map fun v => define v.1 v.2.text) ∧
    ∀ (env : Environment R) y h, y.extents = [total blocks] → s.Sees env y → s.Holds h →
      ∃ a, (s.viewCode h).eval env = some a ∧ a.extents = s.extents ∧
        ∀ q ∈ t.points s.shape, ∀ k, s.cellOf t q h = some k →
          a.cell (q.along s.shape.axes) = y.cell [k]
  derivative : ∀ s ∈ blocks, ∀ (env : Environment R) (parts : VectorBlock → Half → Grid (Cell R)),
    (∀ b ∈ blocks, ∀ h, b.Holds h →
      (b.derivativeHalf h).eval env = some (parts b h) ∧ (parts b h).extents = b.extents) →
    ∃ v, Code.concatenated env (blocks.map fun b => b.storedCode b.derivativeHalf) = some v ∧
      v.extents = [total blocks] ∧
      ∀ q ∈ t.points s.shape, ∀ h k, s.cellOf t q h = some k →
        v.cell [k] = (parts s h).cell (q.along s.shape.axes)
  initial : ∀ s ∈ blocks, ∀ (env : Environment R) (states : VectorBlock → Grid (Cell R)),
    (∀ b ∈ blocks, env (initialName b) = some (states b) ∧ (states b).extents = b.extents) →
    ∃ v, Code.concatenated env (blocks.map fun b => b.storedCode b.initialHalf) = some v ∧
      v.extents = [total blocks] ∧
      ∀ q ∈ t.points s.shape,
        (∀ k, s.cellOf t q .state = some k →
          v.cell [k] = (states s).cell (q.along s.shape.axes)) ∧
        ∀ k, s.cellOf t q .flux = some k → v.cell [k] = .number 0
  mask : ∀ (env : Environment R) y, env "_y0" = some y → y.extents = [total blocks] →
    ∃ m m', (Code.truesFor "_y0").eval env = some m ∧
      Update.runAll env m (blocks.flatMap maskUpdates) = some m' ∧
      m'.extents = [total blocks] ∧
      (∀ k, k < total blocks → (m'.cell [k] = .truth true ∨ m'.cell [k] = .truth false) ∧
        (m'.cell [k] = .truth false ↔ ∃ s ∈ blocks, s.joint = true ∧
          ∃ is, Within is s.extents ∧ k = s.offset + s.index .flux is)) ∧
      ∀ s ∈ blocks, ∀ q ∈ t.points s.shape, ∀ h k, s.cellOf t q h = some k →
        m'.cell [k] = .truth (h = .state)
  /-- these are the vectors, the mask and the rows of the program -/
  texts : ∀ p : Plan, p.states = blocks → p.topology = t →
    p.setInitial = define "_y0" ("np.asarray(" ++
      Code.concatenatedText (blocks.map fun b => b.storedCode b.initialHalf) ++
      ", dtype=float)") ∧
    (∀ body, p.derivativeBody = .ok body → ∃ front, body = front ++ [.line ("return " ++
      Code.concatenatedText (blocks.map fun b => b.storedCode b.derivativeHalf))]) ∧
    (∀ upper, ∃ rest, SolverCode.boundaryValues p.options upper p.states =
      .line ("_is_state = " ++ (Code.truesFor "_y0").text) ::
        (blocks.flatMap maskUpdates).map (fun u => .line (u.text "_is_state")) ++ rest) ∧
    ∀ s ∈ blocks, ∀ q ∈ t.points s.shape, ∀ k,
      (s.cellOf t q .state = some k → (t.indexAt s.variableName q, k) ∈ p.rows) ∧
      (s.cellOf t q .flux = some k → (t.indexAt (s.variableName ++ fluxSuffix) q, k) ∈ p.rows)

section Shared

variable {R : Type} [Zero R] {blocks : List VectorBlock} {t : Topology}

theorem setInitial_eq {p : Plan} (hp : p.states = blocks) :
    p.setInitial = define "_y0" ("np.asarray(" ++
      Code.concatenatedText (blocks.map fun b => b.storedCode b.initialHalf) ++
      ", dtype=float)") := by
  have hparts : blocks.map initialCode =
      (blocks.map fun b => b.storedCode b.initialHalf).map Code.text := by
    rw [List.map_map]
    exact List.map_congr_left fun b _ => b.initialCode_eq
  have hlit : "np.asarray(np.concatenate([" = "np.asarray(" ++ "np.concatenate([" := rfl
  rw [Plan.setInitial, hp, hparts]
  simp only [Code.concatenatedText_eq, toString, String.append_assoc, String.reduceAppend]
  rw [hlit, String.append_assoc]

theorem derivativeBody_ok {p : Plan} (hp : p.states = blocks) {body : List Statement}
    (hb : p.derivativeBody = .ok body) :
    ∃ front, body = front ++ [Statement.line ("return " ++
      Code.concatenatedText (blocks.map fun b => b.storedCode b.derivativeHalf))] := by
  have hparts : blocks.map derivativeCode =
      (blocks.map fun b => b.storedCode b.derivativeHalf).map Code.text := by
    rw [List.map_map]
    exact List.map_congr_left fun b _ => b.derivativeCode_eq
  simp only [Plan.derivativeBody, bind_ok, pure_ok] at hb
  obtain ⟨independent, -, interpolated, -, computations, -, derivatives, -, rfl⟩ := hb
  have hlit : "return np.concatenate([" = "return " ++ "np.concatenate([" := rfl
  refine ⟨_, congrArg _ ?_⟩
  rw [hp, hparts]
  simp only [Code.concatenatedText_eq, toString, String.append_assoc]
  rw [hlit, String.append_assoc]

theorem boundaryValues_eq {p : Plan} (hp : p.states = blocks) (upper : String) :
    ∃ rest, SolverCode.boundaryValues p.options upper p.states =
      Statement.line ("_is_state = " ++ (Code.truesFor "_y0").text) ::
        (blocks.flatMap maskUpdates).map (fun u => Statement.line (u.text "_is_state")) ++
          rest := by
  have hmask : blocks.flatMap SolverCode.maskFlux =
      (blocks.flatMap maskUpdates).map fun u => .line (u.text "_is_state") := by
    rw [List.map_flatMap]
    exact List.flatMap_congr fun b _ => b.maskFlux_eq
  have htext : "_is_state = " ++ (Code.truesFor "_y0").text =
      "_is_state = np.ones(_y0.size, dtype=bool)" := by
    simp only [Code.text_truesFor, String.reduceAppend]
  rw [SolverCode.boundaryValues, hp, hmask, htext]
  exact ⟨_, rfl⟩

theorem mem_rows {p : Plan} {s : VectorBlock} {q : Point} {k : Nat} (hs : s ∈ p.states)
    (hq : q ∈ p.topology.points s.shape) :
    (s.cellOf p.topology q .state = some k →
      (p.topology.indexAt s.variableName q, k) ∈ p.rows) ∧
    (s.cellOf p.topology q .flux = some k →
      (p.topology.indexAt (s.variableName ++ fluxSuffix) q, k) ∈ p.rows) := by
  have hrows : ∀ r ∈ Plan.rowsAt p.topology s q, r ∈ p.rows := by
    intro r hr
    exact List.mem_flatMap.2 ⟨s, hs, List.mem_flatMap.2 ⟨q, hq, hr⟩⟩
  constructor
  · intro hk
    cases hk
    exact hrows _ List.mem_cons_self
  · intro hk
    refine hrows _ (List.mem_cons_of_mem _ ?_)
    rw [show (s.cells p.topology q).2 = some k from hk]
    exact List.mem_singleton_self _

def initialPart (states : VectorBlock → Grid (Cell R)) (b : VectorBlock) : Half → Grid (Cell R)
  | .state => states b
  | .flux => constant b.extents (.number 0)

theorem initialHalf_ok {env : Environment R} {states : VectorBlock → Grid (Cell R)}
    {b : VectorBlock}
    (hb : env (initialName b) = some (states b) ∧ (states b).extents = b.extents) (h : Half) :
    (b.initialHalf h).eval env = some (initialPart states b h) ∧
      (initialPart states b h).extents = b.extents := by
  obtain ⟨hvalue, hext⟩ := hb
  cases h with
  | state => exact ⟨hvalue, hext⟩
  | flux =>
    refine ⟨?_, rfl⟩
    cases he : b.extents with
    | nil =>
      simp only [initialHalf, initialPart, he, List.isEmpty_nil, if_pos, Code.eval]
      rfl
    | cons n ns =>
      simp [initialHalf, initialPart, he, Code.eval, hvalue, hext]

/-- The states of every plant are laid out once for all. -/
theorem layAll_shared {plant : Plant} {n n' : Names} {joint : Bool}
    {states : List StateEquation} (ht : Topology.ofPlant plant = .ok t)
    (hl : layAll t n joint 0 states = .ok (n', blocks)) : Shared R t blocks := by
  have hplaced := Topology.ofPlant_placed ht
  obtain ⟨hst, hext⟩ := layAll_ok hl
  have hposition : ∀ s ∈ blocks, ∀ q ∈ t.points s.shape, ∀ h k, s.cellOf t q h = some k ↔
      s.Holds h ∧ k = s.offset + s.index h (q.along s.shape.axes) :=
    fun s hs q hq h k => cellOf_eq (hext s hs)
  have hwithin : ∀ s ∈ blocks, ∀ q ∈ t.points s.shape, Within (q.along s.shape.axes) s.extents := by
    intro s hs q hq
    rw [hext s hs]
    exact Topology.along_within hplaced hq
  constructor
  case injective =>
    intro i j s s' q q' h h' k hi hj hq hq' hk hk'
    have hs := List.mem_of_getElem? hi
    have hs' := List.mem_of_getElem? hj
    obtain ⟨hh, rfl⟩ := (hposition s hs q hq h k).1 hk
    obtain ⟨hh', he⟩ := (hposition s' hs' q' hq' h' _).1 hk'
    obtain ⟨rfl, rfl, hcoordinates⟩ := hst.injective hi hj hh hh' (hwithin s hs q hq)
      (hwithin s' hs' q' hq') he
    rw [hi] at hj
    cases hj
    exact ⟨rfl, Topology.along_injective hplaced hq hq' hcoordinates, rfl⟩
  case bounded =>
    intro s hs q hq h k hk
    obtain ⟨hh, rfl⟩ := (hposition s hs q hq h k).1 hk
    have hlt := index_lt hh (hwithin s hs q hq)
    have hend := (hst.bounds hs).2
    omega
  case position => exact hposition
  case addressed =>
    intro s hs q hq
    exact ⟨hwithin s hs q hq, fun x => Topology.accessPositions_points hplaced hq⟩
  case views =>
    intro s hs
    refine ⟨s.views_eq, fun env y h hy hsees hh => ?_⟩
    have hend := (hst.bounds hs).2
    obtain ⟨a, ha, hae, hcells⟩ := viewCode_ok hsees hy (by omega) hh
    refine ⟨a, ha, hae, fun q hq k hk => ?_⟩
    obtain ⟨-, rfl⟩ := (hposition s hs q hq h k).1 hk
    exact hcells _ (hwithin s hs q hq)
  case derivative =>
    intro s hs env parts hparts
    obtain ⟨v, hv, hve, hcells⟩ := concatenated_ok hst (List.ne_nil_of_mem hs) hparts
    refine ⟨v, hv, hve, fun q hq h k hk => ?_⟩
    obtain ⟨hh, rfl⟩ := (hposition s hs q hq h k).1 hk
    exact hcells s hs h _ hh (hwithin s hs q hq)
  case initial =>
    intro s hs env values hvalues
    have hparts : ∀ b ∈ blocks, ∀ h, b.Holds h →
        (b.initialHalf h).eval env = some (initialPart values b h) ∧
          (initialPart values b h).extents = b.extents :=
      fun b hb h _ => initialHalf_ok (hvalues b hb) h
    obtain ⟨v, hv, hve, hcells⟩ := concatenated_ok hst (List.ne_nil_of_mem hs) hparts
    refine ⟨v, hv, hve, fun q hq => ⟨fun k hk => ?_, fun k hk => ?_⟩⟩
    · obtain ⟨hh, rfl⟩ := (hposition s hs q hq .state k).1 hk
      exact hcells s hs .state _ hh (hwithin s hs q hq)
    · obtain ⟨hh, rfl⟩ := (hposition s hs q hq .flux k).1 hk
      exact hcells s hs .flux _ hh (hwithin s hs q hq)
  case mask =>
    intro env y hy hye
    obtain ⟨m, m', hm, hrun, hext', hflux, hcells⟩ := mask_ok hst hy hye
    refine ⟨m, m', hm, hrun, hext', hflux, fun s hs q hq h k hk => ?_⟩
    obtain ⟨hh, rfl⟩ := (hposition s hs q hq h k).1 hk
    exact hcells s hs h _ hh (hwithin s hs q hq)
  case texts =>
    intro p hp ht
    refine ⟨setInitial_eq hp, fun body => derivativeBody_ok hp, boundaryValues_eq hp,
      fun s hs q hq k => ?_⟩
    rw [← hp] at hs
    rw [← ht] at hq ⊢
    exact mem_rows hs hq

/-- Two streams, one of which holds one species only. -/
def filmPlant : Plant :=
  { Plant.empty with
    species := ["A", "B"], streams := Dict.ofList [("Liquid", ["A", "B"]), ("Side", ["B"])] }

def filmNames : Names :=
  ⟨Dict.ofList [("C", ⟨"C", .streamSpecies⟩), ("T", ⟨"T", .scalar⟩)],
    Dict.ofList [("Concentration", "C"), ("Temperature", "T")]⟩

def filmStates : List StateEquation :=
  [⟨"Concentration", "Balance", none⟩, ⟨"Temperature", "Heat", none⟩]

theorem layAll_shared_film : ∃ t n' blocks, Topology.ofPlant filmPlant = .ok t ∧
    layAll t filmNames true 0 filmStates = .ok (n', blocks) ∧ total blocks = 9 ∧
    Shared Nat t blocks := by
  refine ⟨_, _, _, rfl, rfl, rfl, ?_⟩
  exact layAll_shared (rfl : Topology.ofPlant filmPlant = _)
    (rfl : layAll _ filmNames true 0 filmStates = _)

end Shared

end VectorBlock

end Program

end Kinetics
