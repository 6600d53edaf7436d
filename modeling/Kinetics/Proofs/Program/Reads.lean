import Kinetics.Proofs.Dict
import Kinetics.Proofs.Program.Plan
import Kinetics.Proofs.Reaction.Stoichiometry
import Kinetics.Simulation

/-!
# Kinetics.Proofs.Program.Reads

What a program reads from the parameter table. The inputs and the initial states are read point by
point, each under the index of its point; nothing else in a program reads the table.
-/

namespace Kinetics

namespace Program

open Statement

variable {k : ParameterIndex} {ss : List Statement}

theorem mem_keysReadBy : k ∈ keysReadBy ss ↔ ∃ st ∈ ss, k ∈ keysRead st := by
  induction ss with
  | nil => simp [keysReadBy]
  | cons st ss ih => simp [keysReadBy, ih]

/-- Statements that do not read the table. -/
def Quiet (ss : List Statement) : Prop :=
  ∀ st ∈ ss, keysRead st = []

theorem Quiet.keys (h : Quiet ss) : keysReadBy ss = [] := by
  rw [List.eq_nil_iff_forall_not_mem]
  intro k hk
  obtain ⟨st, hst, hin⟩ := mem_keysReadBy.1 hk
  rw [h st hst] at hin
  cases hin

theorem keysReadBy_append (ss ts : List Statement) :
    keysReadBy (ss ++ ts) = keysReadBy ss ++ keysReadBy ts := by
  induction ss with
  | nil => rfl
  | cons st ss ih => rw [List.cons_append, keysReadBy, keysReadBy, ih, List.append_assoc]

theorem mem_keysReadBy_collect {α : Type} {f : α → Except Fault (List Statement)} {as : List α}
    (h : collect f as = .ok ss) :
    k ∈ keysReadBy ss ↔ ∃ a ∈ as, ∃ bs, f a = .ok bs ∧ k ∈ keysReadBy bs := by
  simp only [mem_keysReadBy, mem_collect h]
  constructor
  · rintro ⟨st, ⟨a, ha, bs, hbs, hst⟩, hk⟩
    exact ⟨a, ha, bs, hbs, st, hst, hk⟩
  · rintro ⟨a, ha, bs, hbs, st, hst, hk⟩
    exact ⟨st, ⟨a, ha, bs, hbs, hst⟩, hk⟩

/-- Reading a variable takes the index of every point of its shape. -/
theorem keysReadBy_readsOf (t : Topology) (target name : String) (s : Shape) :
    keysReadBy (readsOf t target name s) = t.indicesOver name s := by
  unfold readsOf
  split
  · rename_i hs
    have hscalar : s = .scalar := by simpa [Shape.isScalar] using hs
    subst hscalar
    rfl
  · have hpoints : ∀ qs : List Point,
        keysReadBy (qs.map fun q => .read (.at target s q) (t.indexAt name q)) =
          qs.map (t.indexAt name) := by
      intro qs
      induction qs with
      | nil => rfl
      | cons q qs ih =>
        rw [List.map_cons, List.map_cons, keysReadBy, ih]
        rfl
    rw [keysReadBy, hpoints]
    rfl

/-- The names that a block of states has in the result. -/
def VectorBlock.resultNames (b : VectorBlock) : List String :=
  b.variableName :: if b.joint then [b.variableName ++ fluxSuffix] else []

namespace Plan

variable {p : Plan} {b : VectorBlock} {t : Topology} {q : Point}

theorem quiet_assignments {target : String} {s : Shape} {law : Point → Option String}
    (h : p.assignments target s law = .ok ss) : Quiet ss := by
  unfold assignments at h
  split at h
  · split at h
    · cases h
      simp [Quiet, define, keysRead]
    · simp only [bind_ok, pure_ok] at h
      obtain ⟨code, -, rfl⟩ := h
      simp [Quiet, define, keysRead]
  · simp only [bind_ok, pure_ok] at h
    obtain ⟨points, hp, rfl⟩ := h
    have hpoints : Quiet points := forall_of_collect hp fun q _ bs hbs => by
      split at hbs
      · cases hbs
        simp
      · simp only [bind_ok, pure_ok] at hbs
        obtain ⟨code, -, rfl⟩ := hbs
        simp [keysRead]
    intro st hst
    rcases List.mem_cons.1 hst with rfl | hst
    · rfl
    · exact hpoints st hst

theorem quiet_compute {name : String} (h : p.compute name = .ok ss) : Quiet ss := by
  simp only [compute, bind_ok] at h
  obtain ⟨b, -, d, -, h⟩ := h
  split at h
  · exact quiet_assignments h
  · cases h
    simp [Quiet]

theorem quiet_differentiate {s : VectorBlock} (h : p.differentiate s = .ok ss) : Quiet ss := by
  unfold differentiate at h
  split at h
  · simp only [bind_ok, pure_ok] at h
    obtain ⟨flux, hf, rfl⟩ := h
    intro st hst
    rcases List.mem_cons.1 hst with rfl | hst
    · rfl
    · exact quiet_assignments hf st hst
  · exact quiet_assignments h

theorem quiet_views (s : VectorBlock) : Quiet s.views := by
  unfold VectorBlock.views
  split <;> simp [Quiet, define, keysRead]

theorem quiet_derivativeBody (h : p.derivativeBody = .ok ss) : Quiet ss := by
  simp only [derivativeBody, bind_ok, pure_ok] at h
  obtain ⟨independent, -, interpolated, -, computations, hc, derivatives, hd, rfl⟩ := h
  intro st hst
  simp only [List.mem_append, List.mem_cons, List.mem_map, List.mem_flatMap,
    List.not_mem_nil, or_false] at hst
  rcases hst with (((( rfl | ⟨name, -, rfl⟩) | ⟨s, -, hst⟩) | hst) | hst) | rfl
  · rfl
  · rfl
  · exact quiet_views s st hst
  · exact forall_of_collect hc (fun _ _ _ hbs => quiet_compute hbs) st hst
  · exact forall_of_collect hd (fun _ _ _ hbs => quiet_differentiate hbs) st hst
  · rfl

/-- A constant is set to a number, or to an array of it. -/
theorem setConstant_ok {variableName : String} {st : Statement}
    (h : p.setConstant variableName = .ok st) :
    ∃ b y, p.names.entryOf variableName = .ok b ∧
      st = define b.name (if b.shape.isScalar then floatLiteral y
        else "np.full(" ++ shapeLiteral (p.topology.extents b.shape) ++ ", " ++ floatLiteral y ++
          ")") := by
  simp only [setConstant, bind_ok] at h
  obtain ⟨v, -, h⟩ := h
  split at h
  · cases h
  · simp only [bind_ok, pure_ok] at h
    obtain ⟨b, hb, rfl⟩ := h
    exact ⟨b, _, hb, rfl⟩

theorem exists_of_mem_setConstants {st : Statement} (h : p.setConstants = .ok ss) (hst : st ∈ ss) :
    ∃ variableName, p.model.definitions.find? variableName = some .constant ∧
      p.setConstant variableName = .ok st := by
  obtain ⟨⟨name, d⟩, hm, bs, hbs, hst⟩ := (mem_collect h).1 hst
  dsimp only at hbs
  split at hbs
  · rename_i hd
    simp only [bind_ok, pure_ok] at hbs
    obtain ⟨own, hown, rfl⟩ := hbs
    cases eq_of_beq hd
    cases List.mem_singleton.1 hst
    exact ⟨name, Dict.find?_eq_some_iff.2 hm, hown⟩
  · cases hbs
    cases hst

theorem quiet_setConstants (h : p.setConstants = .ok ss) : Quiet ss := by
  intro st hst
  obtain ⟨_, -, hset⟩ := exists_of_mem_setConstants h hst
  obtain ⟨b, y, -, rfl⟩ := setConstant_ok hset
  rfl

theorem quiet_interpolate (h : p.interpolate = .ok ss) : Quiet ss := by
  simp only [interpolate, bind_ok, pure_ok] at h
  obtain ⟨upper, -, names, -, rfl⟩ := h
  simp [Quiet, define, keysRead, keysReadBy]

theorem quiet_solve (h : p.solve = .ok ss) : Quiet ss := by
  simp only [solve, bind_ok, pure_ok] at h
  obtain ⟨upper, -, rfl⟩ := h
  split
  · have hmask : ∀ s, Quiet (SolverCode.maskFlux s) := by
      intro s
      unfold SolverCode.maskFlux
      split
      · split <;> simp [Quiet, keysRead]
      · simp [Quiet]
    intro st hst
    simp only [SolverCode.boundaryValues, List.mem_append, List.mem_flatMap] at hst
    rcases hst with (hst | ⟨s, -, hst⟩) | hst
    · cases List.mem_singleton.1 hst
      rfl
    · exact hmask s st hst
    · revert st
      simp [keysRead, keysReadBy, checkSolution]
  · split <;>
      simp [Quiet, SolverCode.segments, SolverCode.single, SolverCode.integrate, checkSolution,
        keysRead, keysReadBy]

theorem quiet_storeResults (p : Plan) : Quiet p.storeResults := by
  intro st hst
  simp only [storeResults, List.mem_append, List.mem_cons, List.mem_map, List.not_mem_nil,
    or_false] at hst
  rcases hst with ((rfl | rfl) | ⟨r, -, rfl⟩) | rfl <;> rfl

theorem exists_of_mem_readInputs {st : Statement} (h : p.readInputs = .ok ss) (hst : st ∈ ss) :
    ∃ variableName b, p.model.definitions.find? variableName = some .leaf ∧
      p.names.entryOf variableName = .ok b ∧
      st ∈ readsOf p.topology b.name variableName b.shape := by
  obtain ⟨⟨name, d⟩, hm, bs, hbs, hst⟩ := (mem_collect h).1 hst
  dsimp only at hbs
  split at hbs
  · rename_i hd
    simp only [bind_ok, pure_ok] at hbs
    obtain ⟨b, hb, rfl⟩ := hbs
    cases eq_of_beq hd
    exact ⟨name, b, Dict.find?_eq_some_iff.2 hm, hb, hst⟩
  · cases hbs
    cases hst

theorem mem_readInputs (h : p.readInputs = .ok ss) :
    k ∈ keysReadBy ss ↔ ∃ name b, p.model.definitions.find? name = some .leaf ∧
      p.names.entryOf name = .ok b ∧ k ∈ p.topology.indicesOver name b.shape := by
  constructor
  · intro hk
    obtain ⟨st, hst, hk⟩ := mem_keysReadBy.1 hk
    obtain ⟨name, b, hd, hb, hst⟩ := exists_of_mem_readInputs h hst
    refine ⟨name, b, hd, hb, ?_⟩
    rw [← keysReadBy_readsOf p.topology b.name]
    exact mem_keysReadBy.2 ⟨st, hst, hk⟩
  · rintro ⟨name, b, hf, hb, hk⟩
    rw [mem_keysReadBy_collect h]
    refine ⟨(name, .leaf), Dict.find?_eq_some_iff.1 hf, readsOf p.topology b.name name b.shape,
      ?_, ?_⟩
    · simp [hb, bind, Except.bind, pure, Except.pure]
    · rw [keysReadBy_readsOf]
      exact hk

theorem mem_readStates :
    k ∈ keysReadBy p.readStates ↔
      ∃ s ∈ p.states, k ∈ p.topology.indicesOver s.variableName s.shape := by
  rw [readStates]
  induction p.states with
  | nil => simp [keysReadBy]
  | cons s states ih =>
    rw [List.flatMap_cons, keysReadBy_append, List.mem_append, ih, keysReadBy_readsOf]
    simp

theorem mem_prepare (h : p.prepare = .ok ss) :
    ∃ inputs, p.readInputs = .ok inputs ∧
      (k ∈ keysReadBy ss ↔ k ∈ keysReadBy inputs ∨ k ∈ keysReadBy p.readStates) := by
  simp only [prepare, bind_ok] at h
  obtain ⟨constants, hc, inputs, hi, h⟩ := h
  have hparts : ∃ interpolation, Quiet interpolation ∧
      constants ++ inputs ++ p.readStates ++ interpolation ++ [p.setInitial] = ss := by
    split at h
    · simp only [bind_ok, pure_ok] at h
      obtain ⟨interpolation, hn, rfl⟩ := h
      exact ⟨interpolation, quiet_interpolate hn, rfl⟩
    · cases h
      exact ⟨[], List.forall_mem_nil _, rfl⟩
  obtain ⟨interpolation, hn, rfl⟩ := hparts
  refine ⟨inputs, hi, ?_⟩
  simp only [keysReadBy_append, (quiet_setConstants hc).keys, hn.keys]
  simp [setInitial, define, keysReadBy, keysRead]

/-- The keys of a point are its index under each name of the block. -/
theorem keys_rowsAt :
    (rowsAt t b q).map Prod.fst = b.resultNames.map fun name => t.indexAt name q := by
  have hflux : (b.cells t q).2.isSome = b.joint := by
    unfold VectorBlock.cells
    split
    · cases b.joint <;> rfl
    · cases b.joint <;> rfl
  cases hrow : (b.cells t q).2 with
  | none =>
    rw [hrow] at hflux
    simp [rowsAt, VectorBlock.resultNames, hrow, ← hflux]
  | some row =>
    rw [hrow] at hflux
    simp [rowsAt, VectorBlock.resultNames, hrow, ← hflux]

theorem keys_rows : p.rows.map Prod.fst = p.states.flatMap fun b =>
    (p.topology.points b.shape).flatMap fun q =>
      b.resultNames.map fun name => p.topology.indexAt name q := by
  simp only [rows, List.map_flatMap, keys_rowsAt]

/-- The keys of the rows: the points of states and, of a joint one, those of its flux. -/
theorem mem_rows_keys :
    k ∈ p.rows.map Prod.fst ↔ ∃ b ∈ p.states, k ∈ p.topology.indicesOver b.variableName b.shape ∨
      b.joint = true ∧ k ∈ p.topology.indicesOver (b.variableName ++ fluxSuffix) b.shape := by
  simp only [keys_rows, Topology.indicesOver, List.mem_flatMap, List.mem_map]
  refine exists_congr fun b => and_congr_right fun _ => ?_
  cases hj : b.joint with
  | false => simp [VectorBlock.resultNames, hj]
  | true => simp [VectorBlock.resultNames, hj, and_or_left, exists_or, eq_comm]

end Plan

end Program

end Kinetics
