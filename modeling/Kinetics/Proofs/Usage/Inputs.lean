import Kinetics.Proofs.Usage.Solver

/-!
# Kinetics.Proofs.Usage.Inputs

What the first part of a program reads. Constants and inputs need nothing of the model but an array
that was set up for the entries read into it. The time series reads the upper limit and the inputs
that follow it, and the initial vector reads the initial values of the states.
-/

namespace Kinetics

namespace Program

open Statement Scan Text

section Reads

variable {t : Topology} {x variableName : String} {s : Shape} {given : List String}

theorem words_zeros (t : Topology) (s : Shape) : words (zerosCode t s) = ["np"] := by
  have hopen : Scans .between "np.zeros(" ["np"] .between := by decide
  have hclose : Scans .between ")" [] .between := by decide
  have hall := hopen.append ((scans_shape (t.extents s)).append hclose)
  rw [zerosCode, String.append_assoc, hall.words]
  rfl

/-- The value of a constant reads nothing, be it one number or an array of it. -/
theorem known_constant (y : Float) (ns : List Nat) : (∀ w ∈ words (floatLiteral y), Known w) ∧
    ∀ w ∈ words ("np.full(" ++ shapeLiteral ns ++ ", " ++ floatLiteral y ++ ")"), Known w := by
  obtain ⟨-, ws, hws, hfloat⟩ := scans_float y
  have hfits : Fits (floatLiteral y) ws := ⟨.attribute, .inr rfl, hfloat⟩
  have hopen : Scans .between "np.full(" ["np"] .between := by decide
  have hcomma : Scans .between ", " [] .between := by decide
  have hclose : Scans .between ")" [] .between := by decide
  have hall := hopen.append ((scans_shape ns).append (hcomma.append
    (hfits.followed (by decide) hclose)))
  simp only [String.append_assoc]
  rw [hfits.words, hall.words]
  simp only [Mode.close, List.append_nil, List.nil_append, List.forall_mem_append]
  exact ⟨known_np hws, by decide, known_np hws⟩

/-- Reading entries of the table needs the array that is set up for them. -/
theorem supplied_readsOf : Supplied given (readsOf t x variableName s) := by
  have hread : ∀ y ∈ ["_value", "parameter_table"], Known y := by decide
  have hzeros : (define x (zerosCode t s)).Idle :=
    idle_define (by rw [words_zeros]; decide)
  unfold readsOf
  split
  · exact Asks.supplied (.cons (fun y hy => .inl (hread y hy)) nofun)
  · refine ⟨idle_asks hzeros, Asks.supplied fun st hst y hy => ?_⟩
    obtain ⟨q, -, rfl⟩ := List.mem_map.1 hst
    rcases List.mem_append.1 hy with hy | hy
    · unfold partReads at hy
      split at hy
      · cases hy
      · exact .inr (List.mem_append_right _ hy)
    · exact .inl (hread y hy)

theorem mem_targets_readsOf {y : String} :
    y ∈ targetsBy (readsOf t x variableName s) ↔ y = x := by
  unfold readsOf
  split
  · exact List.mem_singleton
  · rw [targetsBy, List.mem_append, mem_targetsBy]
    constructor
    · rintro (hy | ⟨st, hst, hy⟩)
      · exact List.mem_singleton.1 hy
      · obtain ⟨q, -, rfl⟩ := List.mem_map.1 hst
        exact List.mem_singleton.1 hy
    · exact fun hy => .inl (List.mem_singleton.2 hy)

/-- What is assigned by the statements collected over a list. -/
theorem mem_targets_collect {α : Type} {f : α → Except Fault (List Statement)} {as : List α}
    {ss : List Statement} (h : collect f as = .ok ss) :
    x ∈ targetsBy ss ↔ ∃ a ∈ as, ∃ bs, f a = .ok bs ∧ x ∈ targetsBy bs := by
  simp only [mem_targetsBy, mem_collect h]
  constructor
  · rintro ⟨st, ⟨a, ha, bs, hbs, hst⟩, hx⟩
    exact ⟨a, ha, bs, hbs, st, hst, hx⟩
  · rintro ⟨a, ha, bs, hbs, st, hst, hx⟩
    exact ⟨st, ⟨a, ha, bs, hbs, hst⟩, hx⟩

end Reads

theorem isIdentifier_initialName {b : VectorBlock} (h : IsIdentifier b.name) :
    IsIdentifier (initialName b) := by
  have hlow : ∀ c ∈ "_".toList, isIdentifierContinue c = true :=
    List.forall_mem_singleton.2 isIdentifierContinue_underscore
  exact (SolverCode.isIdentifier_start.1.append hlow).append h.2

/-- The initial values of a block are put together from those of its state. -/
theorem VectorBlock.fits_initialCode (b : VectorBlock) (h : IsIdentifier b.name) :
    ∃ ws, Fits b.initialCode ws ∧ ∀ w ∈ ws, w = "np" ∨ w = initialName b := by
  have hn := isIdentifier_initialName h
  have hclose : Scans .between ")" [] .between := by decide
  have hravel : Scans .between "np.ravel(" ["np"] .between := by decide
  have harray : Scans .between "np.array([" ["np"] .between := by decide
  have hzero : Scans .between ", 0.0])" [] .between := by decide
  have hjoin : Scans .between "np.concatenate([" ["np"] .between := by decide
  have hzeros : Scans .between ", np.zeros_like(" ["np"] .between := by decide
  have hend : Scans .between ")], axis=-1).ravel()" [] .between := by decide
  unfold initialCode
  simp only [toString, String.append_assoc]
  split
  · exact ⟨_, ⟨.between, .inl rfl, scans_around hravel hn (by decide) hclose⟩, by simp⟩
  · exact ⟨_, ⟨.between, .inl rfl, scans_around harray hn (by decide) hzero⟩, by simp⟩
  · exact ⟨_, ⟨.between, .inl rfl, scans_around hjoin hn (Delimited.append (by decide))
      (scans_around hzeros hn (by decide) hend)⟩, by simp⟩

namespace Plan

variable {p : Plan} {ss : List Statement} {given : List String}

theorem supplied_setConstants (h : p.setConstants = .ok ss) : Supplied given ss := by
  refine Asks.supplied (asks_idle fun st hst => ?_)
  obtain ⟨_, -, hset⟩ := exists_of_mem_setConstants h hst
  obtain ⟨b, y, -, rfl⟩ := setConstant_ok hset
  refine idle_define ?_
  split
  · exact (known_constant y []).1
  · exact (known_constant y _).2

theorem supplied_readInputs (h : p.readInputs = .ok ss) : Supplied given ss := by
  refine supplied_collect h fun e _ bs hbs => ?_
  obtain ⟨name, d⟩ := e
  dsimp only at hbs
  split at hbs
  · simp only [bind_ok, pure_ok] at hbs
    obtain ⟨b, -, rfl⟩ := hbs
    exact supplied_readsOf
  · cases hbs
    trivial

theorem supplied_readStates : Supplied given p.readStates :=
  supplied_flatMap fun _ _ => supplied_readsOf

/-- The time series reads the upper limit. -/
theorem words_series {upper : String} (hu : IsIdentifier upper) :
    words s!"np.atleast_1d(np.asarray({upper}, dtype=float))" = ["np", "np", upper, "float"] := by
  have hstart : Scans .between "np.atleast_1d(np.asarray(" ["np", "np"] .between := by
    decide
  have hend : Scans .between ", dtype=float))" ["float"] .between := by decide
  have hall := scans_around hstart hu (by decide) hend
  simp only [toString, String.append_assoc]
  exact hall.words

theorem words_interpolator {name : String} (hn : IsIdentifier name) :
    words ("interp1d(_T, " ++ s!"np.broadcast_to(np.asarray({name}, dtype=float), _T.shape)" ++
      ", fill_value='extrapolate')") =
      ["interp1d", "_T", "np", "np", name, "float", "_T"] := by
  have hstart : Scans .between "interp1d(_T, " ["interp1d", "_T"] .between := by decide
  have hopen : Scans .between "np.broadcast_to(np.asarray(" ["np", "np"] .between := by
    decide
  have hend : Scans .between ", dtype=float), _T.shape)" ["float", "_T"] .between := by
    decide
  have hfill : Scans .between ", fill_value='extrapolate')" [] .between := by decide
  have hall := hstart.append (scans_around hopen hn (Delimited.append (by decide))
    (hend.append hfill))
  simp only [toString, String.append_assoc]
  exact hall.words

/-- Setting up the interpolation reads the upper limit and the inputs that follow the series. -/
theorem asks_interpolate {upper : String} {names : List String} (h : p.interpolate = .ok ss)
    (hupper : p.nameIn p.model.upperLimit = .ok upper) (hnames : p.interpolated = .ok names)
    (hu : IsIdentifier upper) (hn : ∀ name ∈ names, IsIdentifier name) :
    Asks (upper :: names) ss ∧ (upper ≠ "for" → upper ∈ readsBy ss) := by
  simp only [interpolate, bind_ok, pure_ok, hupper, hnames, Except.ok.injEq, exists_eq_left'] at h
  subst h
  have hseries : ∀ w ∈ ["np", "np", upper, "float"], Known w ∨ w = upper := by
    simp only [List.forall_mem_cons]
    exact ⟨.inl (by decide), .inl (by decide), .inr trivial,
      .inl (by decide), List.forall_mem_nil _⟩
  have hshort : (Statement.block "if _T.size < 2:" [.line "return None"]).Idle := by decide
  constructor
  · refine .cons (fun x hx => ?_) (.cons (idle_asks hshort) fun st hst x hx => ?_)
    · have hx := words_of_define hx
      rw [words_series hu] at hx
      refine (hseries x hx).imp_right ?_
      rintro rfl
      exact List.mem_cons_self
    · obtain ⟨name, hname, rfl⟩ := List.mem_map.1 hst
      have hx := words_of_define hx
      rw [words_interpolator (hn name hname)] at hx
      have hinterpolator : ∀ w ∈ ["interp1d", "_T", "np", "np", name, "float", "_T"],
          Known w ∨ w = name := by
        simp only [List.forall_mem_cons]
        exact ⟨.inl (by decide), .inl (by decide), .inl (by decide),
          .inl (by decide), .inr trivial, .inl (by decide), .inl (by decide),
          List.forall_mem_nil _⟩
      refine (hinterpolator x hx).imp_right ?_
      rintro rfl
      exact List.mem_cons_of_mem _ hname
  · intro hne
    refine mem_readsBy.2 ⟨_, List.mem_cons_self, ?_⟩
    rw [reads_define, codeReads_eq, words_series hu]
    · simp
    · rw [words_series hu]
      simpa using hne.symm

/-- The initial vector reads the initial values of the states. -/
theorem asks_setInitial (hstates : ∀ b ∈ p.states, IsIdentifier b.name) :
    Asks (p.states.map initialName) [p.setInitial] := by
  have hstart : Scans .between "np.asarray(np.concatenate([" ["np", "np"] .between := by
    decide
  have hend : Scans .between "]), dtype=float)" ["float"] .between := by decide
  have hparts : Fits (Text.joinWith ", " (p.states.map VectorBlock.initialCode))
      ((p.states.map VectorBlock.initialCode).flatMap words) := by
    refine fits_joined fun s hs => ?_
    obtain ⟨b, hb, rfl⟩ := List.mem_map.1 hs
    obtain ⟨ws, hws, -⟩ := VectorBlock.fits_initialCode b (hstates b hb)
    exact ⟨ws, hws⟩
  have hall := hstart.append (hparts.followed (by decide) hend)
  refine List.forall_mem_singleton.2 fun x hx => ?_
  rw [Plan.setInitial] at hx
  have hx := words_of_define hx
  simp only [toString, String.append_assoc] at hx
  rw [hall.words] at hx
  simp only [Mode.close, List.append_nil, List.mem_append, List.mem_flatMap, List.mem_map,
    exists_exists_and_eq_and] at hx
  rcases hx with hx | ⟨b, hb, hx⟩ | hx
  · exact .inl ((by decide : ∀ w ∈ ["np", "np"], Known w) x hx)
  · obtain ⟨ws, hws, hall⟩ := VectorBlock.fits_initialCode b (hstates b hb)
    rw [hws.words] at hx
    rcases hall x hx with rfl | rfl
    · exact .inl (by decide)
    · exact .inr (List.mem_map_of_mem hb)
  · exact .inl ((by decide : ∀ w ∈ ["float"], Known w) x hx)

section Targets

variable {x : String}

theorem mem_targets_setConstants (h : p.setConstants = .ok ss) : x ∈ targetsBy ss ↔
    ∃ name b, p.model.definitions.find? name = some .constant ∧ p.names.entryOf name = .ok b ∧
      b.name = x := by
  constructor
  · intro hx
    obtain ⟨st, hst, hx⟩ := mem_targetsBy.1 hx
    obtain ⟨name, hd, hset⟩ := exists_of_mem_setConstants h hst
    obtain ⟨b, _, hb, rfl⟩ := setConstant_ok hset
    exact ⟨name, b, hd, hb, (List.mem_singleton.1 hx).symm⟩
  · rintro ⟨name, b, hd, hb, rfl⟩
    have hmem := Dict.find?_eq_some_iff.1 hd
    obtain ⟨own, hown⟩ := exists_of_collect h hmem
    refine (mem_targets_collect h).2 ⟨_, hmem, own, hown, ?_⟩
    simp only [beq_self_eq_true, if_true, bind_ok, pure_ok] at hown
    obtain ⟨st, hst, rfl⟩ := hown
    obtain ⟨b', _, hb', rfl⟩ := setConstant_ok hst
    rw [hb] at hb'
    cases hb'
    exact List.mem_singleton_self b.name

theorem mem_targets_readInputs (h : p.readInputs = .ok ss) : x ∈ targetsBy ss ↔
    ∃ name b, p.model.definitions.find? name = some .leaf ∧ p.names.entryOf name = .ok b ∧
      b.name = x := by
  constructor
  · intro hx
    obtain ⟨st, hst, hx⟩ := mem_targetsBy.1 hx
    obtain ⟨name, b, hd, hb, hst⟩ := exists_of_mem_readInputs h hst
    exact ⟨name, b, hd, hb, (mem_targets_readsOf.1 (mem_targetsBy.2 ⟨st, hst, hx⟩)).symm⟩
  · rintro ⟨name, b, hd, hb, rfl⟩
    have hmem := Dict.find?_eq_some_iff.1 hd
    obtain ⟨own, hown⟩ := exists_of_collect h hmem
    refine (mem_targets_collect h).2 ⟨_, hmem, own, hown, ?_⟩
    simp only [beq_self_eq_true, if_true, bind_ok, pure_ok] at hown
    obtain ⟨b', hb', rfl⟩ := hown
    rw [hb] at hb'
    cases hb'
    exact mem_targets_readsOf.2 rfl

theorem targets_readStates (hx : x ∈ targetsBy p.readStates) : isMachinery x = true := by
  obtain ⟨st, hst, hx⟩ := mem_targetsBy.1 hx
  obtain ⟨b, -, hst⟩ := List.mem_flatMap.1 hst
  rw [mem_targets_readsOf.1 (mem_targetsBy.2 ⟨st, hst, hx⟩)]
  exact (Purpose.text_machinery .initial b.name).1

theorem targets_interpolate (h : p.interpolate = .ok ss) (hx : x ∈ targetsBy ss) :
    isMachinery x = true := by
  simp only [interpolate, bind_ok, pure_ok] at h
  obtain ⟨upper, -, names, -, rfl⟩ := h
  obtain ⟨st, hst, hx⟩ := mem_targetsBy.1 hx
  rcases List.mem_append.1 hst with hst | hst
  · have hstart (value : String) : ∀ x ∈ targetsBy [define "_T" value,
        .block "if _T.size < 2:" [.line "return None"]], isMachinery x = true := by
      change ∀ x ∈ ["_T"] ++ targetsBy [.block "if _T.size < 2:" [.line "return None"]], _
      decide
    exact hstart _ x (mem_targetsBy.2 ⟨st, hst, hx⟩)
  · obtain ⟨name, -, rfl⟩ := List.mem_map.1 hst
    rw [List.mem_singleton.1 hx]
    exact (Purpose.text_machinery .interpolator name).1

theorem leaf_of_interpolated {names : List String} (h : p.interpolated = .ok names) (hx : x ∈ names) :
    ∃ name b, p.model.definitions.find? name = some .leaf ∧ p.names.entryOf name = .ok b ∧
      b.name = x := by
  unfold interpolated at h
  split at h
  · obtain ⟨⟨name, d⟩, hmem, found, hfound, hin⟩ := (mem_collect h).1 hx
    simp only [bind_ok] at hfound
    obtain ⟨follows, hfollows, hfound⟩ := hfound
    split at hfound
    · rename_i hf
      simp only [followsTime, bind_ok, pure_ok] at hfollows hfound
      obtain ⟨v, -, b, hb, rfl⟩ := hfollows
      obtain ⟨own, hown, rfl⟩ := hfound
      obtain ⟨b', hb', rfl⟩ := map_ok.1 hown
      rw [hb] at hb'
      cases hb'
      simp only [Bool.and_eq_true, beq_iff_eq] at hf
      obtain ⟨⟨⟨⟨rfl, -⟩, -⟩, -⟩, -⟩ := hf
      exact ⟨name, b, Dict.find?_eq_some_iff.2 hmem, hb, (List.mem_singleton.1 hin).symm⟩
    · cases hfound
      cases hin
  · cases h
    cases hx

end Targets

end Plan

end Program

end Kinetics
