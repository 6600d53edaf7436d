import Kinetics.Proofs.Usage.Statement

/-!
# Kinetics.Proofs.Usage.Solver

What the solver's part of a program reads: names of the machinery, and the upper limit unless it
goes from one time of the series to the next.
-/

namespace Kinetics

namespace Program

open Statement Scan Text

section Lines

variable {o : SolverOptions} {span start upper : String} {ws : List String}

/-- An integration reads the words of its span, its start, and names of the machinery. -/
theorem words_integrate (hspan : Fits span ws) (hstart : IsIdentifier start) :
    ∃ code, SolverCode.integrate o span start = .line code ∧ (∀ w ∈ ws, w ∈ words code) ∧
      ∀ w ∈ words code, w ∈ ["solve_ivp", "derivative", start, "np"] ∨ w ∈ ws := by
  obtain ⟨hr, rs, hrs, hrtol⟩ := scans_float o.relativeTolerance
  obtain ⟨ha, as, has, hatol⟩ := scans_float o.absoluteTolerance
  have hfirst : Scans .between "sol = solve_ivp(derivative, " ["solve_ivp", "derivative"]
      .between := by decide
  have hcomma : Scans .between ", " [] .between := by decide
  have hmethod : Scans .between ", method=" [] (.bound ['m', 'e', 't', 'h', 'o', 'd']) := by decide
  have hclose : Scans .between ")" [] .between := by decide
  have hlast : Scans .between (", atol=" ++ (floatLiteral o.absoluteTolerance ++ ")")) _ .between :=
    Scans.keyword (by decide : Scans .between ", atol=" [] (.bound ['a', 't', 'o', 'l'])) ha.append
      (Fits.followed ⟨_, .inr rfl, hatol⟩ (by decide) hclose)
  have hmiddle : Scans .between (", rtol=" ++ (floatLiteral o.relativeTolerance ++
      (", atol=" ++ (floatLiteral o.absoluteTolerance ++ ")")))) _ .between :=
    Scans.keyword (by decide : Scans .between ", rtol=" [] (.bound ['r', 't', 'o', 'l'])) hr.append
      (Fits.followed ⟨_, .inr rfl, hrtol⟩ (Delimited.append (by decide)) hlast)
  have hopens : Opens (stringLiteral o.method) := by
    rw [Opens, stringLiteral, String.toList_ofList]
    rfl
  have hall := hfirst.append (hspan.followed (Delimited.append (by decide))
    (hcomma.append (Scans.name hstart (Delimited.append (by decide))
      (hmethod.keyword hopens.append ((scans_quoted o.method).append hmiddle)))))
  refine ⟨_, rfl, ?_⟩
  simp only [String.append_assoc]
  rw [hall.words]
  simp only [Mode.close, List.append_nil, List.nil_append, List.mem_append, List.mem_cons,
    List.not_mem_nil, or_false]
  refine ⟨fun w hw => .inr (.inl hw), ?_⟩
  rintro w ((rfl | rfl) | hw | rfl | hw | hw)
  · simp
  · simp
  · exact .inr hw
  · simp
  · simp [hrs w hw]
  · simp [has w hw]

theorem scans_around {x post : String} {pre : String} {vs : List String} {m : Mode}
    (hpre : Scans .between pre ws .between) (hx : IsIdentifier x) (hd : Delimited post)
    (hpost : Scans .between post vs m) : Scans .between (pre ++ (x ++ post)) (ws ++ x :: vs) m :=
  hpre.append (hpost.name hx hd)

theorem fits_span (hu : IsIdentifier upper) : Fits s!"(0.0, float({upper}))" ["float", upper] := by
  have hspan := scans_around (by decide : Scans .between "(0.0, float(" ["float"] .between) hu
    (by decide) (by decide : Scans .between "))" [] .between)
  simp only [toString, String.append_assoc]
  exact ⟨.between, .inl rfl, hspan⟩

end Lines

namespace SolverCode

variable {o : SolverOptions} {upper : String}

theorem idle_checkSolution : checkSolution.Idle := by
  decide

theorem isIdentifier_start : IsIdentifier "_y0" ∧ IsIdentifier "_y" := by
  have hlower : IsIdentifier "_y" := by
    refine ⟨⟨'_', rfl, .inl rfl⟩, fun c hc => ?_⟩
    obtain rfl | rfl : c = '_' ∨ c = 'y' := by simpa using hc
    · exact isIdentifierContinue_underscore
    · exact isIdentifierContinue_of_lower (by decide)
  have hdigit : ∀ c ∈ "0".toList, isIdentifierContinue c = true :=
    List.forall_mem_singleton.2 (isIdentifierContinue_of_digit (by decide))
  exact ⟨hlower.append hdigit, hlower⟩

/-- A single integration reads the upper limit, and nothing else of the model. -/
theorem asks_single (hu : IsIdentifier upper) : Asks [upper] (single o upper) ∧
    (upper ≠ "for" → upper ∈ readsBy (single o upper)) := by
  obtain ⟨code, hcode, hspan, hwords⟩ :=
    words_integrate (o := o) (fits_span hu) isIdentifier_start.1
  have hknown : ∀ w ∈ ["solve_ivp", "derivative", "_y0", "np"], Known w ∧ w ≠ "for" := by
    decide
  have hfloat : Known "float" ∧ "float" ≠ "for" := by decide
  constructor
  · refine .cons (fun x hx => ?_) (asks_idle ?_)
    · rw [hcode] at hx
      rcases hwords x (words_of_line hx) with hx | hx
      · exact .inl (hknown x hx).1
      · rcases List.mem_cons.1 hx with rfl | hx
        · exact .inl hfloat.1
        · exact .inr hx
    · simp only [List.forall_mem_cons]
      exact ⟨idle_checkSolution, by decide, nofun⟩
  · intro hne
    refine mem_readsBy.2 ⟨_, List.mem_cons_self, ?_⟩
    rw [hcode, reads_line, codeReads_eq]
    · exact hspan _ (by simp)
    · intro hfor
      rcases hwords _ hfor with hfor | hfor
      · exact (hknown _ hfor).2 rfl
      · rcases List.mem_cons.1 hfor with hfor | hfor
        · exact hfloat.2 hfor.symm
        · exact hne (List.mem_singleton.1 hfor).symm

theorem idle_segments : ∀ st ∈ segments o, st.Idle := by
  have hspan : Fits "(_T[_i], _T[_i + 1])" ["_T", "_i", "_T", "_i"] :=
    ⟨.between, .inl rfl, by decide⟩
  obtain ⟨code, hcode, -, hwords⟩ := words_integrate (o := o) hspan isIdentifier_start.2
  have hknown : (∀ w ∈ ["solve_ivp", "derivative", "_y", "np"], Known w) ∧
      ∀ w ∈ ["_T", "_i", "_T", "_i"], Known w := by decide
  have hintegrate : (integrate o "(_T[_i], _T[_i + 1])" "_y").Idle := by
    rw [hcode]
    exact idle_line fun w hw => (hwords w hw).elim (hknown.1 w) (hknown.2 w)
  have hbody : ∀ st ∈ [integrate o "(_T[_i], _T[_i + 1])" "_y", checkSolution,
      .line "_times.append(sol.t[1:])", .line "_Ys.append(sol.y[:, 1:])",
      .line "_y = sol.y[:, -1]"], st.Idle := by
    simp only [List.forall_mem_cons]
    exact ⟨hintegrate, idle_checkSolution, by decide, by decide, by decide, nofun⟩
  have hheader : ∀ w ∈ headerReads "for _i in range(_T.size - 1):", Known w := by decide
  simp only [segments, List.forall_mem_cons]
  refine ⟨by decide, by decide, by decide, fun x hx => ?_, by decide, by decide, nofun⟩
  rw [reads] at hx
  rcases List.mem_append.1 hx with hx | hx
  · exact hheader x hx
  · obtain ⟨st, hst, hx⟩ := mem_readsBy.1 (List.mem_filter.1 hx).1
    exact hbody st hst x hx

theorem idle_maskFlux (b : VectorBlock) : ∀ st ∈ maskFlux b, st.Idle := by
  have hnat (n : Nat) : Fits (toString n) [] := ⟨.attribute, .inr rfl, scans_nat n⟩
  have hopen : Scans .between "_is_state[" ["_is_state"] .between := by decide
  unfold maskFlux
  split
  · split
    · rw [List.forall_mem_singleton]
      refine idle_line ?_
      have hlast : Scans .between "] = False" [] (.word ['F', 'a', 'l', 's', 'e']) := by decide
      have hall := hopen.append ((hnat (b.offset + 1)).followed (by decide) hlast)
      simp only [toString, String.append_assoc] at hall ⊢
      rw [hall.words]
      decide
    · rw [List.forall_mem_singleton]
      refine idle_line ?_
      have hcolon : Scans .between ":" [] .between := by decide
      have hassign : Scans .between "] = " [] .between := by decide
      have hconcatenate : Scans .between "np.concatenate([" ["np"] .between := by decide
      have hones : Scans .between "np.ones(" ["np"] .between := by decide
      have hbool : Scans .between ", dtype=bool)" ["bool"] .between := by decide
      have hcomma : Scans .between ", " [] .between := by decide
      have hzeros : Scans .between "np.zeros(" ["np"] .between := by decide
      have hlast : Scans .between "], axis=-1).ravel()" [] .between := by decide
      have hextents := scans_shape b.extents
      have hall := hopen.append ((hnat b.offset).followed (Delimited.append (by decide))
        (hcolon.append ((hnat (b.offset + b.length)).followed (Delimited.append (by decide))
          (hassign.append (hconcatenate.append (hones.append (hextents.append (hbool.append
            (hcomma.append (hzeros.append (hextents.append (hbool.append hlast))))))))))))
      simp only [toString, String.append_assoc] at hall ⊢
      rw [hall.words]
      decide
  · exact nofun

theorem words_mesh (hu : IsIdentifier upper) : ∃ code,
    s!"_mesh = np.linspace(0.0, float({upper}), {o.meshPoints.toNat})" = code ∧
      words code = ["np", "float", upper] := by
  have hstart : Scans .between "_mesh = np.linspace(0.0, float(" ["np", "float"] .between := by
    decide
  have hcomma : Scans .between "), " [] .between := by decide
  have hclose : Scans .between ")" [] .between := by decide
  have hall := scans_around hstart hu (Delimited.append (by decide))
    (hcomma.append (Fits.followed ⟨.attribute, .inr rfl, scans_nat o.meshPoints.toNat⟩
      (by decide) hclose))
  simp only [toString, String.append_assoc] at hall ⊢
  exact ⟨_, rfl, hall.words⟩

theorem idle_solve : (Statement.line ("sol = solve_bvp(_columns, boundary, _mesh, _guess, tol=" ++
    floatLiteral o.boundaryTolerance ++ ")")).Idle := by
  obtain ⟨ho, ws, hws, hfloat⟩ := scans_float o.boundaryTolerance
  have hstart : Scans .between "sol = solve_bvp(_columns, boundary, _mesh, _guess, tol="
      ["solve_bvp", "_columns", "boundary", "_mesh", "_guess"] (.bound ['t', 'o', 'l']) := by
    decide
  have hclose : Scans .between ")" [] .between := by decide
  have hall := hstart.keyword ho.append
    (Fits.followed ⟨.attribute, .inr rfl, hfloat⟩ (by decide) hclose)
  refine idle_line ?_
  rw [String.append_assoc, hall.words]
  simp only [Mode.close, List.append_nil, List.forall_mem_append]
  exact ⟨by decide, known_np hws⟩

/-- A boundary value problem reads the upper limit, and nothing else of the model. -/
theorem asks_boundaryValues (hu : IsIdentifier upper) (states : List VectorBlock) :
    Asks [upper] (boundaryValues o upper states) ∧
      (upper ≠ "for" → upper ∈ readsBy (boundaryValues o upper states)) := by
  have hmasks : ∀ st ∈ states.flatMap maskFlux, st.Idle := by
    intro st hst
    obtain ⟨b, -, hst⟩ := List.mem_flatMap.1 hst
    exact idle_maskFlux b st hst
  have hcolumns : (Statement.block "def _columns(x, Y):" [.line
      "return np.column_stack([derivative(x[i], Y[:, i]) for i in range(x.size)])"]).Idle := by
    decide
  have hboundary : (Statement.block "def boundary(ya, yb):"
      [.line "# inlet state is given, outlet flux vanishes",
        .line "return np.where(_is_state, ya - _y0, yb)"]).Idle := by
    decide
  have hknown : Known "np" ∧ Known "float" := by decide
  obtain ⟨code, hcode, hmesh⟩ := words_mesh (o := o) hu
  simp only [boundaryValues, hcode]
  constructor
  · simp only [Asks, List.forall_mem_append, List.forall_mem_cons]
    have hnone : ∀ st ∈ ([] : List Statement), ∀ x ∈ st.reads, Known x ∨ x ∈ [upper] :=
      List.forall_mem_nil _
    refine ⟨⟨⟨idle_asks (by decide), hnone⟩, fun st hst => idle_asks (hmasks st hst)⟩,
      idle_asks (by decide), idle_asks hcolumns, idle_asks (by decide), idle_asks hboundary,
      idle_asks (by decide), fun x hx => ?_, idle_asks (by decide), idle_asks idle_solve,
      idle_asks idle_checkSolution, idle_asks (by decide), hnone⟩
    have hx := words_of_line hx
    rw [hmesh] at hx
    rcases List.mem_cons.1 hx with rfl | hx
    · exact .inl hknown.1
    · rcases List.mem_cons.1 hx with rfl | hx
      · exact .inl hknown.2
      · exact .inr hx
  · intro hne
    refine mem_readsBy.2 ⟨.line code, by simp, ?_⟩
    rw [reads_line, codeReads_eq]
    · simp [hmesh]
    · simpa [hmesh] using hne.symm

end SolverCode

namespace Plan

variable {p : Plan} {ss : List Statement} {upper : String}

/-- Solving reads the upper limit, unless the solver goes along the time series. -/
theorem asks_solve (h : p.solve = .ok ss) (hupper : p.nameIn p.model.upperLimit = .ok upper)
    (hu : IsIdentifier upper) : Asks [upper] ss ∧
      (upper ≠ "for" → p.isDynamic = false ∨ p.isJoint = true → upper ∈ readsBy ss) := by
  simp only [solve, hupper, bind_ok, pure_ok, Except.ok.injEq, exists_eq_left'] at h
  subst h
  by_cases hj : p.isJoint = true
  · rw [if_pos hj]
    obtain ⟨hasks, hreads⟩ := SolverCode.asks_boundaryValues (o := p.options) hu p.states
    exact ⟨hasks, fun hne _ => hreads hne⟩
  · rw [if_neg hj]
    by_cases hd : p.isDynamic = true
    · rw [if_pos hd]
      refine ⟨asks_idle SolverCode.idle_segments, fun _ hcase => ?_⟩
      simp [hd, hj] at hcase
    · rw [if_neg hd]
      obtain ⟨hasks, hreads⟩ := SolverCode.asks_single (o := p.options) hu
      exact ⟨hasks, fun hne _ => hreads hne⟩

theorem idle_storeResults : ∀ st ∈ p.storeResults, st.Idle := by
  have hrow (key : ParameterIndex) (row : Nat) : (Statement.store key s!"_Y[{row}]").Idle := by
    have hopen : Scans .between "_Y[" ["_Y"] .between := by decide
    have hclose : Scans .between "]" [] .between := by decide
    have hall := hopen.append (Fits.followed ⟨.attribute, .inr rfl, scans_nat row⟩
      (by decide) hclose)
    have hknown : Known "result" ∧ Known "_Y" := by decide
    rw [Statement.Idle, reads_store]
    refine List.forall_mem_cons.2 ⟨hknown.1, fun x hx => ?_⟩
    have hx := words_of_codeReads hx
    simp only [toString, String.append_assoc] at hall hx
    rw [hall.words] at hx
    rw [List.mem_singleton.1 hx]
    exact hknown.2
  have htimes (key : ParameterIndex) : (Statement.store key "_times").Idle := by
    rw [Statement.Idle, reads_store]
    decide
  simp only [storeResults, List.forall_mem_append, List.forall_mem_cons]
  refine ⟨⟨⟨by decide, htimes _, List.forall_mem_nil _⟩, fun st hst => ?_⟩, by decide,
    List.forall_mem_nil _⟩
  obtain ⟨r, -, rfl⟩ := List.mem_map.1 hst
  exact hrow r.1 r.2

end Plan

end Program

end Kinetics
