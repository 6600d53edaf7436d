import Kinetics.Proofs.Equation.Simulation
import Kinetics.Proofs.Lookup.Line

/-!
# Kinetics.Proofs.Lookup.Program

What the lines of a program look up, part by part. Lines that read nothing from the table assign
something else, or nothing; only the code of a law's formula can spell a look-up, since texts in
formulas are taken as they are.
-/

namespace Kinetics

namespace Program

open Statement Text Python

section Code

variable {s t x : String} {spelled : ParameterIndex → Prop} {ss : List Statement}

theorem unbroken_nat (n : Nat) : '\n' ∉ Nat.toDigits 10 n := fun h =>
  absurd (Decimal.isDigit_natDigits n _ h) (by decide)

theorem unbroken_joined {parts : List String} (h : ∀ s ∈ parts, '\n' ∉ s.toList) :
    '\n' ∉ (joinWith ", " parts).toList := by
  intro hn
  rcases mem_of_mem_joinWith hn with hn | ⟨s, hs, hn⟩
  · exact absurd hn (by decide)
  · exact h s hs hn

theorem unbroken_shape (ns : List Nat) : '\n' ∉ (shapeLiteral ns).toList := by
  unfold shapeLiteral
  split
  · simp [unbroken_nat]
  · have hjoined : '\n' ∉ (joinWith ", " (ns.map toString)).toList :=
      unbroken_joined (by simp [unbroken_nat])
    simp [hjoined]

theorem unbroken_quoted (s : String) : '\n' ∉ (stringLiteral s).toList := fun h =>
  ((mem_optionalLiteral_of_isRefused (c := '\n') rfl (some s)).1 h).1 rfl

/-- A numeral is made of digits and the signs between them. -/
theorem mem_numeral {n : Decimal.Numeral} (h : n.Regular) {plus : Bool} {c : Char}
    (hc : c ∈ n.text plus) : c.isDigit = true ∨ c ∈ ['-', '.', 'e', '+'] := by
  have hpower (e : Int) (hc : c ∈ natDigits e.natAbs) : c.isDigit = true :=
    Decimal.isDigit_natDigits _ c hc
  simp only [Decimal.Numeral.text, List.mem_append] at hc
  rcases hc with ((hc | hc) | hc) | hc
  · unfold Decimal.Numeral.signText at hc
    split at hc <;> simp_all
  · exact .inl (h.wholeDigits c hc)
  · split at hc
    · cases hc
    · rcases List.mem_cons.1 hc with rfl | hc
      · simp
      · exact .inl (h.fractionDigits c hc)
  · split at hc
    · cases hc
    · split at hc
      · rcases List.mem_cons.1 hc with rfl | hc
        · simp
        · rcases List.mem_cons.1 hc with rfl | hc
          · simp
          · exact .inl (hpower _ hc)
      · rcases List.mem_cons.1 hc with rfl | hc
        · simp
        · rcases List.mem_append.1 hc with hc | hc
          · split at hc <;> simp_all
          · exact .inl (hpower _ hc)

theorem text_ne_nil {n : Decimal.Numeral} (h : n.Regular) (plus : Bool) : n.text plus ≠ [] := by
  simp [Decimal.Numeral.text, h.whole]

/-- The value is on one line, and at some character it is no look-up any more. -/
def Inert (value : String) : Prop :=
  '\n' ∉ value.toList ∧ ¬value.toList <+: "_value(".toList ∧ ¬"_value(".toList <+: value.toList

instance : Decidable (Inert s) :=
  inferInstanceAs (Decidable (_ ∧ _ ∧ _))

theorem Inert.append (hs : Inert s) (ht : '\n' ∉ t.toList) : Inert (s ++ t) := by
  obtain ⟨hfeed, hshort, hlong⟩ := hs
  rw [Inert, String.toList_append]
  refine ⟨fun h => (List.mem_append.1 h).elim hfeed ht,
    fun h => hshort ((List.prefix_append _ _).trans h), fun h => ?_⟩
  exact (List.prefix_or_prefix_of_prefix (List.prefix_append _ _) h).elim hshort hlong

theorem Inert.ne (hs : Inert s) (k : ParameterIndex) : s ≠ lookUpCode k := by
  rintro rfl
  refine hs.2.2 ?_
  have hname : "_value(".toList <+: "_value(parameter_table, ".toList := by decide
  rw [toList_lookUpCode]
  exact hname.trans (List.prefix_append _ _)

theorem inert_float (y : Float) : Inert (floatLiteral y) := by
  unfold floatLiteral Decimal.programText
  split
  · rename_i n hn
    have hn := Decimal.Style.regular_numeral? hn
    have hnot {c : Char} (hc : ¬(c.isDigit = true ∨ c ∈ ['-', '.', 'e', '+'])) :
        c ∉ n.text Decimal.programStyle.plusSign := mt (mem_numeral hn) hc
    rw [Inert, String.toList_ofList]
    -- the call starts with a low line, which no numeral has
    refine ⟨hnot (by decide), fun h => ?_, fun h => hnot (c := '_') (by decide) ?_⟩
    · cases hs : n.text Decimal.programStyle.plusSign with
      | nil => exact text_ne_nil hn _ hs
      | cons c cs =>
        rw [hs] at h hnot
        obtain ⟨rfl, -⟩ := List.cons_prefix_cons.1 h
        exact hnot (by decide) List.mem_cons_self
    · exact h.subset (by decide)
  · split
    · decide
    · split <;> decide

theorem shows_define (h : Inert s) : Shows spelled (define x s) :=
  shows_assign h.1 h.ne

/-- The line assigns nothing, or what does not start as a look-up. -/
def Silent (code : String) : Prop :=
  '\n' ∉ code.toList ∧ ¬" _value(".toList <+: rightSide code.toList

instance : Decidable (Silent s) :=
  inferInstanceAs (Decidable (_ ∧ _))

theorem Silent.not_looksUp (h : Silent s) (k : ParameterIndex) : ¬LooksUp s.toList k := by
  intro hlooks
  refine h.2 ?_
  have hname : " _value(".toList <+: ' ' :: "_value(parameter_table, ".toList := by decide
  rw [hlooks, toList_lookUpCode]
  exact hname.trans (List.cons_prefix_cons.2 ⟨rfl, List.prefix_append _ _⟩)

/-- Where the start of a line tells that it is no look-up, the rest does not matter. -/
theorem silent_start (hs : Silent s) (hr : ¬rightSide s.toList <+: " _value(".toList)
    (ht : '\n' ∉ t.toList) : Silent (s ++ t) := by
  have hmem : '=' ∈ s.toList := by
    by_contra hnone
    have hnil := rightSide_indented hnone []
    rw [List.append_nil] at hnil
    exact hr (hnil ▸ List.nil_prefix)
  obtain ⟨cs, ds, hcut, hcs⟩ := List.eq_append_cons_of_mem hmem
  rw [Silent, hcut, rightSide_append hcs] at hs
  rw [hcut, rightSide_append hcs] at hr
  rw [Silent, String.toList_append, hcut, List.append_assoc, List.cons_append,
    rightSide_append hcs]
  refine ⟨?_, fun h => ?_⟩
  · rw [← List.cons_append, ← List.append_assoc]
    exact fun h => (List.mem_append.1 h).elim hs.1 ht
  · exact (List.prefix_or_prefix_of_prefix (List.prefix_append _ _) h).elim hr hs.2

/-- What ends otherwise than with the parentheses of an index and of a call is no look-up. -/
theorem shows_ending (hs : '\n' ∉ s.toList) (ht : '\n' ∉ t.toList)
    (hend : ¬[')', ')'] <:+ t.toList) (hlong : 2 ≤ t.toList.length) :
    Shows spelled (.line (s ++ t)) := by
  refine shows_line (by simp [hs, ht]) fun k hlooks => hend ?_
  obtain ⟨cs, hcs⟩ := hlooks.exists_end
  rw [String.toList_append] at hcs
  have hcall : [')', ')'] <:+ s.toList ++ t.toList := by
    rw [hcs]
    exact List.suffix_append _ _
  exact List.suffix_of_suffix_length_le hcall (List.suffix_append _ _) hlong

theorem shows_silent (h : Silent s) : Shows spelled (.line s) :=
  shows_line h.1 h.not_looksUp

theorem shows_silentBlock (h : Silent s) (hs : ∀ st ∈ ss, Shows spelled st) :
    Shows spelled (.block s ss) :=
  shows_block h.1 h.not_looksUp hs

/-- An entry of the result is a row of the solution, which is no call. -/
theorem shows_store {key : ParameterIndex} {row : String} {c : Char}
    (hrow : row.toList.getLast? = some c) (hfeed : '\n' ∉ row.toList) (hc : c ≠ ')') :
    Shows spelled (.store key row) := by
  intro _ level l hl k hlooks
  have hindex := mem_indexLiteral_of_isRefused (c := '\n') rfl key
  rw [Statement.lines, List.mem_singleton] at hl
  have hline : '\n' ∉ l.toList := by simp [hl, hindex, hfeed, (bare_indent level).1]
  obtain ⟨cs, hcs⟩ := ((lookedUp_unbroken hline).1 hlooks).exists_end
  have hlast := congrArg List.getLast? hcs
  simp only [hl, String.toList_append, List.getLast?_append, hrow, Option.some_or,
    List.getLast?_cons_cons, List.getLast?_singleton, Option.some_inj] at hlast
  exact absurd hlast hc

end Code

section Name

variable {n : Names} {x : String}

theorem bare_identifier (h : IsIdentifier x) : Bare x :=
  ⟨fun hc => absurd (h.2 _ hc) (by decide +kernel), fun hc => absurd (h.2 _ hc) (by decide +kernel)⟩

theorem bare_called (hn : n.Spelled) (h : n.Calls x) : Bare x :=
  bare_identifier (hn.identifier h).1

/-- What a program assigns are names. -/
theorem bare_accounted (hn : n.Spelled) (h : n.Accounts x) : Bare x := by
  rcases h with hc | ⟨u, name, hc, rfl⟩ | hm
  · exact bare_called hn hc
  · obtain ⟨hfeed, hequals⟩ := bare_called hn hc
    cases u <;> simp [Bare, Purpose.text, hfeed, hequals]
  · have hall : ∀ m ∈ machineryNames, Bare m := by decide
    exact hall x hm

end Name

section Parts

variable {spelled : ParameterIndex → Prop} {t : Topology} {x variableName : String} {s : Shape}
  {ss : List Statement}

theorem inert_zeros (t : Topology) (s : Shape) : Inert (zerosCode t s) :=
  (Inert.append (by decide) (unbroken_shape _)).append (by decide)

theorem shows_readsOf : ∀ st ∈ readsOf t x variableName s, Shows spelled st := by
  unfold readsOf
  split
  · exact List.forall_mem_singleton.2 shows_read
  · refine List.forall_mem_cons.2 ⟨shows_define (inert_zeros t s), fun st hst => ?_⟩
    obtain ⟨q, -, rfl⟩ := List.mem_map.1 hst
    exact shows_read

/-- A flux goes by an identifier, which cannot be called. -/
theorem inert_flux {b : VectorBlock} (h : IsIdentifier b.name) : Inert b.fluxName := by
  have hname {c : Char} (hc : isIdentifierContinue c = false) : c ∉ b.name.toList := fun hin => by
    rw [h.2 c hin] at hc
    cases hc
  rw [Inert, VectorBlock.fluxName, String.toList_append]
  refine ⟨?_, fun hp => ?_, fun hp => ?_⟩
  · exact fun hc => (List.mem_append.1 hc).elim (hname (by decide +kernel)) (by decide)
  · exact absurd (hp.subset (List.mem_append_right _ (by decide : 'F' ∈ fluxSuffix.toList)))
      (by decide)
  · exact (List.mem_append.1 (hp.subset (by decide : '(' ∈ "_value(".toList))).elim
      (hname (by decide +kernel)) (by decide)

theorem inert_constant (y : Float) (ns : List Nat) :
    Inert ("np.full(" ++ shapeLiteral ns ++ ", " ++ floatLiteral y ++ ")") :=
  (((Inert.append (by decide) (unbroken_shape ns)).append (by decide)).append
    (inert_float y).1).append (by decide)

theorem shows_giveUp (h : Silent x) : Shows spelled (.block x [.line "return None"]) :=
  shows_silentBlock h (List.forall_mem_singleton.2 (shows_silent (by decide)))

theorem shows_checkSolution : Shows spelled checkSolution :=
  shows_giveUp (by decide)

end Parts

namespace VectorBlock

variable {b : VectorBlock}

theorem unbroken_initialCode (h : '\n' ∉ b.name.toList) : '\n' ∉ b.initialCode.toList := by
  unfold initialCode
  split <;> simp [toString, initialName, h]

theorem unbroken_derivativeCode (h : '\n' ∉ b.name.toList) : '\n' ∉ b.derivativeCode.toList := by
  unfold derivativeCode
  split <;> simp [toString, derivativeName, fluxSuffix, h]

end VectorBlock

namespace SolverCode

variable {o : SolverOptions} {span start upper : String} {spelled : ParameterIndex → Prop}

theorem shows_integrate (hspan : '\n' ∉ span.toList) (hstart : '\n' ∉ start.toList) :
    Shows spelled (integrate o span start) := by
  refine shows_silent ?_
  simp only [String.append_assoc]
  exact silent_start (by decide) (by decide)
    (by simp [hspan, hstart, unbroken_quoted, (inert_float _).1])

theorem shows_single (hu : '\n' ∉ upper.toList) : ∀ st ∈ single o upper, Shows spelled st := by
  simp only [single, List.forall_mem_cons]
  exact ⟨shows_integrate (by simp [toString, hu]) (by decide), shows_checkSolution,
    shows_silent (by decide), List.forall_mem_nil _⟩

theorem shows_segments : ∀ st ∈ segments o, Shows spelled st := by
  have hbody : ∀ st ∈ [integrate o "(_T[_i], _T[_i + 1])" "_y", checkSolution,
      .line "_times.append(sol.t[1:])", .line "_Ys.append(sol.y[:, 1:])",
      .line "_y = sol.y[:, -1]"], Shows spelled st := by
    simp only [List.forall_mem_cons]
    exact ⟨shows_integrate (by decide) (by decide), shows_checkSolution, shows_silent (by decide),
      shows_silent (by decide), shows_silent (by decide), List.forall_mem_nil _⟩
  simp only [segments, List.forall_mem_cons]
  exact ⟨shows_silent (by decide), shows_silent (by decide), shows_silent (by decide),
    shows_silentBlock (by decide) hbody, shows_silent (by decide), shows_silent (by decide),
    List.forall_mem_nil _⟩

theorem shows_maskFlux (b : VectorBlock) : ∀ st ∈ maskFlux b, Shows spelled st := by
  unfold maskFlux
  split
  · split
    · exact List.forall_mem_singleton.2 (shows_ending (by simp [toString, unbroken_nat]) (by decide)
        (by decide) (by decide))
    · refine List.forall_mem_singleton.2 ?_
      simp only [← String.append_assoc]
      exact shows_ending (by simp [toString, unbroken_nat, unbroken_shape]) (by decide) (by decide)
        (by decide)
  · exact List.forall_mem_nil _

theorem shows_boundaryValues (hu : '\n' ∉ upper.toList) (states : List VectorBlock) :
    ∀ st ∈ boundaryValues o upper states, Shows spelled st := by
  have hmasks : ∀ st ∈ states.flatMap maskFlux, Shows spelled st := by
    intro st hst
    obtain ⟨b, -, hst⟩ := List.mem_flatMap.1 hst
    exact shows_maskFlux b st hst
  have hcolumns : ∀ st ∈ [Statement.line
      "return np.column_stack([derivative(x[i], Y[:, i]) for i in range(x.size)])"],
      Shows spelled st :=
    List.forall_mem_singleton.2 (shows_silent (by decide))
  have hboundary : ∀ st ∈ [Statement.line "# inlet state is given, outlet flux vanishes",
      .line "return np.where(_is_state, ya - _y0, yb)"], Shows spelled st := by
    simp only [List.forall_mem_cons]
    exact ⟨shows_silent (by decide), shows_silent (by decide), List.forall_mem_nil _⟩
  simp only [boundaryValues, List.forall_mem_append, List.forall_mem_cons, toString,
    String.append_assoc]
  refine ⟨⟨⟨shows_silent (by decide), List.forall_mem_nil _⟩, hmasks⟩, shows_blank,
    shows_silentBlock (by decide) hcolumns, shows_blank,
    shows_silentBlock (by decide) hboundary, shows_blank, ?_, shows_silent (by decide), ?_,
    shows_checkSolution, shows_silent (by decide), List.forall_mem_nil _⟩
  · exact shows_silent (silent_start (by decide) (by decide) (by simp [hu, unbroken_nat]))
  · exact shows_silent (silent_start (by decide) (by decide) (by simp [(inert_float _).1]))

end SolverCode

namespace Plan

variable {p : Plan} {spelled : ParameterIndex → Prop} {ss : List Statement}

theorem shows_setConstants (h : p.setConstants = .ok ss) : ∀ st ∈ ss, Shows spelled st := by
  intro st hst
  obtain ⟨_, -, hset⟩ := exists_of_mem_setConstants h hst
  obtain ⟨b, y, -, rfl⟩ := setConstant_ok hset
  refine shows_define ?_
  split
  · exact inert_float y
  · exact inert_constant y _

theorem shows_readInputs (h : p.readInputs = .ok ss) : ∀ st ∈ ss, Shows spelled st := by
  intro st hst
  obtain ⟨_, _, -, -, hst⟩ := exists_of_mem_readInputs h hst
  exact shows_readsOf st hst

theorem shows_readStates : ∀ st ∈ p.readStates, Shows spelled st := by
  intro st hst
  obtain ⟨b, -, hst⟩ := List.mem_flatMap.1 hst
  exact shows_readsOf st hst

section Names

variable (hn : p.names.Spelled) (hcalled : ∀ b ∈ p.states, VectorBlock.Called p.names b)

include hn

theorem shows_interpolate (h : p.interpolate = .ok ss) : ∀ st ∈ ss, Shows spelled st := by
  simp only [interpolate, bind_ok, pure_ok] at h
  obtain ⟨upper, hupper, names, hnames, rfl⟩ := h
  have hu := (bare_called hn (calls_of_nameIn hupper)).1
  have htimes : Inert s!"np.atleast_1d(np.asarray({upper}, dtype=float))" := by
    simp only [toString, String.append_assoc]
    exact Inert.append (by decide) (by simp [hu])
  refine List.forall_mem_cons.2 ⟨shows_define htimes, List.forall_mem_cons.2
    ⟨shows_giveUp (by decide), fun st hst => ?_⟩⟩
  obtain ⟨name, hname, rfl⟩ := List.mem_map.1 hst
  have hx := (bare_called hn (calls_of_interpolated hnames name hname)).1
  refine shows_define ?_
  rw [String.append_assoc]
  exact Inert.append (by decide) (by simp [toString, hx])

theorem shows_solve (h : p.solve = .ok ss) : ∀ st ∈ ss, Shows spelled st := by
  simp only [solve, bind_ok, pure_ok] at h
  obtain ⟨upper, hupper, rfl⟩ := h
  have hu := (bare_called hn (calls_of_nameIn hupper)).1
  split
  · exact SolverCode.shows_boundaryValues hu _
  · split
    · exact SolverCode.shows_segments
    · exact SolverCode.shows_single hu

include hcalled

theorem unbroken_blocks (b : VectorBlock) (hb : b ∈ p.states) : '\n' ∉ b.name.toList :=
  (bare_called hn (hcalled b hb).state).1

theorem shows_setInitial : Shows spelled p.setInitial := by
  have hparts : '\n' ∉ (joinWith ", " (p.states.map VectorBlock.initialCode)).toList := by
    refine unbroken_joined fun s hs => ?_
    obtain ⟨b, hb, rfl⟩ := List.mem_map.1 hs
    exact VectorBlock.unbroken_initialCode (unbroken_blocks hn hcalled b hb)
  refine shows_define ?_
  simp only [toString, String.append_assoc]
  exact Inert.append (by decide) (by simp [hparts])

theorem shows_prepare (h : p.prepare = .ok ss) : ∀ st ∈ ss, Shows spelled st := by
  simp only [prepare, bind_ok] at h
  obtain ⟨constants, hc, inputs, hi, h⟩ := h
  have hinitial : ∀ st ∈ [p.setInitial], Shows spelled st :=
    List.forall_mem_singleton.2 (shows_setInitial hn hcalled)
  split at h
  · simp only [bind_ok, pure_ok] at h
    obtain ⟨interpolation, hinterpolation, rfl⟩ := h
    simp only [List.forall_mem_append]
    exact ⟨⟨⟨⟨shows_setConstants hc, shows_readInputs hi⟩, shows_readStates⟩,
      shows_interpolate hn hinterpolation⟩, hinitial⟩
  · cases h
    simp only [List.forall_mem_append]
    exact ⟨⟨⟨⟨shows_setConstants hc, shows_readInputs hi⟩, shows_readStates⟩,
      List.forall_mem_nil _⟩, hinitial⟩

theorem shows_views {b : VectorBlock} (hb : b ∈ p.states) : ∀ st ∈ b.views, Shows spelled st := by
  have hx := unbroken_blocks hn hcalled b hb
  have hvector (cs : String) (hcs : '\n' ∉ cs.toList) : Inert ("_y[" ++ cs) :=
    Inert.append (by decide) hcs
  have hblock (cs : String) (hcs : '\n' ∉ cs.toList) : Inert ("_block_" ++ cs) :=
    Inert.append (by decide) hcs
  unfold VectorBlock.views
  simp only [toString, String.append_assoc]
  split
  · exact List.forall_mem_singleton.2 (shows_define (hvector _ (by simp [unbroken_nat])))
  · exact List.forall_mem_singleton.2
      (shows_define (hvector _ (by simp [unbroken_nat, unbroken_shape])))
  · simp only [List.forall_mem_cons]
    exact ⟨shows_define (hvector _ (by simp [unbroken_nat])),
      shows_define (hvector _ (by simp [unbroken_nat])), List.forall_mem_nil _⟩
  · simp only [List.forall_mem_cons]
    exact ⟨shows_define (hvector _ (by simp [unbroken_nat, unbroken_shape])),
      shows_define (hblock _ (by simp [unbroken_nat, hx])),
      shows_define (hblock _ (by simp [unbroken_nat, hx])), List.forall_mem_nil _⟩

/-- Code of a law may spell anything; what makes room for it is no look-up. -/
theorem shows_law {st : Statement} (h : p.AssignsLaw st)
    (hlaw : ∀ law q code, p.codeAt law q = .ok code →
      ∀ k, (lookUpCode k).toList <:+: code.toList → spelled k) : Shows spelled st := by
  rcases h with ⟨place, law, q, code, hcode, rfl⟩ | ⟨target, value, rfl, hvalue⟩
  · exact shows_spelling (hlaw law q code hcode)
  · refine shows_define ?_
    rcases hvalue with rfl | ⟨s, rfl⟩ | ⟨b, hb, rfl⟩
    · decide
    · exact inert_zeros _ _
    · exact inert_flux (hn.identifier (hcalled b hb).state).1

theorem shows_derivativeBody (h : p.derivativeBody = .ok ss)
    (hlaw : ∀ law q code, p.codeAt law q = .ok code →
      ∀ k, (lookUpCode k).toList <:+: code.toList → spelled k) : ∀ st ∈ ss, Shows spelled st := by
  obtain ⟨independent, interpolated, assigned, -, hinterpolated, hassigned, rfl⟩ :=
    derivativeBody_cut h
  have hparts : '\n' ∉ (joinWith ", " (p.states.map VectorBlock.derivativeCode)).toList := by
    refine unbroken_joined fun s hs => ?_
    obtain ⟨b, hb, rfl⟩ := List.mem_map.1 hs
    exact VectorBlock.unbroken_derivativeCode (unbroken_blocks hn hcalled b hb)
  intro st hst
  simp only [aroundLaws, List.mem_append, List.mem_cons, List.mem_map, List.mem_flatMap,
    List.not_mem_nil, or_false] at hst
  rcases hst with ((( rfl | ⟨name, hname, rfl⟩) | ⟨b, hb, hst⟩) | hst) | rfl
  · exact shows_define (by decide)
  · have hx := (bare_called hn (calls_of_interpolated hinterpolated name hname)).1
    refine shows_define ?_
    simp only [toString, String.append_assoc]
    exact Inert.append (by decide) (by simp [interpolatorName, hx])
  · exact shows_views hn hcalled hb st hst
  · exact shows_law hn hcalled (hassigned st hst) hlaw
  · -- its parts may give an axis by an equals sign, so it is told by its end
    exact shows_ending (by simp [toString, hparts]) (by decide) (by decide) (by decide)

end Names

theorem shows_storeResults : ∀ st ∈ p.storeResults, Shows spelled st := by
  intro st hst
  simp only [storeResults, List.mem_append, List.mem_cons, List.mem_map, List.not_mem_nil,
    or_false] at hst
  rcases hst with ((rfl | rfl) | ⟨r, -, rfl⟩) | rfl
  · exact shows_silent (by decide)
  · exact shows_store (c := 's') (by decide) (by decide) (by decide)
  · exact shows_store (c := ']') (by simp [toString, List.getLast?_cons])
      (by simp [toString, unbroken_nat]) (by decide)
  · exact shows_silent (by decide)

end Plan

end Program

end Kinetics
