import Kinetics.Program.Derivative
import Kinetics.Program.Result
import Kinetics.Program.Solver
import Kinetics.Proofs.Hygiene.Binding
import Kinetics.Proofs.Program.Reads

/-!
# Kinetics.Proofs.Hygiene.Program

What programs assign. A place that a program assigns belongs to a variable, to a name made from that
of a variable for some purpose, or to a fixed name of the machinery. A flux counts as a variable
here, so that names made for different purposes or from different names differ.
-/

namespace Kinetics

namespace Program

namespace Statement

@[simp] def isWordCharacter (c : Char) : Bool :=
  c.isAlphanum || c == '_'

@[simp] def leadingWord (cs : List Char) : String :=
  String.ofList (cs.takeWhile isWordCharacter)

/-- The names that a line of code assigns: the word it starts with if an equals sign or a subscript
follows, and a second word behind a comma. -/
@[simp] def lineTargets (code : String) : List String :=
  match code.toList.dropWhile isWordCharacter with
  | ' ' :: '=' :: _ => [leadingWord code.toList]
  | '[' :: _ => [leadingWord code.toList]
  | ',' :: ' ' :: more => [leadingWord code.toList, leadingWord more]
  | _ => []

/-- The name that the header of a block defines or runs over. -/
@[simp] def headerTargets (header : String) : List String :=
  match header.toList with
  | 'd' :: 'e' :: 'f' :: ' ' :: more => [leadingWord more]
  | 'f' :: 'o' :: 'r' :: ' ' :: more => [leadingWord more]
  | _ => []

mutual

/-- The names that a statement binds, or whose places it assigns. -/
@[simp] def targets : Statement → List String
  | .blank => []
  | .line code => lineTargets code
  | .assign place _ => [place.name]
  | .read place _ => [place.name]
  | .store _ _ => ["result"]
  | .block header body => headerTargets header ++ targetsBy body

@[simp] def targetsBy : List Statement → List String
  | [] => []
  | s :: ss => targets s ++ targetsBy ss

end

/-- The names that a line of these characters assigns. -/
@[simp] def assigned (cs : List Char) : List String :=
  match cs.dropWhile isWordCharacter with
  | ' ' :: '=' :: _ => [leadingWord cs]
  | '[' :: _ => [leadingWord cs]
  | ',' :: ' ' :: more => [leadingWord cs, leadingWord more]
  | _ => []

/-- The name that a header of these characters defines or runs over. -/
@[simp] def headed : List Char → List String
  | 'd' :: 'e' :: 'f' :: ' ' :: more => [leadingWord more]
  | 'f' :: 'o' :: 'r' :: ' ' :: more => [leadingWord more]
  | _ => []

theorem lineTargets_ofList (cs : List Char) : lineTargets (String.ofList cs) = assigned cs := by
  rw [lineTargets, String.toList_ofList]
  rfl

theorem headerTargets_ofList (cs : List Char) : headerTargets (String.ofList cs) = headed cs := by
  rw [headerTargets, String.toList_ofList]
  rfl

theorem mem_targetsBy {x : String} {ss : List Statement} :
    x ∈ targetsBy ss ↔ ∃ st ∈ ss, x ∈ targets st := by
  induction ss with
  | nil => simp
  | cons s ss ih => simp [ih]

end Statement

/-- What a name is made from that of a variable for. -/
inductive Purpose where
  | initial
  | derivative
  | block
  | interpolator
  deriving DecidableEq

namespace Purpose

variable {u u' : Purpose} {name name' : String}

/-- The name made for a purpose. -/
def text : Purpose → String → String
  | .initial, name => "_y0_" ++ name
  | .derivative, name => "_d_" ++ name
  | .block, name => "_block_" ++ name
  | .interpolator, name => "_interp_" ++ name

/-- Names made for different purposes or from different names differ. -/
theorem text_inj (h : u.text name = u'.text name') : u = u' ∧ name = name' := by
  -- the second character tells the purpose
  have hsame : u = u' := by
    have hlist := congrArg String.toList h
    cases u <;> cases u' <;> first | rfl | simp [text] at hlist
  subst hsame
  refine ⟨rfl, ?_⟩
  cases u <;> simpa [text] using h

theorem exists_prefix (u : Purpose) (name : String) :
    ∃ start ∈ machineryPrefixes, start.toList <+: (u.text name).toList := by
  cases u <;> simp [machineryPrefixes, text]

/-- A name made from that of a variable is one of the machinery, but none of its fixed ones. -/
theorem text_machinery (u : Purpose) (name : String) :
    isMachinery (u.text name) = true ∧ u.text name ∉ machineryNames := by
  have hall : ∀ m ∈ machineryNames, ∀ start ∈ machineryPrefixes,
      ¬start.toList <+: m.toList := by simp [machineryNames, machineryPrefixes]
  obtain ⟨start, hs, hprefix⟩ := exists_prefix u name
  refine ⟨?_, fun hm => hall _ hm start hs hprefix⟩
  rw [isMachinery, Bool.or_eq_true]
  exact .inr (List.any_eq_true.2 ⟨start, hs, List.isPrefixOf_iff_prefix.2 hprefix⟩)

end Purpose

section Fixed

open Statement

variable {ss : List Statement} {cs : List Char} {rest : String}

/-- The statement assigns only fixed names of the machinery. -/
def Statement.Fixed (st : Statement) : Prop :=
  ∀ x ∈ st.targets, x ∈ machineryNames

-- The text of a statement is taken as a list of characters: a long literal is not decoded then.

theorem fixed_line (h : ∀ x ∈ assigned cs, x ∈ machineryNames) :
    Fixed (.line (String.ofList cs)) := by
  rwa [Fixed, targets, lineTargets_ofList]

theorem fixed_lineStart (h : ∀ x ∈ assigned (cs ++ rest.toList), x ∈ machineryNames) :
    Fixed (.line (String.ofList cs ++ rest)) := by
  rw [← String.ofList_toList (s := rest), ← String.ofList_append]
  exact fixed_line h

theorem fixed_block (hh : ∀ x ∈ headed cs, x ∈ machineryNames) (hs : ∀ st ∈ ss, st.Fixed) :
    Fixed (.block (String.ofList cs) ss) := by
  rw [Fixed, targets, headerTargets_ofList]
  intro x hx
  rcases List.mem_append.1 hx with hx | hx
  · exact hh x hx
  · obtain ⟨st, hst, hx⟩ := mem_targetsBy.1 hx
    exact hs st hst x hx

theorem fixed_blank : Fixed .blank :=
  nofun

theorem fixed_store {key : ParameterIndex} {value : String} : Fixed (.store key value) := by
  intro x hx
  rw [List.mem_singleton.1 hx]
  simp [machineryNames]

/-- A block that only gives up. -/
theorem fixed_giveUp (hh : ∀ x ∈ headed cs, x ∈ machineryNames) :
    Fixed (.block (String.ofList cs) [.line "return None"]) :=
  fixed_block hh (List.forall_mem_singleton.2 (fixed_line (by simp)))

theorem fixed_checkSolution : checkSolution.Fixed :=
  fixed_giveUp (by simp)

namespace SolverCode

variable {o : SolverOptions} {span start upper : String}

theorem fixed_integrate : (integrate o span start).Fixed := by
  simp only [integrate, String.append_assoc]
  exact fixed_lineStart (by simp [machineryNames])

theorem fixed_single : ∀ st ∈ single o upper, st.Fixed := by
  simp only [single, List.forall_mem_cons]
  exact ⟨fixed_integrate, fixed_checkSolution, fixed_line (by simp [machineryNames]),
    List.forall_mem_nil _⟩

theorem fixed_segments : ∀ st ∈ segments o, st.Fixed := by
  have hbody : ∀ st ∈ [integrate o "(_T[_i], _T[_i + 1])" "_y", checkSolution,
      .line "_times.append(sol.t[1:])", .line "_Ys.append(sol.y[:, 1:])",
      .line "_y = sol.y[:, -1]"], st.Fixed := by
    simp only [List.forall_mem_cons]
    exact ⟨fixed_integrate, fixed_checkSolution, fixed_line (by simp), fixed_line (by simp),
      fixed_line (by simp [machineryNames]), List.forall_mem_nil _⟩
  simp only [segments, List.forall_mem_cons]
  exact ⟨fixed_line (by simp [machineryNames]), fixed_line (by simp [machineryNames]),
    fixed_line (by simp [machineryNames]), fixed_block (by simp [machineryNames]) hbody,
    fixed_line (by simp [machineryNames]), fixed_line (by simp [machineryNames]),
    List.forall_mem_nil _⟩

theorem fixed_maskFlux (b : VectorBlock) : ∀ st ∈ maskFlux b, st.Fixed := by
  unfold maskFlux
  split
  · split
    · rw [List.forall_mem_singleton]
      simp only [toString, String.append_assoc]
      exact fixed_lineStart (by simp [machineryNames])
    · rw [List.forall_mem_singleton]
      simp only [toString, String.append_assoc]
      exact fixed_lineStart (by simp [machineryNames])
  · exact List.forall_mem_nil _

theorem fixed_boundaryValues (states : List VectorBlock) :
    ∀ st ∈ boundaryValues o upper states, st.Fixed := by
  have hmasks : ∀ st ∈ states.flatMap maskFlux, st.Fixed := by
    intro st hst
    obtain ⟨b, -, hst⟩ := List.mem_flatMap.1 hst
    exact fixed_maskFlux b st hst
  have hcolumns : ∀ st ∈ [Statement.line
      "return np.column_stack([derivative(x[i], Y[:, i]) for i in range(x.size)])"], st.Fixed :=
    List.forall_mem_singleton.2 (fixed_line (by simp))
  have hboundary : ∀ st ∈ [Statement.line "# inlet state is given, outlet flux vanishes",
      .line "return np.where(_is_state, ya - _y0, yb)"], st.Fixed := by
    simp only [List.forall_mem_cons]
    exact ⟨fixed_line (by simp), fixed_line (by simp), List.forall_mem_nil _⟩
  simp only [boundaryValues, List.forall_mem_append, List.forall_mem_cons, toString,
    String.append_assoc]
  refine ⟨⟨⟨fixed_line (by simp [machineryNames]), List.forall_mem_nil _⟩, hmasks⟩, fixed_blank,
    fixed_block (by simp [machineryNames]) hcolumns, fixed_blank,
    fixed_block (by simp [machineryNames]) hboundary, fixed_blank, ?_, ?_, ?_, fixed_checkSolution,
    ?_, List.forall_mem_nil _⟩
  · exact fixed_lineStart (by simp [machineryNames])
  · exact fixed_line (by simp [machineryNames])
  · exact fixed_lineStart (by simp [machineryNames])
  · exact fixed_line (by simp [machineryNames])

end SolverCode

end Fixed

/-- A name belongs to a variable, is made from that of one, or is a fixed name of the machinery. -/
def Names.Accounts (n : Names) (x : String) : Prop :=
  n.Calls x ∨ (∃ u name, n.Calls name ∧ x = Purpose.text u name) ∨ x ∈ machineryNames

/-- The statements assign nothing but what the names account for. -/
def Tidy (n : Names) (ss : List Statement) : Prop :=
  ∀ st ∈ ss, ∀ x ∈ st.targets, n.Accounts x

section Tidy

open Statement

variable {n : Names} {ss ts : List Statement} {x : String}

theorem Tidy.append (hs : Tidy n ss) (ht : Tidy n ts) : Tidy n (ss ++ ts) :=
  fun st h => (List.mem_append.1 h).elim (hs st) (ht st)

theorem Tidy.block {header : String} (hs : Tidy n ss)
    (hh : ∀ x ∈ headerTargets header, x ∈ machineryNames) : Tidy n [.block header ss] := by
  intro st hst x hx
  rw [List.mem_singleton.1 hst, targets] at hx
  rcases List.mem_append.1 hx with hx | hx
  · exact .inr (.inr (hh x hx))
  · obtain ⟨st', hst', hx⟩ := mem_targetsBy.1 hx
    exact hs st' hst' x hx

theorem tidy_define {value : String} (hx : n.Accounts x) : Tidy n [define x value] := by
  intro st hst y hy
  rw [List.mem_singleton.1 hst, define, targets, Place.whole, List.mem_singleton] at hy
  rwa [hy]

theorem tidy_of_fixed (h : ∀ st ∈ ss, st.Fixed) : Tidy n ss :=
  fun st hst x hx => .inr (.inr (h st hst x hx))

theorem tidy_readsOf {t : Topology} {variableName : String} {s : Shape} (hx : n.Accounts x) :
    Tidy n (readsOf t x variableName s) := by
  intro st hst y hy
  have hy : y = x := by
    unfold readsOf at hst
    split at hst
    · rw [List.mem_singleton.1 hst, targets, List.mem_singleton] at hy
      exact hy
    · rcases List.mem_cons.1 hst with rfl | hst
      · exact List.mem_singleton.1 hy
      · obtain ⟨q, -, rfl⟩ := List.mem_map.1 hst
        exact List.mem_singleton.1 hy
  rwa [hy]

end Tidy

namespace Plan

open Statement

variable {p : Plan} {ss : List Statement} {x : String}

theorem calls_of_nameIn {variableName : String} (h : p.nameIn variableName = .ok x) :
    p.names.Calls x := by
  obtain ⟨b, hb, rfl⟩ := map_ok.1 h
  exact Names.calls_of_entryOf hb

theorem calls_of_interpolated {names : List String} (h : p.interpolated = .ok names) :
    ∀ name ∈ names, p.names.Calls name := by
  unfold interpolated at h
  split at h
  · intro name hname
    obtain ⟨⟨variableName, d⟩, -, found, hfound, hin⟩ := (mem_collect h).1 hname
    simp only [bind_ok] at hfound
    obtain ⟨follows, -, hfound⟩ := hfound
    split at hfound
    · simp only [bind_ok, pure_ok] at hfound
      obtain ⟨own, hown, rfl⟩ := hfound
      rw [List.mem_singleton.1 hin]
      exact calls_of_nameIn hown
    · cases hfound
      cases hin
  · cases h
    exact List.forall_mem_nil _

theorem tidy_assignments {s : Shape} {law : Point → Option String} (hx : p.names.Accounts x)
    (h : p.assignments x s law = .ok ss) : Tidy p.names ss := by
  unfold assignments at h
  split at h
  · split at h
    · cases h
      exact tidy_define hx
    · simp only [bind_ok, pure_ok] at h
      obtain ⟨code, -, rfl⟩ := h
      exact tidy_define hx
  · simp only [bind_ok, pure_ok] at h
    obtain ⟨points, hpoints, rfl⟩ := h
    refine (tidy_define hx).append (forall_of_collect hpoints fun q _ bs hbs => ?_)
    split at hbs
    · cases hbs
      exact List.forall_mem_nil _
    · simp only [bind_ok, pure_ok] at hbs
      obtain ⟨code, -, rfl⟩ := hbs
      intro st hst y hy
      rw [List.mem_singleton.1 hst, targets, List.mem_singleton] at hy
      rwa [hy]

theorem tidy_setConstants (h : p.setConstants = .ok ss) : Tidy p.names ss := by
  intro st hst
  obtain ⟨_, -, hset⟩ := exists_of_mem_setConstants h hst
  obtain ⟨b, _, hb, rfl⟩ := setConstant_ok hset
  exact tidy_define (.inl (Names.calls_of_entryOf hb)) _ (List.mem_singleton_self _)

theorem tidy_readInputs (h : p.readInputs = .ok ss) : Tidy p.names ss := by
  intro st hst
  obtain ⟨_, b, -, hb, hst⟩ := exists_of_mem_readInputs h hst
  exact tidy_readsOf (.inl (Names.calls_of_entryOf hb)) st hst

theorem tidy_interpolate (h : p.interpolate = .ok ss) : Tidy p.names ss := by
  simp only [interpolate, bind_ok, pure_ok] at h
  obtain ⟨upper, -, names, hnames, rfl⟩ := h
  have hstart (value : String) : Tidy p.names
      [define "_T" value, .block "if _T.size < 2:" [.line "return None"]] :=
    (tidy_define (.inr (.inr (by simp [machineryNames])))).append
      (tidy_of_fixed (List.forall_mem_singleton.2 (fixed_giveUp (by simp))))
  refine (hstart _).append fun st hst => ?_
  obtain ⟨name, hname, rfl⟩ := List.mem_map.1 hst
  have hcalls := calls_of_interpolated hnames name hname
  exact tidy_define (.inr (.inl ⟨.interpolator, name, hcalls, rfl⟩)) _ (List.mem_singleton_self _)

theorem tidy_compute {variableName : String} (h : p.compute variableName = .ok ss) :
    Tidy p.names ss := by
  simp only [compute, bind_ok] at h
  obtain ⟨b, hb, d, -, h⟩ := h
  split at h
  · exact tidy_assignments (.inl (Names.calls_of_entryOf hb)) h
  · cases h
    exact List.forall_mem_nil _

section Blocks

variable (hcalled : ∀ b ∈ p.states, VectorBlock.Called p.names b)

include hcalled

theorem tidy_readStates : Tidy p.names p.readStates := by
  intro st hst
  obtain ⟨b, hb, hst⟩ := List.mem_flatMap.1 hst
  exact tidy_readsOf (.inr (.inl ⟨.initial, b.name, (hcalled b hb).state, rfl⟩)) st hst

theorem tidy_prepare (h : p.prepare = .ok ss) : Tidy p.names ss := by
  simp only [prepare, bind_ok] at h
  obtain ⟨constants, hc, inputs, hi, h⟩ := h
  have hinitial : Tidy p.names [p.setInitial] :=
    tidy_define (.inr (.inr (by simp [machineryNames])))
  have hstart := ((tidy_setConstants hc).append (tidy_readInputs hi)).append
    (tidy_readStates hcalled)
  split at h
  · simp only [bind_ok, pure_ok] at h
    obtain ⟨interpolation, hn, rfl⟩ := h
    exact (hstart.append (tidy_interpolate hn)).append hinitial
  · cases h
    rw [List.append_nil]
    exact hstart.append hinitial

theorem tidy_views {b : VectorBlock} (hb : b ∈ p.states) : Tidy p.names b.views := by
  have hstate : p.names.Accounts b.name := .inl (hcalled b hb).state
  unfold VectorBlock.views
  split
  · exact tidy_define hstate
  · exact tidy_define hstate
  · rename_i hj _
    exact (tidy_define hstate).append (tidy_define (.inl ((hcalled b hb).flux hj)))
  · rename_i hj _
    exact ((tidy_define (.inr (.inl ⟨.block, b.name, (hcalled b hb).state, rfl⟩))).append
      (tidy_define hstate)).append (tidy_define (.inl ((hcalled b hb).flux hj)))

theorem tidy_differentiate {b : VectorBlock} (hb : b ∈ p.states)
    (h : p.differentiate b = .ok ss) : Tidy p.names ss := by
  have hstate : p.names.Accounts b.derivativeName :=
    .inr (.inl ⟨.derivative, b.name, (hcalled b hb).state, rfl⟩)
  unfold differentiate at h
  split at h
  · rename_i hj
    simp only [bind_ok, pure_ok] at h
    obtain ⟨flux, hflux, rfl⟩ := h
    have hfluxName : b.derivativeName ++ fluxSuffix =
        Purpose.derivative.text (b.name ++ fluxSuffix) := String.append_assoc
    exact (tidy_define hstate).append (tidy_assignments
      (.inr (.inl ⟨.derivative, _, (hcalled b hb).flux hj, hfluxName⟩)) hflux)
  · exact tidy_assignments hstate h

theorem tidy_derivativeBody (h : p.derivativeBody = .ok ss) : Tidy p.names ss := by
  simp only [derivativeBody, bind_ok, pure_ok] at h
  obtain ⟨independent, hi, interpolated, hn, computations, hc, derivatives, hd, rfl⟩ := h
  have hinterpolated : Tidy p.names (interpolated.map fun name =>
      define name s!"float({interpolatorName name}(_t))") := by
    intro st hst
    obtain ⟨name, hname, rfl⟩ := List.mem_map.1 hst
    exact tidy_define (.inl (calls_of_interpolated hn name hname)) _ (List.mem_singleton_self _)
  have hviews : Tidy p.names (p.states.flatMap VectorBlock.views) := by
    intro st hst
    obtain ⟨b, hb, hst⟩ := List.mem_flatMap.1 hst
    exact tidy_views hcalled hb st hst
  have hcomputations : Tidy p.names computations :=
    forall_of_collect hc fun name _ bs hbs => tidy_compute hbs
  have hderivatives : Tidy p.names derivatives :=
    forall_of_collect hd fun b hb bs hbs => tidy_differentiate hcalled hb hbs
  have hindependent : Tidy p.names [define independent "_t"] :=
    tidy_define (.inl (calls_of_nameIn hi))
  refine ((((hindependent.append hinterpolated).append hviews).append hcomputations).append
    hderivatives).append (tidy_of_fixed (List.forall_mem_singleton.2 ?_))
  simp only [toString, String.append_assoc]
  exact fixed_lineStart (by simp)

end Blocks

theorem fixed_solve (h : p.solve = .ok ss) : ∀ st ∈ ss, st.Fixed := by
  simp only [solve, bind_ok, pure_ok] at h
  obtain ⟨upper, -, rfl⟩ := h
  split
  · exact SolverCode.fixed_boundaryValues _
  · split
    · exact SolverCode.fixed_segments
    · exact SolverCode.fixed_single

theorem fixed_storeResults (p : Plan) : ∀ st ∈ p.storeResults, st.Fixed := by
  intro st hst
  simp only [storeResults, List.mem_append, List.mem_cons, List.mem_map, List.not_mem_nil,
    or_false] at hst
  rcases hst with ((rfl | rfl) | ⟨r, -, rfl⟩) | rfl
  · exact fixed_line (by simp [machineryNames])
  · exact fixed_store
  · exact fixed_store
  · exact fixed_line (by simp)

end Plan

end Program

end Kinetics
