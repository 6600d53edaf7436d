import Kinetics.Program.Layout
import Kinetics.Proofs.Dict
import Kinetics.Proofs.Fallible

/-!
# Kinetics.Proofs.Program.Binding

What binding a variable and laying out a state do. A variable of a model is bound with the shape
that its dimensions have, and binding another one does not change it; so the blocks of the states
have these shapes too.
-/

namespace Kinetics

namespace Program

namespace Names

variable {o : Ontology} {n n' : Names} {name other symbol : String} {b b' : Binding}

theorem entryOf_ok : n.entryOf name = .ok b ↔
    ∃ symbol, n.symbols.find? name = some symbol ∧ n.bindings.find? symbol = some b := by
  simp only [entryOf, symbolOf, Dict.get]
  cases hs : n.symbols.find? name with
  | none => simp
  | some symbol =>
    cases hb : n.bindings.find? symbol with
    | none => simp [hb]
    | some c => simp [hb]

/-- A name is bound. -/
def Calls (n : Names) (name : String) : Prop :=
  ∃ symbol b, n.bindings.find? symbol = some b ∧ b.name = name

/-- Binding refuses a symbol or a name that is taken, and else adds one entry. -/
theorem bind_ok (h : n.bind symbol name b = .ok n') :
    n.bindings.find? symbol = none ∧ ¬n.Calls b.name ∧
      n' = ⟨n.bindings.insert symbol b, n.symbols.insert name symbol⟩ := by
  simp only [bind] at h
  split at h
  · cases h
  · rename_i hsymbol
    split at h
    · cases h
    · rename_i hname
      cases h
      refine ⟨by simpa [Dict.contains] using hsymbol, ?_, rfl⟩
      rintro ⟨symbol', c, hc, hcb⟩
      refine hname (List.any_eq_true.2 ⟨c, ?_, beq_iff_eq.2 hcb⟩)
      exact List.mem_map_of_mem (Dict.find?_eq_some_iff.1 hc)

theorem bind_self (h : n.bind symbol name b = .ok n') : n'.entryOf name = .ok b := by
  obtain ⟨-, -, rfl⟩ := bind_ok h
  exact entryOf_ok.2 ⟨symbol, Dict.find?_insert_self _ _ _, Dict.find?_insert_self _ _ _⟩

theorem bind_other (h : n.bind symbol name b = .ok n') (hne : other ≠ name)
    (ho : n.entryOf other = .ok b') : n'.entryOf other = .ok b' := by
  obtain ⟨hnew, -, rfl⟩ := bind_ok h
  obtain ⟨symbol', hs, hb⟩ := entryOf_ok.1 ho
  refine entryOf_ok.2 ⟨symbol', ?_, Dict.find?_insert_new hnew hb⟩
  rw [Dict.find?_insert_of_ne hne, hs]

/-- A variable is bound with its own shape. -/
def Shaped (o : Ontology) (n : Names) (name : String) : Prop :=
  ∃ v shape b, o.variableOf name = .ok v ∧ layoutShape name v = .ok shape ∧
    n.entryOf name = .ok b ∧ b.shape = shape

theorem Shaped.bind {v : Variable} {shape : Shape} (h : n.bind symbol name b = .ok n')
    (hv : o.variableOf name = .ok v) (hs : layoutShape name v = .ok shape) (hb : b.shape = shape)
    (ho : Shaped o n other) : Shaped o n' other := by
  by_cases hne : other = name
  · subst hne
    exact ⟨v, shape, b, hv, hs, bind_self h, hb⟩
  · obtain ⟨v', shape', b', hv', hs', he, hb'⟩ := ho
    exact ⟨v', shape', b', hv', hs', bind_other h hne he, hb'⟩

theorem bindAll_shaped {names : List String} {bound : Formula.Noted Names}
    (h : bindAll o n names = .ok bound) :
    ∀ name, name ∈ names ∨ Shaped o n name → Shaped o bound.result name := by
  induction names generalizing n bound with
  | nil =>
    cases h
    intro name hm
    exact hm.resolve_left List.not_mem_nil
  | cons first names ih =>
    simp only [bindAll, Kinetics.bind_ok, pure_ok] at h
    obtain ⟨v, hv, symbol, -, shape, hs, n', hn, rest, hrest, rfl⟩ := h
    intro name hm
    refine ih hrest name ?_
    rcases hm with hm | hm
    · rcases List.mem_cons.1 hm with rfl | hm
      · exact .inr ⟨v, shape, _, hv, hs, bind_self hn, rfl⟩
      · exact .inl hm
    · exact .inr (hm.bind hn hv hs rfl)

end Names

namespace VectorBlock

variable {t : Topology} {n n' : Names} {joint : Bool} {o : Nat} {e : StateEquation}
  {states : List StateEquation} {blocks : List VectorBlock}

theorem bindFlux_ok (h : bindFlux n e = .ok n') :
    ∃ symbol c, n.symbols.find? e.name = some symbol ∧ n.bindings.find? symbol = some c ∧
      n.entryOf e.name = .ok c ∧ n.bind (symbol ++ fluxSuffix) (e.name ++ fluxSuffix)
        ⟨c.name ++ fluxSuffix, c.shape⟩ = .ok n' := by
  simp only [bindFlux] at h
  split at h
  · cases h
  · rename_i symbol hs
    split at h
    · cases h
    · rename_i c hc
      obtain ⟨symbol', hs', hb⟩ := Names.entryOf_ok.1 hc
      rw [Names.symbolOf, Dict.get, hs'] at hs
      cases hs
      exact ⟨_, c, hs', hb, hc, h⟩

/-- The names stay as they are, or the first state has a flux that is bound. -/
theorem flux_cases (h : (if joint then bindFlux n e else .ok n) = .ok n') :
    n' = n ∨ joint = true ∧ bindFlux n e = .ok n' := by
  split at h
  · exact .inr ⟨‹_›, h⟩
  · cases h
    exact .inl rfl

/-- What laying out a first state does: its block stands at the offset, the names may gain its flux,
and the other states follow after the block. -/
theorem layAll_cons_ok (h : layAll t n joint o (e :: states) = .ok (n', blocks)) :
    ∃ b n₁ rest, n.entryOf e.name = .ok b ∧
      (if joint then bindFlux n e else .ok n) = .ok n₁ ∧
      layAll t n₁ false (o + (ofBlock t b joint o e).length) states = .ok (n', rest) ∧
      blocks = ofBlock t b joint o e :: rest := by
  simp only [layAll] at h
  split at h
  · cases h
  · rename_i b hb
    split at h
    · cases h
    · rename_i n₁ hn₁
      split at h
      · cases h
      · rename_i rest hrest
        cases h
        exact ⟨b, n₁, rest, hb, hn₁, hrest, rfl⟩

/-- The block of a state has the shape that its variable is bound with. -/
def Stores (n : Names) (e : StateEquation) (s : VectorBlock) : Prop :=
  s.variableName = e.name ∧ ∃ b, n.entryOf e.name = .ok b ∧ s.shape = b.shape

theorem layAll_plain (h : layAll t n false o states = .ok (n', blocks)) :
    n' = n ∧ ∀ s ∈ blocks, s.joint = false ∧ ∃ e ∈ states, Stores n e s := by
  induction states generalizing o blocks with
  | nil =>
    cases h
    exact ⟨rfl, nofun⟩
  | cons e states ih =>
    obtain ⟨b, n₁, rest, hb, hn₁, hrest, rfl⟩ := layAll_cons_ok h
    cases hn₁
    obtain ⟨rfl, hall⟩ := ih hrest
    refine ⟨rfl, fun s hs => ?_⟩
    rcases List.mem_cons.1 hs with rfl | hs
    · exact ⟨rfl, e, by simp, rfl, b, hb, rfl⟩
    · obtain ⟨hplain, e', he', hstores⟩ := hall s hs
      exact ⟨hplain, e', List.mem_cons_of_mem _ he', hstores⟩

/-- Laying out states keeps what is bound, but for the name of the flux, and only the main state
has a flux. -/
theorem layAll_stores (h : layAll t n joint o states = .ok (n', blocks)) :
    (∀ name b, (∀ main ∈ states.head?, name ≠ main.name ++ fluxSuffix) →
      n.entryOf name = .ok b → n'.entryOf name = .ok b) ∧
    ((∀ e ∈ states, ∀ main ∈ states.head?, e.name ≠ main.name ++ fluxSuffix) →
      ∀ s ∈ blocks, ∃ e ∈ states, Stores n' e s) ∧
    ∀ s ∈ blocks, s.joint = true → ∃ main ∈ states.head?, s.variableName = main.name := by
  cases states with
  | nil =>
    cases h
    exact ⟨fun _ _ _ hb => hb, nofun, nofun⟩
  | cons main states =>
    obtain ⟨b, n₁, rest, hb, hn₁, hrest, rfl⟩ := layAll_cons_ok h
    obtain ⟨rfl, hall⟩ := layAll_plain hrest
    have hkeep : ∀ name b, name ≠ main.name ++ fluxSuffix →
        n.entryOf name = .ok b → n'.entryOf name = .ok b := by
      intro name b' hne hb'
      rcases flux_cases hn₁ with rfl | ⟨-, hflux⟩
      · exact hb'
      · obtain ⟨_, _, -, -, -, hbind⟩ := bindFlux_ok hflux
        exact Names.bind_other hbind hne hb'
    refine ⟨fun name b' hne => hkeep name b' (hne main rfl), fun hne s hs => ?_,
      fun s hs hj => ?_⟩
    · rcases List.mem_cons.1 hs with rfl | hs
      · exact ⟨main, by simp, rfl, b, hkeep _ b (hne main (by simp) main rfl) hb, rfl⟩
      · obtain ⟨-, e, he, hstores⟩ := hall s hs
        exact ⟨e, List.mem_cons_of_mem _ he, hstores⟩
    · rcases List.mem_cons.1 hs with rfl | hs
      · exact ⟨main, rfl, rfl⟩
      · rw [(hall s hs).1] at hj
        cases hj

end VectorBlock

end Program

end Kinetics
