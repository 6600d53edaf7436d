import Kinetics.Proofs.Hygiene.Binding

/-!
# Kinetics.Proofs.Tables.Names

Every variable of a model is entered as itself: under a name that is made of its own symbol, with
the shape of its own dimensions. Entering other variables keeps the entry. The flux of the main
state is entered last, under the state's name with a suffix, and takes over the entry of a variable
that goes by this name.
-/

namespace Kinetics

namespace Program

open Formula

namespace Names

variable {o : Ontology} {n n' : Names} {name : String} {names : List String} {b : Binding}
  {bound : Noted Names}

/-- The entry that a variable makes for itself. -/
def ownEntry (o : Ontology) (name : String) : Except Fault Binding := do
  let v ← o.variableOf name
  let symbol ← readSymbol v.symbol
  let shape ← layoutShape name v
  return ⟨nameOf symbol.result, shape⟩

theorem ownEntry_ok : ownEntry o name = .ok b ↔ ∃ v symbol shape, o.variableOf name = .ok v ∧
    readSymbol v.symbol = .ok symbol ∧ layoutShape name v = .ok shape ∧
    b = ⟨nameOf symbol.result, shape⟩ := by
  simp only [ownEntry, Kinetics.bind_ok, pure_ok]
  constructor
  · rintro ⟨v, hv, symbol, hs, shape, hshape, rfl⟩
    exact ⟨v, symbol, shape, hv, hs, hshape, rfl⟩
  · rintro ⟨v, symbol, shape, hv, hs, hshape, rfl⟩
    exact ⟨v, hv, symbol, hs, shape, hshape, rfl⟩

/-- A first variable is entered as itself, and the others after it. -/
theorem bindAll_cons_ok {first : String} (h : bindAll o n (first :: names) = .ok bound) :
    ∃ own symbol n₁ rest, ownEntry o first = .ok own ∧ n.bind symbol first own = .ok n₁ ∧
      bindAll o n₁ names = .ok rest ∧ bound.result = rest.result := by
  simp only [bindAll, Kinetics.bind_ok, pure_ok] at h
  obtain ⟨v, hv, symbol, hs, shape, hshape, n₁, hn₁, rest, hrest, rfl⟩ := h
  exact ⟨_, symbol.result, n₁, rest, ownEntry_ok.2 ⟨v, symbol, shape, hv, hs, hshape, rfl⟩, hn₁,
    hrest, rfl⟩

theorem bindAll_other (h : bindAll o n names = .ok bound) (hname : name ∉ names)
    (hb : n.entryOf name = .ok b) : bound.result.entryOf name = .ok b := by
  induction names generalizing n bound with
  | nil =>
    cases h
    exact hb
  | cons first names ih =>
    obtain ⟨own, symbol, n₁, rest, -, hn₁, hrest, hr⟩ := bindAll_cons_ok h
    obtain ⟨hne, hname⟩ := not_or.1 (mt List.mem_cons.2 hname)
    rw [hr]
    exact ih hrest hname (bind_other hn₁ hne hb)

/-- Each of a list of different variables is entered as itself. -/
theorem bindAll_own (h : bindAll o n names = .ok bound) (hd : names.Nodup) (hname : name ∈ names) :
    ∃ own, ownEntry o name = .ok own ∧ bound.result.entryOf name = .ok own := by
  induction names generalizing n bound with
  | nil => cases hname
  | cons first names ih =>
    obtain ⟨own, symbol, n₁, rest, hown, hn₁, hrest, hr⟩ := bindAll_cons_ok h
    obtain ⟨hfirst, hd⟩ := List.nodup_cons.1 hd
    rw [hr]
    rcases List.mem_cons.1 hname with rfl | hname
    · exact ⟨own, hown, bindAll_other hrest hfirst (bind_self hn₁)⟩
    · exact ih hrest hd hname

end Names

namespace VectorBlock

variable {t : Topology} {n n' : Names} {joint : Bool} {offset : Nat} {main : StateEquation}
  {states : List StateEquation} {blocks : List VectorBlock} {name : String} {own : Binding}

/-- The flux of a joint state is entered with the name and the shape of the state, and its name was
free. -/
theorem layAll_flux (h : layAll t n true offset (main :: states) = .ok (n', blocks)) :
    ∃ own, n.entryOf main.name = .ok own ∧ ¬n.Calls (own.name ++ fluxSuffix) ∧
      n'.entryOf (main.name ++ fluxSuffix) = .ok ⟨own.name ++ fluxSuffix, own.shape⟩ := by
  obtain ⟨_, n₁, rest, -, hn₁, hrest, -⟩ := layAll_cons_ok h
  obtain rfl := (layAll_plain hrest).1
  rw [if_pos rfl] at hn₁
  obtain ⟨symbol, own, -, -, hown, hbind⟩ := bindFlux_ok hn₁
  exact ⟨own, hown, (Names.bind_ok hbind).2.1, Names.bind_self hbind⟩

/-- Laying out states keeps an entry, unless the flux of the main state is entered in its place. -/
theorem layAll_entry (h : layAll t n joint offset states = .ok (n', blocks))
    (hown : n.entryOf name = .ok own) : n'.entryOf name = .ok own ↔
      (joint = true → ∀ main ∈ states.head?, main.name ++ fluxSuffix ≠ name) := by
  cases joint with
  | false =>
    rw [(layAll_plain h).1]
    exact iff_of_true hown nofun
  | true =>
    cases states with
    | nil =>
      cases h
      exact iff_of_true hown fun _ => nofun
    | cons main states =>
      constructor
      · -- the name that the flux got was free, so it is not that of the variable
        rintro hfinal - _ ⟨⟩ rfl
        obtain ⟨c, -, hfree, hc⟩ := layAll_flux h
        rw [hfinal] at hc
        cases hc
        exact hfree (Names.calls_of_entryOf hown)
      · intro hne
        exact (layAll_stores h).1 name own (fun e he heq => hne rfl e he heq.symm) hown

end VectorBlock

end Program

end Kinetics
