import Kinetics.Proofs.Code.Regrouping
import Kinetics.Proofs.Code.Normal

/-!
# Kinetics.Proofs.Code.Substitution

The passes over redundant parentheses and the tokens that are put in for symbols. Where each symbol
stands for a name, or for a name with a subscript, no decision of the passes depends on what it
stands for: which parentheses go can be told before anything is put in (`strip_splice`).
-/

namespace Kinetics

namespace Code

/-- A token of a line, or the place of a symbol. -/
inductive Part where
  | token (t : Token)
  | symbol (name : String)
  deriving DecidableEq

namespace Part

def fill (σ : String → List Token) : Part → List Token
  | .token t => [t]
  | .symbol name => σ name

def isBracket : Part → Bool
  | .token t => Code.isBracket t
  | .symbol _ => false

end Part

/-- The line with the tokens for the symbols put in. -/
def splice (σ : String → List Token) (ps : List Part) : List Token :=
  ps.flatMap (Part.fill σ)

/-- Some brackets are left out, and nothing else. -/
structure Drops (kept ps : List Part) : Prop where
  sublist : kept.Sublist ps
  rest : kept.filter (!·.isBracket) = ps.filter (!·.isBracket)

namespace Drops

variable {qs ps rs : List Part}

theorem refl (ps : List Part) : Drops ps ps :=
  ⟨.refl ps, rfl⟩

theorem trans (h : Drops qs ps) (g : Drops ps rs) : Drops qs rs :=
  ⟨h.sublist.trans g.sublist, h.rest.trans g.rest⟩

theorem cons (p : Part) (h : Drops qs ps) : Drops (p :: qs) (p :: ps) :=
  ⟨h.sublist.cons_cons p, by rw [List.filter_cons, List.filter_cons, h.rest]⟩

theorem drop {p : Part} (hp : p.isBracket = true) (h : Drops qs ps) : Drops qs (p :: ps) :=
  ⟨h.sublist.cons p, by rw [List.filter_cons_of_neg (by simp [hp]), h.rest]⟩

theorem append (h : Drops qs ps) (rs : List Part) : Drops (rs ++ qs) (rs ++ ps) := by
  induction rs with
  | nil => exact h
  | cons p rs ih => exact ih.cons p

end Drops

/-- A name, or a name with a subscript, that is no call whose argument keeps its parentheses. -/
inductive Plugs : List Token → Prop where
  | name {w : List Char} : keptCalls.contains w = false → Plugs [.name w]
  | subscript {w : List Char} {ts : List Token} : keptCalls.contains w = false →
      (∀ t ∈ ts, t.turn = 0) → Plugs (.name w :: .opening .square :: (ts ++ [.closing .square]))

/-- What is put in for the symbols of a line. -/
def Fits (σ : String → List Token) (ps : List Part) : Prop :=
  ∀ name, .symbol name ∈ ps → Plugs (σ name)

section Plugs

variable {us xs : List Token} {n : Nat} {t : Token} {before : Option Token}

theorem balanced_of_turn {ts : List Token} (h : ∀ t ∈ ts, t.turn = 0) : Balanced ts := by
  induction ts with
  | nil => exact .nil
  | cons t ts ih =>
    have h := List.forall_mem_cons.1 h
    exact (ih h.2).cons h.1

theorem Plugs.balanced (h : Plugs us) : Balanced us := by
  cases h with
  | name => exact .single rfl
  | subscript _ ht => exact ((balanced_of_turn ht).wrap .square .square).cons rfl

theorem Plugs.not_loose (h : Plugs us) : hasLoose n us = false := by
  cases n with
  | zero =>
    cases h with
    | name => rfl
    | subscript _ ht => exact hasLoose_wrap .square .square (balanced_of_turn ht)
  | succ n => exact hasLoose_inner (h.balanced.covered.mono (by omega))

theorem Plugs.hasLoose_append (h : Plugs us) : hasLoose n (us ++ xs) = hasLoose n xs := by
  rw [Code.hasLoose_append (h.balanced.covered.mono (by omega)), h.not_loose, h.balanced.closed,
    Bool.false_or, Int.add_zero, Int.toNat_natCast]

/-- A plug starts with a name, and a bracket behind it is none that groups. -/
theorem Plugs.ends (h : Plugs us) : (∃ w vs, us = .name w :: vs ∧ keptCalls.contains w = false) ∧
    (∃ z, us.getLast? = some z ∧ z.takesBracket = true) ∧ ∀ t ∈ us, t ≠ .opening .round := by
  cases h with
  | name hw => exact ⟨⟨_, [], rfl, hw⟩, ⟨_, rfl, rfl⟩, by simp⟩
  | @subscript w ts hw ht =>
    refine ⟨⟨w, _, rfl, hw⟩, ⟨.closing .square, by simp [List.getLast?_cons], rfl⟩, ?_⟩
    rintro t hm rfl
    simp only [List.mem_cons, List.mem_append, List.not_mem_nil, or_false] at hm
    rcases hm with hm | hm | hm | hm
    · cases hm
    · cases hm
    · exact absurd (ht _ hm) (by decide)
    · cases hm

theorem collapse_plain {ts : List Token} (h : ∀ t ∈ ts, t ≠ .opening .round) (hne : ts ≠ []) :
    collapse before (ts ++ xs) = ts ++ collapse ts.getLast? xs := by
  induction ts generalizing before with
  | nil => exact absurd rfl hne
  | cons t ts ih =>
    have h := List.forall_mem_cons.1 h
    rw [List.cons_append, collapse_pass fun hg => absurd (eq_opening hg) h.1, List.cons_append]
    cases ts with
    | nil => rfl
    | cons u us => rw [ih h.2 (by simp), List.getLast?_cons_cons]

theorem stripFirst_plain {ts : List Token} (h : ∀ t ∈ ts, t ≠ .opening .round) (hne : ts ≠ []) :
    stripFirst before (ts ++ xs) = (stripFirst ts.getLast? xs).map (ts ++ ·) := by
  induction ts generalizing before with
  | nil => exact absurd rfl hne
  | cons t ts ih =>
    have h := List.forall_mem_cons.1 h
    rw [List.cons_append, stripFirst_pass fun _ _ _ hg => absurd (eq_opening hg) h.1]
    cases ts with
    | nil => rfl
    | cons u us =>
      rw [ih h.2 (by simp), List.getLast?_cons_cons, Option.map_map]
      rfl

/-- What comes behind a plug is treated like what comes behind a name. -/
theorem Plugs.collapse (h : Plugs us) :
    collapse before (us ++ xs) = us ++ collapse (some (.name [])) xs := by
  obtain ⟨⟨v, vs, hu, -⟩, ⟨z, hz, htakes⟩, hround⟩ := h.ends
  rw [collapse_plain hround (by simp [hu]), hz, collapse_congr (c := some (.name []))]
  exact htakes

theorem Plugs.stripFirst (h : Plugs us) :
    stripFirst before (us ++ xs) = (stripFirst (some (.name [])) xs).map (us ++ ·) := by
  obtain ⟨⟨v, vs, hu, -⟩, ⟨z, hz, htakes⟩, hround⟩ := h.ends
  rw [stripFirst_plain hround (by simp [hu]), hz, stripFirst_congr (c := some (.name []))]
  exact htakes

end Plugs

section Splice

variable {σ : String → List Token} {ps qs : List Part} {n : Nat} {p : Part} {t : Token}

@[simp] theorem splice_nil : splice σ [] = [] := rfl

@[simp] theorem splice_cons : splice σ (p :: ps) = p.fill σ ++ splice σ ps := rfl

@[simp] theorem splice_append : splice σ (ps ++ qs) = splice σ ps ++ splice σ qs :=
  List.flatMap_append

@[simp] theorem fill_token : (Part.token t).fill σ = [t] := rfl

@[simp] theorem fill_symbol (name : String) : (Part.symbol name).fill σ = σ name := rfl

theorem Fits.mono (h : Fits σ ps) (hs : qs ⊆ ps) : Fits σ qs :=
  fun name hn => h name (hs hn)

theorem Fits.tail (h : Fits σ (p :: ps)) : Fits σ ps :=
  h.mono (List.subset_cons_self p ps)

/-- Whatever is put in for the symbols, `f` has no result, or one that is a shorter line with places
for symbols itself. -/
def Settled (ps : List Part) (f : List Token → Option (List Token)) : Prop :=
  (∀ σ, Fits σ ps → f (splice σ ps) = none) ∨
    ∃ us, Drops us ps ∧ us.length < ps.length ∧ ∀ σ, Fits σ ps → f (splice σ ps) = some (splice σ us)

/-- Whatever is put in for the symbols, `f` drops the same brackets. -/
def Kept (ps : List Part) (f : List Token → List Token) : Prop :=
  ∃ kept, Drops kept ps ∧ ∀ σ, Fits σ ps → f (splice σ ps) = splice σ kept

/-- Whatever is put in for the symbols, the same bracket of the line closes the group. -/
def Splits (n : Nat) (ps : List Part) : Prop :=
  (∀ σ, Fits σ ps → splitGroup n (splice σ ps) = none) ∨
    ∃ inside b rest, ps = inside ++ .token (.closing b) :: rest ∧ ∀ σ, Fits σ ps →
      splitGroup n (splice σ ps) = some (splice σ inside, .closing b, splice σ rest)

theorem Splits.pass {m : Nat} (h : Splits m ps)
    (hp : ∀ σ, Fits σ (p :: ps) → splitGroup n (splice σ (p :: ps)) =
      (splitGroup m (splice σ ps)).map fun q => (p.fill σ ++ q.1, q.2)) : Splits n (p :: ps) := by
  rcases h with hn | ⟨inside, b, rest, rfl, hs⟩
  · exact .inl fun σ hσ => by rw [hp σ hσ, hn σ hσ.tail, Option.map_none]
  · exact .inr ⟨p :: inside, b, rest, rfl, fun σ hσ => by rw [hp σ hσ, hs σ hσ.tail]; rfl⟩

theorem splits (n : Nat) (ps : List Part) : Splits n ps := by
  induction ps generalizing n with
  | nil => exact .inl fun _ _ => rfl
  | cons p ps ih =>
    cases p with
    | symbol name => exact (ih n).pass fun σ hσ => splitGroup_balanced_append (hσ name (by simp)).balanced
    | token t =>
      cases t with
      | opening b => exact (ih (n + 1)).pass fun σ _ => splitGroup_opening b
      | closing b =>
        cases n with
        | zero => exact .inr ⟨[], b, ps, rfl, fun σ _ => rfl⟩
        | succ n => exact (ih n).pass fun σ _ => splitGroup_closing b
      | _ => exact (ih n).pass fun σ _ => splitGroup_cons_turn rfl

theorem Fits.starts {s : String} (h : Fits σ (.symbol s :: ps)) :
    ∃ w vs, splice σ (.symbol s :: ps) = .name w :: vs ∧ keptCalls.contains w = false := by
  obtain ⟨⟨w, vs, hu, hw⟩, -⟩ := (h s (by simp)).ends
  exact ⟨w, vs ++ splice σ ps, by simp [hu], hw⟩

theorem innerOfDouble_splice (ps : List Part) : Settled ps innerOfDouble := by
  rcases splits 0 ps with hn | ⟨inside, b, rest, rfl, hs⟩
  · exact .inl fun σ hσ => by rw [innerOfDouble, hn σ hσ]
  · cases rest with
    | nil => exact .inl fun σ hσ => by rw [innerOfDouble, hs σ hσ]; rfl
    | cons q rest =>
      cases q with
      | symbol s =>
        refine .inl fun σ hσ => ?_
        have hrest : Fits σ (.symbol s :: rest) := hσ.mono (by grind)
        obtain ⟨w, vs, hv, -⟩ := hrest.starts
        rw [innerOfDouble, hs σ hσ, hv]
      | token t =>
        cases t with
        | closing c =>
          refine .inr ⟨inside ++ .token (.closing b) :: rest, ?_, by simp, fun σ hσ => ?_⟩
          · exact (((Drops.refl rest).drop rfl).cons _).append inside
          · rw [innerOfDouble, hs σ hσ]
            simp
        | _ => exact .inl fun σ hσ => by rw [innerOfDouble, hs σ hσ]; rfl

/-- Whether a line is tight does not depend on what is put in. -/
theorem hasLoose_splice {τ : String → List Token} (hσ : Fits σ ps) (hτ : Fits τ ps) :
    hasLoose n (splice σ ps) = hasLoose n (splice τ ps) := by
  induction ps generalizing n with
  | nil => rfl
  | cons p ps ih =>
    have ih (m : Nat) := @ih m hσ.tail hτ.tail
    cases p with
    | symbol name =>
      rw [splice_cons, splice_cons, fill_symbol, fill_symbol, (hσ name (by simp)).hasLoose_append,
        (hτ name (by simp)).hasLoose_append, ih]
    | token t => cases t <;> simp [hasLoose, ih]


theorem head_splice (h : Fits σ ps) : (splice σ ps).head? = some (.opening .round) ↔
    ps.head? = some (.token (.opening .round)) := by
  cases ps with
  | nil => simp
  | cons p ps =>
    cases p with
    | symbol s =>
      obtain ⟨w, vs, hv, -⟩ := h.starts
      simp [hv]
    | token t => simp

theorem startsKeptCall_splice {τ : String → List Token} (hσ : Fits σ ps) (hτ : Fits τ ps) :
    startsKeptCall (splice σ ps) = startsKeptCall (splice τ ps) := by
  cases ps with
  | nil => rfl
  | cons p ps =>
    cases p with
    | symbol s =>
      obtain ⟨w, vs, hv, hw⟩ := hσ.starts
      obtain ⟨x, us, hu, hx⟩ := hτ.starts
      rw [hv, hu, startsKeptCall_name, startsKeptCall_name, hw, hx, Bool.and_false, Bool.and_false]
    | token t =>
      cases t with
      | name w =>
        simp only [splice_cons, fill_token, List.singleton_append, startsKeptCall_name,
          head_splice hσ.tail, head_splice hτ.tail]
      | _ => rfl

theorem isTight_splice {τ : String → List Token} (hσ : Fits σ ps) (hτ : Fits τ ps) :
    isTight (splice σ ps) = isTight (splice τ ps) := by
  have he : (splice σ ps).isEmpty = (splice τ ps).isEmpty := by
    cases ps with
    | nil => rfl
    | cons p ps =>
      cases p with
      | symbol s =>
        obtain ⟨w, vs, hv, -⟩ := hσ.starts
        obtain ⟨x, us, hu, -⟩ := hτ.starts
        rw [hv, hu]
        rfl
      | token t => rfl
  rw [isTight, isTight, he, startsKeptCall_splice hσ hτ, hasLoose_splice hσ hτ]

theorem fits_names (ps : List Part) : Fits (fun _ => [.name []]) ps :=
  fun _ _ => .name (by decide)

theorem Settled.cons {f g : List Token → Option (List Token)} (h : Settled ps g)
    (hp : ∀ σ, Fits σ (p :: ps) →
      f (splice σ (p :: ps)) = (g (splice σ ps)).map (p.fill σ ++ ·)) : Settled (p :: ps) f := by
  rcases h with hn | ⟨us, hd, hl, hs⟩
  · exact .inl fun σ hσ => by rw [hp σ hσ, hn σ hσ.tail, Option.map_none]
  · exact .inr ⟨p :: us, hd.cons p, by simpa using hl, fun σ hσ => by
      rw [hp σ hσ, hs σ hσ.tail, Option.map_some, splice_cons]⟩

theorem Kept.cons {f g : List Token → List Token} (h : Kept ps g) (hp : ∀ σ, Fits σ (p :: ps) →
    f (splice σ (p :: ps)) = p.fill σ ++ g (splice σ ps)) : Kept (p :: ps) f := by
  obtain ⟨kept, hd, hk⟩ := h
  exact ⟨p :: kept, hd.cons p, fun σ hσ => by rw [hp σ hσ, hk σ hσ.tail, splice_cons]⟩

/-- The pair that is taken away first stands at the same place. -/
theorem stripFirst_splice (before : Option Token) (ps : List Part) :
    Settled ps (stripFirst before) := by
  induction ps generalizing before with
  | nil => exact .inl fun _ _ => rfl
  | cons p ps ih =>
    cases p with
    | symbol s => exact (ih (some (.name []))).cons fun σ hσ => (hσ s (by simp)).stripFirst
    | token t =>
      by_cases hg : opensGroup before t = true
      · rcases splits 0 ps with hn | ⟨inside, b, rest, rfl, hs⟩
        · refine (ih (some t)).cons fun σ hσ => stripFirst_pass fun _ _ _ _ h => ?_
          cases (hn σ hσ.tail).symm.trans h
        · have hi {σ : String → List Token}
              (hσ : Fits σ (.token t :: (inside ++ .token (.closing b) :: rest))) :
              isTight (splice σ inside) = isTight (splice (fun _ => [.name []]) inside) :=
            isTight_splice (hσ.tail.mono (List.subset_append_left _ _)) (fits_names inside)
          cases ht : isTight (splice (fun _ => [.name []]) inside) with
          | true =>
            refine .inr ⟨inside ++ rest, ?_, by simp only [List.length_append, List.length_cons]; omega, fun σ hσ => ?_⟩
            · obtain rfl := eq_opening hg
              exact (((Drops.refl rest).drop rfl).append inside).drop rfl
            · rw [splice_append]
              exact stripFirst_group hg (hs σ hσ.tail) ((hi hσ).trans ht)
          | false =>
            refine (ih (some t)).cons fun σ hσ => stripFirst_pass fun _ _ _ _ h => ?_
            cases (hs σ hσ.tail).symm.trans h
            exact (hi hσ).trans ht
      · exact (ih (some t)).cons fun σ _ => stripFirst_pass fun _ _ _ hg' => absurd hg' hg

theorem strip_splice (ps : List Part) : Kept ps strip := by
  induction hn : ps.length using Nat.strong_induction_on generalizing ps with
  | _ n ih =>
    rcases stripFirst_splice none ps with hs | ⟨us, hd, hl, hs⟩
    · refine ⟨ps, .refl ps, fun σ hσ => ?_⟩
      rw [strip]
      split
      · simp_all
      · rfl
    · obtain ⟨kept, hk, he⟩ := ih us.length (hn ▸ hl) us rfl
      refine ⟨kept, hk.trans hd, fun σ hσ => ?_⟩
      rw [← he σ (hσ.mono hd.sublist.subset), strip]
      split
      · simp_all
      · simp_all

theorem collapse_splice (before : Option Token) (ps : List Part) : Kept ps (collapse before) := by
  induction hn : ps.length using Nat.strong_induction_on generalizing before ps with
  | _ n ih =>
    cases ps with
    | nil => exact ⟨[], .refl [], fun σ _ => by rw [splice_nil, collapse]⟩
    | cons p ps =>
      have pass (b : Option Token) : Kept ps (collapse b) := ih ps.length (by simp [← hn]) b ps rfl
      cases p with
      | symbol s => exact (pass (some (.name []))).cons fun σ hσ => (hσ s (by simp)).collapse
      | token t =>
        by_cases hg : opensGroup before t = true ∧ ps.head? = some (.token (.opening .round))
        · obtain ⟨hg, hp⟩ := hg
          obtain ⟨ps, rfl⟩ := List.head?_eq_some_iff.1 hp
          rcases innerOfDouble_splice ps with hs | ⟨us, hd, hl, hs⟩
          · exact (pass (some t)).cons fun σ hσ => collapse_single (hs σ hσ.tail.tail)
          · obtain ⟨kept, hk, he⟩ :=
              ih us.length (by simp at hn; omega) (some (.opening .round)) us rfl
            refine ⟨.token (.opening .round) :: kept, ?_, fun σ hσ => ?_⟩
            · obtain rfl := eq_opening hg
              exact ((hk.trans hd).cons _).drop rfl
            · refine (collapse_double hg (hs σ hσ.tail.tail)).trans ?_
              rw [he σ (hσ.tail.tail.mono hd.sublist.subset)]
              rfl
        · refine (pass (some t)).cons fun σ hσ => collapse_pass fun hg' hh => hg ⟨hg', ?_⟩
          exact (head_splice hσ.tail).1 hh

/-- Which parentheses go is the same whatever the symbols stand for. -/
theorem normal_splice (ps : List Part) : Kept ps fun ts => strip (collapse none ts) := by
  obtain ⟨us, hu, hc⟩ := collapse_splice none ps
  obtain ⟨kept, hk, hs⟩ := strip_splice us
  refine ⟨kept, hk.trans hu, fun σ hσ => ?_⟩
  exact (congrArg strip (hc σ hσ)).trans (hs σ (hσ.mono hu.sublist.subset))

end Splice

end Code

end Kinetics
