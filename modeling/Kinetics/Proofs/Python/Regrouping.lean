import Kinetics.Proofs.Code.Regrouping
import Kinetics.Proofs.Python.Reader

/-!
# Kinetics.Proofs.Python.Regrouping

The reader and redundant parentheses. Tokens with nothing loose in them leave the frame in which
they stand as it is, whatever that frame is (`run_tight`); so a pair of parentheses around them may
come or go (`read_unwrap`), and the normal form of a line is read as the line is (`read_normal`).
-/

namespace Kinetics

namespace Python

open Code
open Relation (ReflTransGen)

theorem Joint.turn_token (o : Joint) : o.token.turn = 0 := by
  cases o <;> rfl

section Step

variable {callee : Tree → Bool} {f : Frame} {fs : List Frame} {x : Option Tree} {t : Token}
  {m : Move} {s s' s'' : State} {ts us : List Token}

theorem Frame.join_stays {a : Tree} {o : Joint} (h : f.join a o = some m) :
    ∃ ps, m = .stay none ps := by
  unfold join at h
  split at h
  · cases h
    exact ⟨_, rfl⟩
  · cases h

/-- What a move does to the number of open brackets. -/
def Move.turn : Move → Int
  | .stay _ _ => 0
  | .enter _ => 1
  | .leave _ => -1

theorem Moves.turn (h : Moves callee f x t m) : t.turn = m.turn := by
  have hjoin {a : Tree} {o : Joint} (h : f.join a o = some m) : o.token.turn = m.turn := by
    obtain ⟨ps, rfl⟩ := Frame.join_stays h
    exact o.turn_token
  cases h with
  | @sign o => exact o.turn_token
  | skip _ _ h => exact hjoin h
  | join h => exact hjoin h
  | _ => rfl

namespace State

theorem step_cons_iff : (State.mk x (f :: fs)).step callee t = some s' ↔
    ∃ m, Moves callee f x t m ∧ follow f fs m = s' := by
  simp [step, Frame.move_iff]

theorem exists_frame (h : s.step callee t = some s') : ∃ f fs, s.frames = f :: fs := by
  unfold step at h
  split at h
  · cases h
  · exact ⟨_, _, ‹_›⟩

@[simp]
theorem run_nil : s.run callee [] = some s := rfl

theorem run_cons_iff : s.run callee (t :: ts) = some s'' ↔
    ∃ s', s.step callee t = some s' ∧ s'.run callee ts = some s'' := by
  simp [run, Option.bind_eq_some_iff]

theorem run_append : s.run callee (ts ++ us) = (s.run callee ts).bind (run callee · us) := by
  induction ts generalizing s with
  | nil => rfl
  | cons t ts ih =>
    simp only [List.cons_append, run]
    cases s.step callee t with
    | none => rfl
    | some s' => exact ih

theorem run_append_iff : s.run callee (ts ++ us) = some s'' ↔
    ∃ s', s.run callee ts = some s' ∧ s'.run callee us = some s'' := by
  rw [run_append, Option.bind_eq_some_iff]

end State

end Step

section Tight

variable {callee : Tree → Bool} {fs gs : List Frame} {f : Frame} {x : Option Tree} {t : Token}
  {ts : List Token} {s' : State}

/-- Whether a token may stand outside all brackets of a list with nothing loose in it. -/
def isAtomic : Token → Bool
  | .name _ => true
  | .number _ => true
  | .quoted _ => true
  | .opening _ => true
  | _ => false

namespace State

/-- One token above a frame: what it does does not depend on the frame. -/
theorem step_tight (ht : gs = [] → isAtomic t = true)
    (h : (State.mk x (gs ++ f :: fs)).step callee t = some s') :
    ∃ y hs, s' = ⟨y, hs ++ f :: fs⟩ ∧ (hs.length : Int) = gs.length + t.turn ∧
      (hs = [] → y.isSome = true) ∧
      ∀ g ks, (State.mk x (gs ++ g :: ks)).step callee t = some ⟨y, hs ++ g :: ks⟩ := by
  cases gs with
  | nil =>
    obtain ⟨m, hm, rfl⟩ := step_cons_iff.1 h
    have ha := ht rfl
    cases hm with
    | name hw => exact ⟨_, [], rfl, rfl, fun _ => rfl, fun g ks => step_cons_iff.2 ⟨_, .name hw, rfl⟩⟩
    | numeral hw =>
      exact ⟨_, [], rfl, rfl, fun _ => rfl, fun g ks => step_cons_iff.2 ⟨_, .numeral hw, rfl⟩⟩
    | group => exact ⟨_, [⟨_, _⟩], rfl, rfl, nofun, fun g ks => step_cons_iff.2 ⟨_, .group, rfl⟩⟩
    | call hf =>
      exact ⟨_, [⟨_, _⟩], rfl, rfl, nofun, fun g ks => step_cons_iff.2 ⟨_, .call hf, rfl⟩⟩
    | subscript hf =>
      exact ⟨_, [⟨_, _⟩], rfl, rfl, nofun, fun g ks => step_cons_iff.2 ⟨_, .subscript hf, rfl⟩⟩
    | close => cases ha
    | @sign o => cases o <;> cases ha
    | @skip o => cases o <;> cases ha
    | @join _ o => cases o <;> cases ha
  | cons g gs =>
    obtain ⟨m, hm, rfl⟩ := step_cons_iff.1 h
    have hstep : ∀ k ks, (State.mk x (g :: (gs ++ k :: ks))).step callee t =
        some (follow g (gs ++ k :: ks) m) := fun k ks => step_cons_iff.2 ⟨m, hm, rfl⟩
    have hturn := hm.turn
    cases m with
    | stay y ps =>
      refine ⟨y, ⟨g.purpose, ps⟩ :: gs, rfl, ?_, nofun, fun k ks => hstep k ks⟩
      simp [hturn, Move.turn]
    | enter p =>
      refine ⟨none, ⟨some p, []⟩ :: g :: gs, rfl, ?_, nofun, fun k ks => hstep k ks⟩
      simp [hturn, Move.turn]
    | leave a =>
      refine ⟨some a, gs, rfl, ?_, fun _ => rfl, fun k ks => hstep k ks⟩
      simp only [hturn, Move.turn, List.length_cons]
      omega

/-- Tokens with nothing loose in them, above a frame: none of the operations that wait there is
applied. -/
theorem run_tight (hc : Covered gs.length ts) (hl : hasLoose gs.length ts = false)
    (h : (State.mk x (gs ++ f :: fs)).run callee ts = some s') :
    ∃ y hs, s' = ⟨y, hs ++ f :: fs⟩ ∧ (hs.length : Int) = gs.length + depth ts ∧
      (ts ≠ [] → hs = [] → y.isSome = true) ∧
      ∀ g ks, (State.mk x (gs ++ g :: ks)).run callee ts = some ⟨y, hs ++ g :: ks⟩ := by
  induction ts generalizing x gs with
  | nil =>
    cases h
    exact ⟨x, gs, rfl, by simp, fun h => absurd rfl h, fun g ks => rfl⟩
  | cons t ts ih =>
    obtain ⟨s₁, hs, hr⟩ := run_cons_iff.1 h
    have ht : gs = [] → isAtomic t = true := by
      rintro rfl
      cases t with
      | name | number | quoted | opening => rfl
      | closing b => exact absurd (hc [Token.closing b] ts rfl) (by simp [Token.turn])
      | _ => simp [hasLoose] at hl
    obtain ⟨y, hs', rfl, hlen, hsome, hany⟩ := step_tight ht hs
    have hc' : Covered hs'.length ts := fun us vs hu => by
      have := hc (t :: us) vs (by simp [hu])
      simp only [depth_cons] at this
      omega
    have hl' : hasLoose hs'.length ts = false := by
      have := hasLoose_tail hl
      rwa [← hlen, Int.toNat_natCast] at this
    obtain ⟨z, ks', rfl, hlen', hsome', hany'⟩ := ih hc' hl' hr
    refine ⟨z, ks', rfl, by simp only [depth_cons]; omega, fun _ hk => ?_, fun g ks => ?_⟩
    · cases ts with
      | nil =>
        simp only [run_nil, Option.some.injEq, State.mk.injEq, List.append_cancel_right_eq] at hr
        obtain ⟨rfl, rfl⟩ := hr
        exact hsome hk
      | cons u us => exact hsome' (by simp) hk
    · exact run_cons_iff.2 ⟨_, hany g ks, hany' g ks⟩

variable {inside before after : List Token}

/-- What a term in a frame is read as does not depend on the frame. -/
theorem run_term (hi : Balanced inside) (hl : hasLoose 0 inside = false) (hne : inside ≠ [])
    (h : (State.mk x (f :: fs)).run callee inside = some s') :
    ∃ a, s' = ⟨some a, f :: fs⟩ ∧
      ∀ g gs, (State.mk x (g :: gs)).run callee inside = some ⟨some a, g :: gs⟩ := by
  have h : (State.mk x ([] ++ f :: fs)).run callee inside = some s' := h
  obtain ⟨y, hs, rfl, hlen, hsome, hany⟩ :=
    run_tight (by simpa using hi.covered) (by simpa using hl) h
  have hnil : hs = [] := List.length_eq_zero_iff.1 (by simpa [hi.closed] using hlen)
  subst hnil
  obtain ⟨a, rfl⟩ := Option.isSome_iff_exists.1 (hsome hne rfl)
  exact ⟨a, rfl, hany⟩

theorem step_round : (State.mk none (f :: fs)).step callee (.opening .round) =
    some ⟨none, ⟨some .group, []⟩ :: f :: fs⟩ :=
  step_cons_iff.2 ⟨_, .group, rfl⟩

theorem step_closing {a : Tree} : (State.mk (some a) (⟨some .group, []⟩ :: fs)).step callee
    (.closing .round) = some ⟨some a, fs⟩ :=
  step_cons_iff.2 ⟨_, .close (p := .group) rfl nofun, rfl⟩

/-- Parentheses around a term where an operand is expected. -/
theorem run_group (hi : Balanced inside) (hl : hasLoose 0 inside = false) (hne : inside ≠ []) :
    (State.mk none (f :: fs)).run callee
        (Token.opening .round :: (inside ++ [Token.closing .round])) =
      (State.mk none (f :: fs)).run callee inside := by
  have hrun (a : Tree) (h : ∀ g gs, (State.mk none (g :: gs)).run callee inside =
      some ⟨some a, g :: gs⟩) : (State.mk none (f :: fs)).run callee
      (.opening .round :: (inside ++ [Token.closing .round])) = some ⟨some a, f :: fs⟩ :=
    run_cons_iff.2 ⟨_, step_round, run_append_iff.2 ⟨_, h _ _, run_cons_iff.2 ⟨_, step_closing, rfl⟩⟩⟩
  ext s
  constructor
  · intro h
    obtain ⟨s₁, hs, hr⟩ := run_cons_iff.1 h
    rw [step_round, Option.some.injEq] at hs
    subst hs
    obtain ⟨s₂, hr, -⟩ := run_append_iff.1 hr
    obtain ⟨a, -, hany⟩ := run_term hi hl hne hr
    rw [← h, hrun a hany]
    exact hany f fs
  · intro h
    obtain ⟨a, rfl, hany⟩ := run_term hi hl hne h
    exact hrun a hany

/-- Behind a number nothing starts: neither a group nor a term. -/
theorem step_numeral (hc : ∀ w, callee (.numeral w) = false) {w : List Char}
    (ht : isAtomic t = true) : (State.mk (some (.numeral w)) fs).step callee t = none := by
  rw [Option.eq_none_iff_forall_ne_some]
  intro s h
  obtain ⟨f, gs, hf⟩ := exists_frame h
  cases hf
  obtain ⟨m, hm, -⟩ := step_cons_iff.1 h
  cases hm with
  | call ha => simp [hc] at ha
  | subscript ha => simp [hc] at ha
  | close => cases ht
  | @join _ o => cases o <;> cases ht

/-- What stands last where a bracket groups. -/
theorem step_groups (ht : t.takesBracket = false) {s : State} (h : s.step callee t = some s') :
    s'.operand = none ∨ ∃ w, s'.operand = some (.numeral w) := by
  obtain ⟨x, gs⟩ := s
  obtain ⟨f, fs, hf⟩ := exists_frame h
  cases hf
  obtain ⟨m, hm, rfl⟩ := step_cons_iff.1 h
  cases hm with
  | name => cases ht
  | numeral => exact .inr ⟨_, rfl⟩
  | close => cases ht
  | skip _ _ hj =>
    obtain ⟨ps, rfl⟩ := Frame.join_stays hj
    exact .inl rfl
  | join hj =>
    obtain ⟨ps, rfl⟩ := Frame.join_stays hj
    exact .inl rfl
  | _ => exact .inl rfl

theorem run_groups (hg : Groups before) (h : start.run callee before = some s') :
    s'.operand = none ∨ ∃ w, s'.operand = some (.numeral w) := by
  rcases List.eq_nil_or_concat before with rfl | ⟨us, t, rfl⟩
  · cases h
    exact .inl rfl
  · rw [List.concat_eq_append] at h hg
    obtain ⟨s, -, hs⟩ := run_append_iff.1 h
    obtain ⟨s₁, hs, hr⟩ := run_cons_iff.1 hs
    cases hr
    exact step_groups (hg t (by simp)) hs

theorem atomic_of_tight (hi : Balanced (t :: ts)) (hl : hasLoose 0 (t :: ts) = false) :
    isAtomic t = true := by
  have := hi.covered [t] ts rfl
  cases t <;> simp_all [hasLoose, isAtomic, Token.turn]

/-- A pair of parentheses may come or go around a term. -/
theorem run_unwrap (hc : ∀ w, callee (.numeral w) = false) (hg : Groups before)
    (hi : Balanced inside) (hl : hasLoose 0 inside = false) (hne : inside ≠ []) :
    start.run callee (before ++ .opening .round :: (inside ++ .closing .round :: after)) =
      start.run callee (before ++ (inside ++ after)) := by
  have hsplit : .opening .round :: (inside ++ .closing .round :: after) =
      (.opening .round :: (inside ++ [Token.closing .round])) ++ after := by simp
  rw [hsplit, run_append, run_append]
  cases hb : start.run callee before with
  | none => rfl
  | some s =>
    obtain ⟨x, fs⟩ := s
    simp only [Option.bind_some]
    rw [run_append, run_append]
    congr 1
    obtain ⟨u, us, rfl⟩ := List.exists_cons_of_ne_nil hne
    rcases run_groups hg hb with rfl | ⟨w, rfl⟩
    · cases fs with
      | nil => rfl
      | cons f fs => exact run_group hi hl hne
    · -- a call of a number, or two terms without an operator between them
      simp only [run, step_numeral hc (t := .opening .round) rfl,
        step_numeral hc (atomic_of_tight hi hl), Option.bind_none]

end State

end Tight

section Brackets

variable {callee : Tree → Bool} {cs ds st : List Bracket} {ts us : List Token} {a : Tree}

/-- The brackets that are open behind the tokens, the innermost first, unless one is closed that is
not open. -/
def openBrackets (cs : List Bracket) : List Token → Option (List Bracket)
  | [] => some cs
  | .opening b :: ts => openBrackets (b :: cs) ts
  | .closing b :: ts =>
    match cs with
    | [] => none
    | c :: cs => if c = b then openBrackets cs ts else none
  | _ :: ts => openBrackets cs ts

/-- Every bracket is closed by one of its own kind. -/
def Matched (ts : List Token) : Prop :=
  openBrackets [] ts = some []

theorem openBrackets_append :
    openBrackets cs (ts ++ us) = (openBrackets cs ts).bind (openBrackets · us) := by
  fun_induction openBrackets cs ts <;> simp_all [openBrackets]

theorem openBrackets_covered (cs : List Bracket) (hc : Covered cs.length ts)
    (h : openBrackets (cs ++ st) ts = some ds) :
    ∃ es, ds = es ++ st ∧ (es.length : Int) = cs.length + depth ts ∧
      ∀ st', openBrackets (cs ++ st') ts = some (es ++ st') := by
  induction ts generalizing cs with
  | nil =>
    cases h
    exact ⟨cs, rfl, by simp, fun _ => rfl⟩
  | cons t ts ih =>
    have ht := hc [t] ts rfl
    have hc' : Covered (cs.length + t.turn) ts := fun us vs hu => by
      have := hc (t :: us) vs (by simp [hu])
      simp only [depth_cons] at this
      omega
    cases t with
    | opening b =>
      obtain ⟨es, rfl, hlen, hany⟩ := ih (b :: cs) (by simpa [Token.turn] using hc') h
      refine ⟨es, rfl, ?_, hany⟩
      simp only [List.length_cons, depth_cons, Token.turn] at hlen ⊢
      omega
    | closing b =>
      cases cs with
      | nil => simp [Token.turn] at ht
      | cons c cs =>
        by_cases hcb : c = b
        · simp only [List.cons_append, openBrackets, if_pos hcb] at h ⊢
          have e : (((c :: cs).length : Nat) : Int) + Token.turn (.closing b) = cs.length := by
            simp only [Token.turn, List.length_cons]
            omega
          obtain ⟨es, rfl, hlen, hany⟩ := ih cs (by rwa [e] at hc') h
          refine ⟨es, rfl, ?_, hany⟩
          simp only [List.length_cons, depth_cons, Token.turn] at hlen ⊢
          omega
        · simp [openBrackets, hcb] at h
    | _ =>
      obtain ⟨es, rfl, hlen, hany⟩ := ih cs (by simpa [Token.turn] using hc') h
      exact ⟨es, rfl, by simpa [Token.turn] using hlen, hany⟩

theorem openBrackets_balanced (hb : Balanced ts) (h : openBrackets cs ts = some ds) :
    ds = cs ∧ ∀ es, openBrackets es ts = some es := by
  obtain ⟨es, rfl, hlen, hany⟩ := openBrackets_covered [] (by simpa using hb.covered) h
  have hnil : es = [] := List.length_eq_zero_iff.1 (by simpa [hb.closed] using hlen)
  subst hnil
  exact ⟨rfl, hany⟩

theorem matched_unwraps (h : Unwraps ts us) (hm : Matched ts) :
    Matched us ∧ ∃ before inside after, Groups before ∧ Balanced inside ∧
      hasLoose 0 inside = false ∧ inside ≠ [] ∧ us = before ++ (inside ++ after) ∧
      ts = before ++ .opening .round :: (inside ++ .closing .round :: after) := by
  obtain ⟨c, hg, hi, hl, hne⟩ := h
  rename_i before inside after
  rw [Matched, openBrackets_append] at hm
  obtain ⟨es, hb, hm⟩ := Option.bind_eq_some_iff.1 hm
  rw [openBrackets, openBrackets_append] at hm
  obtain ⟨ds, hd, hm⟩ := Option.bind_eq_some_iff.1 hm
  obtain ⟨rfl, hany⟩ := openBrackets_balanced hi hd
  have hround : Bracket.round = c := by
    by_contra hr
    simp [openBrackets, hr] at hm
  subst hround
  refine ⟨?_, before, inside, after, hg, hi, hl, hne, rfl, rfl⟩
  rw [Matched, openBrackets_append, hb, Option.bind_some, openBrackets_append, hany es,
    Option.bind_some]
  simpa [openBrackets] using hm

end Brackets

section Read

variable {callee : Tree → Bool} {ts us : List Token} {a : Tree} {s s' : State} {t : Token}

/-- The kinds of the brackets around a frame. -/
def kinds (fs : List Frame) : List Bracket :=
  fs.filterMap fun f => f.purpose.map Purpose.bracket

theorem openBrackets_joint (cs : List Bracket) (o : Joint) :
    openBrackets cs [o.token] = some cs := by
  cases o <;> rfl

theorem step_brackets (h : s.step callee t = some s') :
    openBrackets (kinds s.frames) [t] = some (kinds s'.frames) := by
  obtain ⟨x, gs⟩ := s
  obtain ⟨f, fs, hf⟩ := State.exists_frame h
  cases hf
  obtain ⟨m, hm, rfl⟩ := State.step_cons_iff.1 h
  have hstay (o : Joint) (y : Option Tree) (ps : List Pending) :
      openBrackets (kinds (f :: fs)) [o.token] =
        some (kinds (State.follow f fs (.stay y ps)).frames) := by
    rw [openBrackets_joint]
    rfl
  cases hm with
  | name => rfl
  | numeral => rfl
  | group => rfl
  | call => rfl
  | subscript => rfl
  | close hp => simp [kinds, openBrackets, State.follow, hp]
  | sign => exact hstay _ _ _
  | skip _ _ hj =>
    obtain ⟨ps, rfl⟩ := Frame.join_stays hj
    exact hstay _ _ _
  | join hj =>
    obtain ⟨ps, rfl⟩ := Frame.join_stays hj
    exact hstay _ _ _

/-- The frame of the line itself is the last one. -/
def Framed (s : State) : Prop :=
  s.frames.length = (kinds s.frames).length + 1

theorem framed_step (hs : Framed s) (h : s.step callee t = some s') : Framed s' := by
  obtain ⟨x, gs⟩ := s
  obtain ⟨f, fs, hf⟩ := State.exists_frame h
  cases hf
  obtain ⟨m, hm, rfl⟩ := State.step_cons_iff.1 h
  cases m with
  | stay y ps => exact hs
  | enter p => simpa [Framed, kinds, State.follow] using hs
  | leave a =>
    cases hm with
    | close hp => simpa [Framed, kinds, State.follow, hp] using hs
    | skip _ _ hj => cases Frame.join_stays hj with | intro _ h => cases h
    | join hj => cases Frame.join_stays hj with | intro _ h => cases h

theorem run_brackets (hs : Framed s) (h : s.run callee ts = some s') :
    openBrackets (kinds s.frames) ts = some (kinds s'.frames) ∧ Framed s' := by
  induction ts generalizing s with
  | nil =>
    cases h
    exact ⟨rfl, hs⟩
  | cons t ts ih =>
    obtain ⟨s₁, hstep, hr⟩ := State.run_cons_iff.1 h
    have ⟨ho, hf⟩ := ih (framed_step hs hstep) hr
    refine ⟨?_, hf⟩
    rw [← List.singleton_append, openBrackets_append, step_brackets hstep]
    exact ho

theorem matched_of_read (h : read callee ts = some a) : Matched ts := by
  obtain ⟨s, hr, ht⟩ := Option.bind_eq_some_iff.1 h
  obtain ⟨ho, hf⟩ := run_brackets (s := State.start) rfl hr
  have hnil : kinds s.frames = [] := by
    unfold State.tree? at ht
    split at ht
    · rename_i hs
      rw [Framed, hs] at hf
      rw [hs]
      exact List.length_eq_zero_iff.1 (by simpa using hf.symm)
    · cases ht
  rwa [hnil] at ho

/-- Redundant parentheses do not matter to the reader. -/
theorem read_regroup (hc : ∀ w, callee (.numeral w) = false) (h : ReflTransGen Unwraps ts us)
    (hm : Matched ts) : read callee us = read callee ts := by
  induction h using ReflTransGen.head_induction_on with
  | refl => rfl
  | head hu _ ih =>
    obtain ⟨hm', before, inside, after, hg, hi, hl, hne, rfl, rfl⟩ := matched_unwraps hu hm
    rw [ih hm', read, read, State.run_unwrap hc hg hi hl hne]

theorem read_normal (hc : ∀ w, callee (.numeral w) = false) (hm : Matched ts) :
    read callee (strip (collapse none ts)) = read callee ts :=
  read_regroup hc (normal_unwraps ts) hm

end Read

end Python

end Kinetics
