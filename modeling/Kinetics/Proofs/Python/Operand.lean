import Kinetics.Code.Printer
import Kinetics.Proofs.Python.Grammar
import Kinetics.Proofs.Python.Omission
import Mathlib.Data.List.Induction

/-!
# Kinetics.Proofs.Python.Operand

A quotient of two groups as one operand. Without parentheses of its own a quotient is cut where an
operation in front of it takes its numerator, or one behind it its denominator. A sign or a product
in front may take the numerator, for it comes to the same value; a division or a power may not, and
neither may a power, a call or a subscript take the denominator (`standsApart`). Everywhere else the
parentheses may come or go (`follows_quotient`).
-/

namespace Kinetics

namespace Python

open Arithmetic (Sign)
open Code

section Group

variable {callee : Tree → Bool} {cs ds : List Bracket} {us vs : List Token} {f : Frame}
  {fs : List Frame} {a b : Tree} {s : State}

theorem covered_of_openBrackets (h : openBrackets cs us = some ds) :
    Covered cs.length us ∧ (ds.length : Int) = cs.length + depth us := by
  induction us generalizing cs with
  | nil =>
    cases h
    exact ⟨Balanced.nil.covered.mono (by omega), by simp⟩
  | cons t us ih =>
    cases t with
    | opening b =>
      obtain ⟨hc, hd⟩ := @ih (b :: cs) h
      refine ⟨.cons (by omega) (by simpa [Token.turn] using hc), ?_⟩
      simp only [hd, List.length_cons, depth_cons, Token.turn]
      omega
    | closing b =>
      cases cs with
      | nil => cases h
      | cons c cs =>
        rw [openBrackets] at h
        split at h
        · obtain ⟨hc, hd⟩ := ih h
          refine ⟨.cons (by omega) (hc.mono ?_), ?_⟩
          · simp only [List.length_cons, Token.turn]
            omega
          · simp only [hd, List.length_cons, depth_cons, Token.turn]
            omega
        · cases h
    | _ =>
      obtain ⟨hc, hd⟩ := @ih cs h
      exact ⟨.cons (by omega) (by simpa [Token.turn] using hc), by simpa [Token.turn] using hd⟩

theorem Matched.balanced (h : Matched us) : Balanced us := by
  obtain ⟨hc, hd⟩ := covered_of_openBrackets h
  exact ⟨by simpa using hd.symm, by simpa using hc⟩

/-- The operand that a group is in any frame. -/
def Operand (callee : Tree → Bool) (us : List Token) (a : Tree) : Prop :=
  ∀ f fs, (State.mk none (f :: fs)).run callee (inBrackets .round us) = some ⟨some a, f :: fs⟩

theorem operand_of_run (hm : Matched us)
    (h : (State.mk none (f :: fs)).run callee (inBrackets .round us) = some s) :
    ∃ a, s = ⟨some a, f :: fs⟩ ∧ Operand callee us a :=
  State.run_term (hm.balanced.wrap _ _) (hasLoose_wrap _ _ hm.balanced) (by simp [inBrackets]) h

def quotient (us vs : List Token) : List Token :=
  inBrackets .round us ++ Joint.per.token :: inBrackets .round vs

theorem step_per : (State.mk (some a) (f :: fs)).step callee Joint.per.token =
    some ⟨none,
      ⟨f.purpose, .joint (settle 4 f.pending a).2 .per :: (settle 4 f.pending a).1⟩ :: fs⟩ :=
  rfl

theorem run_quotient (ha : Operand callee us a) (hb : Operand callee vs b) :
    (State.mk none (f :: fs)).run callee (quotient us vs) = some ⟨some b,
      ⟨f.purpose, .joint (settle 4 f.pending a).2 .per :: (settle 4 f.pending a).1⟩ :: fs⟩ :=
  State.run_append_iff.2 ⟨_, ha f fs, State.run_cons_iff.2 ⟨_, step_per, hb _ _⟩⟩

theorem run_grouped_quotient (ha : Operand callee us a) (hb : Operand callee vs b) :
    (State.mk none (f :: fs)).run callee (inBrackets .round (quotient us vs)) =
      some ⟨some (.joined .per a b), f :: fs⟩ := by
  have hclose : (State.mk (some b) (⟨some .group, [.joint a .per]⟩ :: f :: fs)).step callee
      (.closing .round) = some ⟨some (.joined .per a b), f :: fs⟩ := rfl
  exact State.run_cons_iff.2 ⟨_, State.step_round,
    State.run_append_iff.2 ⟨_, run_quotient ha hb, State.run_cons_iff.2 ⟨_, hclose, rfl⟩⟩⟩

/-- Both parts of a quotient that is read are operands. -/
theorem operands_of_run (hu : Matched us) (hv : Matched vs)
    (h : (State.mk none (f :: fs)).run callee (quotient us vs) = some s) :
    ∃ a b, Operand callee us a ∧ Operand callee vs b := by
  obtain ⟨s₁, h₁, h⟩ := State.run_append_iff.1 h
  obtain ⟨a, rfl, ha⟩ := operand_of_run hu h₁
  obtain ⟨s₂, h₂, h⟩ := State.run_cons_iff.1 h
  obtain rfl := Option.some.inj (step_per.symm.trans h₂)
  obtain ⟨b, -, hb⟩ := operand_of_run hv h
  exact ⟨a, b, ha, hb⟩

theorem operands_of_run_grouped (hu : Matched us) (hv : Matched vs)
    (h : (State.mk none (f :: fs)).run callee (inBrackets .round (quotient us vs)) = some s) :
    ∃ a b, Operand callee us a ∧ Operand callee vs b := by
  obtain ⟨s₁, h₁, h⟩ := State.run_cons_iff.1 h
  obtain rfl := Option.some.inj (State.step_round.symm.trans h₁)
  obtain ⟨s₂, h₂, -⟩ := State.run_append_iff.1 h
  exact operands_of_run hu hv h₂

end Group

section Waiting

variable {callee : Tree → Bool} {ps : List Pending} {a b d : Tree}

theorem below_settle (k : Nat) (ps : List Pending) (a : Tree) : Below k (settle k ps a).1 := by
  induction ps generalizing a with
  | nil => exact below_nil k
  | cons p ps ih =>
    by_cases hp : k ≤ p.binds
    · rw [settle_tight hp]
      exact ih _
    · rw [settle_loose (by omega)]
      exact below_cons.2 (by omega)

/-- Operations that may take the numerator of a quotient for the quotient. -/
inductive Lets : List Pending → Prop where
  | loose {ps : List Pending} : Below 4 ps → Lets ps
  | sign (s : Sign) {ps : List Pending} : Lets ps → Lets (.sign s :: ps)
  | times (a : Tree) {ps : List Pending} : Below 4 ps → Lets (.joint a .times :: ps)

theorem alike_times (c a b : Tree) :
    Alike (.joined .times c (.joined .per a b)) (.joined .per (.joined .times c a) b) :=
  ⟨by simp [Bool.or_assoc], fun K _ m => by simp [Joint.apply, mul_div_assoc]⟩

/-- Operations are applied to a quotient as to its numerator. -/
theorem settle_lets (h : Lets ps) (hd : Alike d (.joined .per a b)) :
    (settle 4 ps d).1 = (settle 4 ps a).1 ∧
      Alike (settle 4 ps d).2 (.joined .per (settle 4 ps a).2 b) := by
  induction h generalizing a d with
  | loose h =>
    rw [settle_below h, settle_below h]
    exact ⟨rfl, hd⟩
  | sign s _ ih =>
    rw [settle_tight (show 4 ≤ signBinds by decide), settle_tight (show 4 ≤ signBinds by decide)]
    exact ih ((hd.signed s).trans (alike_product a b rfl (by simp)))
  | times c h =>
    rw [settle_tight (Nat.le_refl 4), settle_tight (Nat.le_refl 4), settle_below h, settle_below h]
    exact ⟨rfl, ((Alike.refl c).joined .times hd).trans (alike_times c a b)⟩

/-- The last token in front of the signs at the end. -/
def beforeSigns? (ts : List Token) : Option Token :=
  (ts.reverse.dropWhile isPlusOrMinus).head?

theorem beforeSigns?_snoc (ts : List Token) (t : Token) :
    beforeSigns? (ts ++ [t]) = if isPlusOrMinus t then beforeSigns? ts else some t := by
  simp only [beforeSigns?, List.reverse_append, List.reverse_singleton, List.singleton_append,
    List.dropWhile_cons]
  split <;> rfl

/-- What would take the numerator of a quotient alone. -/
def dividing : List Joint :=
  [.per, .floor, .power]

def divides (ts : List Token) : Bool :=
  dividing.any fun o => beforeSigns? ts == some o.token

theorem isPlusOrMinus_joint {o : Joint} {s : Sign} (h : o.sign? = some s) :
    isPlusOrMinus o.token = true := by
  obtain rfl := Joint.sign?_eq.1 h
  cases s <;> rfl

theorem divides_snoc (us : List Token) {o : Joint} (h : o ∈ dividing) :
    divides (us ++ [o.token]) = true := by
  have hsign : isPlusOrMinus o.token = false := by
    revert o
    decide
  rw [divides, List.any_eq_true]
  exact ⟨o, h, by simp [beforeSigns?_snoc, hsign]⟩

/-- What waits where an operand is expected, unless a division or a power came last. -/
theorem lets_of_run {ts : List Token} {f : Frame} {fs : List Frame}
    (h : State.start.run callee ts = some ⟨none, f :: fs⟩) (hd : divides ts = false) :
    Lets f.pending := by
  have hnil : Lets [] := .loose (below_nil 4)
  induction ts using List.reverseRecOn generalizing f fs with
  | nil =>
    cases h
    exact hnil
  | append_singleton us t ih =>
    obtain ⟨s, hs, h⟩ := State.run_append_iff.1 h
    obtain ⟨s', h, hs'⟩ := State.run_cons_iff.1 h
    cases hs'
    obtain ⟨x, gs⟩ := s
    obtain ⟨g, gs, hg⟩ := State.exists_frame h
    cases hg
    obtain ⟨m, hm, hf⟩ := State.step_cons_iff.1 h
    have hjoin {a : Tree} {o : Joint} (ht : divides (us ++ [o.token]) = false)
        (hj : g.join a o = some m) : Lets f.pending := by
      obtain ⟨-, rfl⟩ := Frame.join_iff.1 hj
      cases hf
      by_cases ho : o = .times
      · subst ho
        exact .times _ (below_settle 4 g.pending a)
      · refine .loose (below_cons.2 ?_)
        have hno : o ∉ dividing := fun hin => by simp [divides_snoc us hin] at ht
        cases o <;> simp_all [Pending.binds, Joint.binds, dividing]
    cases hm with
    | name => cases hf
    | numeral => cases hf
    | close => cases hf
    | group =>
      cases hf
      exact hnil
    | call =>
      cases hf
      exact hnil
    | subscript =>
      cases hf
      exact hnil
    | @sign o s ho =>
      cases hf
      have hus : divides us = false := by
        rwa [divides, beforeSigns?_snoc, if_pos (isPlusOrMinus_joint ho)] at hd
      exact .sign s (ih hs hus)
    | skip _ _ hj => exact hjoin hd hj
    | join hj => exact hjoin hd hj

end Waiting

section Quotient

variable {us vs before after : List Token} {f : Frame} {s : State}

theorem Related.refl (floor : Bool) (ps : List Pending) : Related floor ps ps := by
  induction ps with
  | nil => exact .nil
  | cons p ps ih =>
    refine .cons ?_ ih
    cases p with
    | sign s => exact .sign s
    | joint a o => exact .joint o (.refl a)

theorem Frame.Alike.refl (floor : Bool) (f : Frame) : f.Alike floor f := by
  obtain ⟨purpose, ps⟩ := f
  refine ⟨?_, Related.refl floor ps⟩
  cases purpose with
  | none => exact .none
  | some p =>
    refine .some ?_
    cases p with
    | group => exact .group
    | call g => exact .call (.refl g)
    | subscript g => exact .subscript (.refl g)

theorem alike_frames_refl (floor : Bool) (fs : List Frame) :
    List.Forall₂ (Frame.Alike floor) fs fs := by
  induction fs with
  | nil => exact .nil
  | cons f fs ih => exact .cons (.refl floor f) ih

/-- Whether nothing around a quotient takes a part of it. -/
def standsApart (before after : List Token) : Bool :=
  expects before.getLast? && !divides before && endsAt 4 after.head?

theorem reached_run (h : State.start.run Tree.mentionsName before = some s) :
    Reached before.getLast? s := by
  rcases List.eq_nil_or_concat before with rfl | ⟨us, t, rfl⟩
  · cases h
    exact reached_start
  · rw [List.concat_eq_append] at h ⊢
    obtain ⟨s₀, -, hs⟩ := State.run_append_iff.1 h
    obtain ⟨s₁, hs, hr⟩ := State.run_cons_iff.1 hs
    cases hr
    rw [List.getLast?_concat]
    exact step_reached hs

/-- What both lines have. -/
def shared (ts : List Token) : List (Piece Token) :=
  ts.map .both

theorem shared_full (ts : List Token) : (shared ts).flatMap (Piece.full tokenMarks) = ts := by
  simp [shared, List.flatMap_map, Piece.full]

theorem shared_short (ts : List Token) : (shared ts).flatMap (Piece.short tokenMarks) = ts := by
  simp [shared, List.flatMap_map, Piece.short]

theorem sound_shared (last : Option Token) (ts : List Token) : Sound last (shared ts) = true := by
  induction ts generalizing last with
  | nil => rfl
  | cons t ts ih => exact ih (some t)

/-- The second of two lines is an expression with the value of the first one if that is one. -/
def Follows (ts us : List Token) : Prop :=
  ∀ a, read Tree.mentionsName ts = some a →
    ∃ b, read Tree.mentionsName us = some b ∧ Alike a b

/-- Tokens that are exchanged where an operand is expected, if the same tokens behind them cannot
tell the difference. -/
theorem follows_of_phase {xs ys : List Token} (he : expects before.getLast? = true)
    (h : ∀ f fs s, State.start.run Tree.mentionsName before = some ⟨none, f :: fs⟩ →
      (State.mk none (f :: fs)).run Tree.mentionsName xs = some s →
      ∃ b gs, (State.mk none (f :: fs)).run Tree.mentionsName ys = some ⟨some b, gs⟩ ∧
        Phase (shared after) s ⟨some b, gs⟩) (hne : xs ≠ []) :
    Follows (before ++ (xs ++ after)) (before ++ (ys ++ after)) := by
  intro a hread
  obtain ⟨u, hr, ha⟩ := Option.bind_eq_some_iff.1 hread
  obtain ⟨⟨x, gs⟩, hs, hr⟩ := State.run_append_iff.1 hr
  obtain ⟨s, hx, hr⟩ := State.run_append_iff.1 hr
  obtain rfl : x = none := (reached_run hs).expects he
  obtain ⟨t, ts, rfl⟩ := List.exists_cons_of_ne_nil hne
  obtain ⟨_, ht, -⟩ := State.run_cons_iff.1 hx
  obtain ⟨f, fs, hf⟩ := State.exists_frame ht
  cases hf
  obtain ⟨b, gs, hy, hp⟩ := h f fs s hs hx
  have hreached : Reached (some (.closing .round)) ⟨some b, gs⟩ := by
    refine ⟨fun h => ?_, fun _ => rfl, fun h => ?_⟩ <;> cases h
  have hrun := run_pieces (sound_shared _ after) hreached hp (by rwa [shared_full]) ha
  rw [shared_short] at hrun
  obtain ⟨u', c, hu', hc, hac⟩ := hrun
  exact ⟨c, Option.bind_eq_some_iff.2 ⟨u', State.run_append_iff.2 ⟨_, hs,
    State.run_append_iff.2 ⟨_, hy, hu'⟩⟩, hc⟩, hac⟩

/-- What comes behind a quotient applies it, and what takes it, whether the operations in front of
it take its numerator or all of it. -/
theorem settles_quotient (hl : Lets f.pending) (a b : Tree) :
    Settles 4 ⟨f.purpose, .joint (settle 4 f.pending a).2 .per :: (settle 4 f.pending a).1⟩ b
        ⟨f.purpose, (settle 4 f.pending a).1⟩ (.joined .per (settle 4 f.pending a).2 b) ∧
      Settles 4 f (.joined .per a b) ⟨f.purpose, (settle 4 f.pending a).1⟩
        (settle 4 f.pending (.joined .per a b)).2 ∧
      Alike (settle 4 f.pending (.joined .per a b)).2
        (.joined .per (settle 4 f.pending a).2 b) := by
  obtain ⟨hrest, halike⟩ := settle_lets hl (.refl (.joined .per a b))
  refine ⟨settles_apply (Nat.le_refl 4) rfl, ?_, halike⟩
  rw [← hrest]
  exact settles_self f _ (by omega)

/-- The parentheses around a quotient make no difference where it stands apart. -/
theorem follows_quotient (hu : Matched us) (hv : Matched vs)
    (h : standsApart before after = true) :
    Follows (before ++ (quotient us vs ++ after))
        (before ++ (inBrackets .round (quotient us vs) ++ after)) ∧
      Follows (before ++ (inBrackets .round (quotient us vs) ++ after))
        (before ++ (quotient us vs ++ after)) := by
  simp only [standsApart, Bool.and_eq_true, Bool.not_eq_true'] at h
  obtain ⟨⟨he, hd⟩, hafter⟩ := h
  have hnext : endsAt 4 (next? (shared after)) = true := by rwa [next?, shared_full]
  constructor
  · refine follows_of_phase he (fun f fs s hs hx => ?_) (by simp [quotient, inBrackets])
    obtain ⟨a, b, ha, hb⟩ := operands_of_run hu hv hx
    obtain rfl := Option.some.inj ((run_quotient ha hb).symm.trans hx)
    obtain ⟨h1, h2, h12⟩ := settles_quotient (lets_of_run hs hd) a b
    exact ⟨_, _, run_grouped_quotient ha hb,
      .settled (by omega) hnext h1 h2 (.refl _ _) h12.symm (alike_frames_refl _ fs)⟩
  · refine follows_of_phase he (fun f fs s hs hx => ?_) (by simp [inBrackets])
    obtain ⟨a, b, ha, hb⟩ := operands_of_run_grouped hu hv hx
    obtain rfl := Option.some.inj ((run_grouped_quotient ha hb).symm.trans hx)
    obtain ⟨h1, h2, h12⟩ := settles_quotient (lets_of_run hs hd) a b
    exact ⟨_, _, run_quotient ha hb,
      .settled (by omega) hnext h2 h1 (.refl _ _) h12 (alike_frames_refl _ fs)⟩

end Quotient

end Python

end Kinetics
