import Kinetics.Proofs.Python.Simulation

/-!
# Kinetics.Proofs.Python.Omission

Lines of which one leaves out what is nought in the other. A `Piece` is what both have, or one of
the ways to leave nought out: its parentheses, or nought itself with a sign before or behind it.
`Sound` tells from the neighbours where this is allowed. A sign goes together with nought only as
the binary or the leading sign of the whole term; so what stands before the sign is an operand, or
the term is the first one of a sum that goes on, and a sign or the end of the sum stands behind.

`read_pieces`: the shorter one of two such lines is read with the value of the longer one.
-/

namespace Kinetics

namespace Python

open Arithmetic (Sign)
open Code

inductive Piece (α : Type) where
  | both (x : α)
  /-- nought without its parentheses -/
  | nought
  /-- nought without its sign -/
  | alone (s : Sign)
  /-- nought and the sign before it -/
  | signed (s : Sign)
  /-- nought, but not the sign behind it -/
  | leading
  /-- nought and the plus behind it -/
  | ahead

/-- How nought and its signs are written. -/
structure Marks (α : Type) where
  opening : α
  zero : α
  closing : α
  sign : Sign → α

namespace Piece

variable {α β : Type} (k : Marks α)

def full : Piece α → List α
  | .both x => [x]
  | .nought => [k.opening, k.zero, k.closing]
  | .alone s => [k.sign s, k.opening, k.zero, k.closing]
  | .signed s => [k.sign s, k.opening, k.zero, k.closing]
  | .leading => [k.opening, k.zero, k.closing]
  | .ahead => [k.opening, k.zero, k.closing, k.sign .plus]

def short : Piece α → List α
  | .both x => [x]
  | .nought => [k.zero]
  | .alone _ => [k.zero]
  | .signed _ => []
  | .leading => []
  | .ahead => []

end Piece

def tokenMarks : Marks Token :=
  ⟨.opening .round, .number ['0'], .closing .round, Sign.token⟩

/-- Whether an operand is expected behind a token. -/
def expects : Option Token → Bool
  | none => true
  | some (.opening _) => true
  | some t => (Joint.ofToken? t).isSome

/-- Whether a sum starts behind a token. -/
def leads : Option Token → Bool
  | none => true
  | some (.opening _) => true
  | some t => (Joint.ofToken? t).any Joint.isLoose

/-- Whether a token applies the operations that bind at least so tightly. -/
def endsAt (p : Nat) : Option Token → Bool
  | none => true
  | some (.closing _) => true
  | some t => (Joint.ofToken? t).any fun o => o.applies ≤ p

def next? (ps : List (Piece Token)) : Option Token :=
  (ps.flatMap (Piece.full tokenMarks)).head?

/-- The sign that both lines go on with, once signs that are left out are passed over. -/
def nextSign? : List (Piece Token) → Option Sign
  | .both t :: _ => (Joint.ofToken? t).bind Joint.sign?
  | .signed s :: _ => some s
  | _ => none

def hasFloor (ps : List (Piece Token)) : Bool :=
  (ps.flatMap (Piece.full tokenMarks)).contains Joint.floor.token

/-- Whether a sum goes on without its first term. In front of a floor division a minus does not
belong to the whole term. -/
def goesOn (ps : List (Piece Token)) : Bool :=
  match nextSign? ps with
  | none => false
  | some .plus => true
  | some .minus => !hasFloor ps

/-- Whether what is left out may be; `last` is the token before, of those that are not left out. -/
def Sound (last : Option Token) : List (Piece Token) → Bool
  | [] => true
  | .both t :: ps => Sound (some t) ps
  | .nought :: ps => expects last && Sound (some tokenMarks.zero) ps
  | .alone _ :: ps => expects last && endsAt 4 (next? ps) && Sound (some tokenMarks.zero) ps
  | .signed _ :: ps =>
    (if expects last then leads last && goesOn ps else endsAt 3 (next? ps)) && Sound last ps
  | .leading :: ps => leads last && goesOn ps && Sound last ps
  | .ahead :: ps => leads last && Sound last ps

theorem sound_both (last : Option Token) (t : Token) (ps : List (Piece Token)) :
    Sound last (.both t :: ps) = Sound (some t) ps := by
  rw [Sound]

/-- What is known of a state from the token before it. -/
structure Reached (last : Option Token) (s : State) : Prop where
  expects : expects last = true → s.operand = none
  operand : Python.expects last = false → s.operand.isSome = true
  front : leads last = true → ∀ f fs, s.frames = f :: fs → AtFront f.pending

theorem reached_start : Reached none State.start :=
  ⟨fun _ => rfl, nofun, fun _ _ _ h _ hp => by cases h; cases hp⟩

section Step

variable {callee : Tree → Bool} {s s' : State} {t : Token} {f : Frame} {m : Move}

theorem expects_joint (o : Joint) : expects (some o.token) = true := by
  cases o <;> rfl

theorem leads_joint (o : Joint) : leads (some o.token) = o.isLoose := by
  cases o <;> rfl

theorem reached_joint {o : Joint} {p : Pending} {ps : List Pending} {fs : List Frame}
    (hp : o.isLoose = true → p.isLoose = true) :
    Reached (some o.token) (State.follow f fs (.stay none (p :: ps))) := by
  refine ⟨fun _ => rfl, fun h => ?_, fun h g gs hg q hq => ?_⟩
  · rw [expects_joint] at h
    cases h
  · cases hg
    cases hq
    exact hp (leads_joint o ▸ h)

theorem step_reached (h : s.step callee t = some s') : Reached (some t) s' := by
  obtain ⟨x, gs⟩ := s
  obtain ⟨f, fs, hf⟩ := State.exists_frame h
  cases hf
  obtain ⟨m, hm, rfl⟩ := State.step_cons_iff.1 h
  cases hm with
  | name => exact ⟨nofun, fun _ => rfl, nofun⟩
  | numeral => exact ⟨nofun, fun _ => rfl, nofun⟩
  | close => exact ⟨nofun, fun _ => rfl, nofun⟩
  | @sign o s ho =>
    refine reached_joint fun hl => ?_
    obtain rfl := Joint.sign?_eq.1 ho
    rw [Sign.not_isLoose] at hl
    cases hl
  | skip _ _ hj =>
    obtain ⟨-, rfl⟩ := Frame.join_iff.1 hj
    exact reached_joint id
  | join hj =>
    obtain ⟨-, rfl⟩ := Frame.join_iff.1 hj
    exact reached_joint id
  | _ => exact ⟨fun _ => rfl, nofun, fun _ g gs hg p hp => by cases hg; cases hp⟩

end Step

section Settles

variable {callee : Tree → Bool} {p k : Nat} {f f' f'' : Frame} {a a' a'' : Tree} {t : Token}
  {ps qs : List Pending}

theorem settle_loose_eq (h : 3 ≤ p) : (settle p ps a).1.any Pending.isLoose =
    ps.any Pending.isLoose := by
  induction ps generalizing a with
  | nil => rfl
  | cons q ps ih =>
    by_cases hq : p ≤ q.binds
    · have hl : q.isLoose = false := by
        rw [Bool.eq_false_iff]
        intro hl
        have := q.binds_of_loose hl
        omega
      rw [settle_tight hq, ih, List.any_cons, hl, Bool.false_or]
    · rw [settle_loose (by omega)]

theorem settle_colons (h : 3 ≤ p) : colons (settle p ps a).1 = colons ps := by
  induction ps generalizing a with
  | nil => rfl
  | cons q ps ih =>
    by_cases hq : p ≤ q.binds
    · rw [settle_tight hq, ih]
      cases q with
      | sign s => rw [colons_sign]
      | joint a o =>
        refine (colons_joint ?_).symm
        rw [Bool.eq_false_iff]
        intro hl
        have := Pending.binds_of_loose (q := .joint a o) hl
        omega
    · rw [settle_loose (by omega)]

/-- Frames and operands that are the same to a token that applies what binds at least so
tightly. -/
structure Settles (p : Nat) (f : Frame) (a : Tree) (f' : Frame) (a' : Tree) : Prop where
  purpose : f'.purpose = f.purpose
  settle : settle p f'.pending a' = settle p f.pending a
  loose : f'.pending.any Pending.isLoose = f.pending.any Pending.isLoose
  colons : colons f'.pending = colons f.pending

theorem Settles.refl (p : Nat) (f : Frame) (a : Tree) : Settles p f a f a :=
  ⟨rfl, rfl, rfl, rfl⟩

theorem Settles.trans (h : Settles p f a f' a') (g : Settles p f' a' f'' a'') :
    Settles p f a f'' a'' :=
  ⟨g.purpose.trans h.purpose, g.settle.trans h.settle, g.loose.trans h.loose,
    g.colons.trans h.colons⟩

theorem Settles.at (h : Settles p f a f' a') (hk : k ≤ p) :
    Python.settle k f'.pending a' = Python.settle k f.pending a := by
  rw [← settle_settle hk, h.settle, settle_settle hk]

theorem Settles.mono (h : Settles p f a f' a') (hk : k ≤ p) : Settles k f a f' a' :=
  ⟨h.purpose, h.at hk, h.loose, h.colons⟩

theorem settles_self (f : Frame) (a : Tree) (h : 3 ≤ p) :
    Settles p f a ⟨f.purpose, (Python.settle p f.pending a).1⟩ (Python.settle p f.pending a).2 :=
  ⟨rfl, settle_settle (Nat.le_refl p), settle_loose_eq h, settle_colons h⟩

/-- An operation that is applied anyway is applied now. -/
theorem settles_apply {P : Option Purpose} {q : Pending} (hq : p ≤ q.binds)
    (hl : q.isLoose = false) : Settles p ⟨P, q :: ps⟩ a ⟨P, ps⟩ (q.apply a) := by
  refine ⟨rfl, (settle_tight hq).symm, by simp [hl], ?_⟩
  cases q with
  | sign s => exact colons_sign s
  | joint b o => exact (colons_joint hl).symm

theorem Settles.content (h : Settles p f a f' a') : f'.content (some a') = f.content (some a) := by
  simp [Frame.content, h.at (Nat.zero_le p)]

theorem endsAt_joint (o : Joint) : endsAt p (some o.token) = decide (o.applies ≤ p) := by
  cases o <;> rfl

theorem endsAt_iff : endsAt p (some t) = true ↔
    (∃ b, t = .closing b) ∨ ∃ o : Joint, t = o.token ∧ o.applies ≤ p := by
  constructor
  · intro h
    unfold endsAt at h
    split at h
    · cases ‹some t = none›
    · cases ‹some t = _›
      exact .inl ⟨_, rfl⟩
    · cases ‹some t = _›
      cases ho : Joint.ofToken? t with
      | none => simp [ho] at h
      | some o => exact .inr ⟨o, (Joint.token_of_ofToken? ho).symm, by simpa [ho] using h⟩
  · rintro (⟨b, rfl⟩ | ⟨o, rfl, ho⟩)
    · rfl
    · simpa [endsAt_joint] using ho

theorem Settles.move (h : Settles p f a f' a') (ht : endsAt p (some t) = true) :
    f'.move callee (some a') t = f.move callee (some a) t := by
  rcases endsAt_iff.1 ht with ⟨b, rfl⟩ | ⟨o, rfl, ho⟩
  · show f'.close (some a') b = f.close (some a) b
    simp only [Frame.close, h.purpose, h.loose, h.content, Option.isNone_some]
  · have hc := h.colons
    simp only [Python.colons] at hc
    have ha : f'.admits o = f.admits o := by
      rw [Frame.admits, Frame.admits, Frame.opensSubscript, Frame.opensSubscript, h.purpose, hc]
    show f'.proceed callee a' o.token = f.proceed callee a o.token
    rw [Frame.proceed_joint, Frame.proceed_joint, Frame.join, Frame.join, ha, h.at ho]

theorem Settles.step {fs : List Frame} (h : Settles p f a f' a') (ht : endsAt p (some t) = true) :
    (State.mk (some a') (f' :: fs)).step callee t = (State.mk (some a) (f :: fs)).step callee t := by
  have hm : f'.move callee (some a') t = f.move callee (some a) t := h.move ht
  simp only [State.step, hm]
  cases hf : f.move callee (some a) t with
  | none => rfl
  | some m =>
    cases m with
    | stay x ps => simp [State.follow, h.purpose]
    | leave x => rfl
    | enter q =>
      have hturn := (Frame.move_iff.1 hf).turn
      rcases endsAt_iff.1 ht with ⟨b, rfl⟩ | ⟨o, rfl, -⟩
      · cases hturn
      · rw [o.turn_token] at hturn
        cases hturn

end Settles

section Nought

variable {callee : Tree → Bool} {floor : Bool} {f : Frame} {fs : List Frame} {a v : Tree} {s : Sign}
  {ps qs : List Pending} {st : State}

theorem Sign.token_joint (s : Sign) : (Sign.joint s).token = s.token := by
  cases s <;> rfl

theorem run_nought : (State.mk none (f :: fs)).run callee
    [tokenMarks.opening, tokenMarks.zero, tokenMarks.closing] =
      some ⟨some (.numeral ['0']), f :: fs⟩ := by
  have hz : (State.mk none (f :: fs)).run callee [.number ['0']] =
      some ⟨some (.numeral ['0']), f :: fs⟩ := rfl
  have hg : (State.mk none (f :: fs)).run callee
      (.opening .round :: ([Token.number ['0']] ++ [Token.closing .round])) = _ :=
    State.run_group (.single rfl) rfl (by simp)
  exact hg.trans hz

theorem step_sign : (State.mk none (f :: fs)).step callee s.token =
    some ⟨none, ⟨f.purpose, .sign s :: f.pending⟩ :: fs⟩ := by
  cases s <;> rfl

theorem step_joint : (State.mk (some a) (f :: fs)).step callee s.token =
    some ⟨none, ⟨f.purpose, .joint (settle 3 f.pending a).2 (Sign.joint s) ::
      (settle 3 f.pending a).1⟩ :: fs⟩ := by
  cases s <;> rfl

/-- Nought at the front of a sum, with the terms before it that the other line has left out. -/
theorem front_settles (h : Related floor ps qs) (hq : AtFront qs) (hv : IsNought v) :
    ∃ rs c, settle 3 ps v = (rs, c) ∧ IsNought c ∧ AtFront rs ∧ Related floor rs qs := by
  cases h with
  | nil => exact ⟨[], v, rfl, hv, hq, .nil⟩
  | @cons p q ps qs hp hr =>
    have hf : AtFront (p :: ps) := by
      intro r hr
      cases hr
      have := hq q rfl
      cases hp <;> exact this
    exact ⟨_, v, settle_front hf (Nat.le_refl 3), hv, hf, .cons hp hr⟩
  | @plus c ps _ hc hf _ hr =>
    refine ⟨ps, _, ?_, hc.joined .plus hv, hf, hr⟩
    rw [settle_tight (Nat.le_refl 3), settle_front hf (Nat.le_refl 3)]
    rfl
  | sign => cases hq _ rfl
  | product s o _ _ _ _ ho =>
    have := hq _ rfl
    rw [Pending.isLoose_joint, Joint.not_isLoose ho] at this
    cases this

theorem Related.weaken {floor' : Bool} (h : Related floor ps qs)
    (hf : floor' = true → floor = true) : Related floor' ps qs := by
  have hm (s : Sign) (hs : s = .minus → floor = false) : s = .minus → floor' = false := by
    intro h
    rw [Bool.eq_false_iff]
    intro h'
    have := hs h
    simp [hf h'] at this
  induction h with
  | nil => exact .nil
  | cons hp _ ih => exact .cons hp ih
  | plus hc hf hg _ ih => exact .plus hc hf hg ih
  | sign s hc hf hg hs _ ih => exact .sign s hc hf hg (hm s hs) ih
  | product s o hc hf hg hs ho hfl ha _ ih => exact .product s o hc hf hg (hm s hs) ho hfl ha ih

theorem Frame.Alike.weaken {g : Frame} {floor' : Bool} (h : f.Alike floor g)
    (hf : floor' = true → floor = true) : f.Alike floor' g :=
  ⟨h.purpose, h.pending.weaken hf⟩

theorem State.Alike.weaken {st' : State} {floor' : Bool} (h : st.Alike floor st')
    (hf : floor' = true → floor = true) : st.Alike floor' st' :=
  ⟨h.operand, h.frames.imp fun _ _ hr => Frame.Alike.weaken hr hf⟩

end Nought

section Run

/-- How far two runs are apart in front of the pieces. Between pieces they are the same, but for the
operations that what comes next applies, or but for terms that only one of them has read. -/
inductive Phase (ps : List (Piece Token)) : State → State → Prop where
  | same {s s' : State} : s.Alike (hasFloor ps) s' → Phase ps s s'
  | settled {p : Nat} {f f' g g' : Frame} {fs gs : List Frame} {a a' b b' : Tree} : 3 ≤ p →
      endsAt p (next? ps) = true → Settles p f a f' a' → Settles p g b g' b' →
      f'.Alike (hasFloor ps) g' → Alike a' b' →
      List.Forall₂ (Frame.Alike (hasFloor ps)) fs gs → Phase ps ⟨some a, f :: fs⟩ ⟨some b, g :: gs⟩
  | front {s : Sign} {f g : Frame} {fs gs : List Frame} {rs : List Pending} {a c : Tree} :
      nextSign? ps = some s → (s = .minus → hasFloor ps = false) →
      settle 3 f.pending a = (rs, c) → IsNought c → AtFront rs → AtFront g.pending →
      Frame.Alike (hasFloor ps) ⟨f.purpose, rs⟩ g →
      List.Forall₂ (Frame.Alike (hasFloor ps)) fs gs → Phase ps ⟨some a, f :: fs⟩ ⟨none, g :: gs⟩

variable {last : Option Token} {x : Piece Token} {ps : List (Piece Token)} {s s' u : State}
  {f g : Frame} {fs gs : List Frame} {a b : Tree} {t : Token}

theorem hasFloor_tail (h : hasFloor ps = true) : hasFloor (x :: ps) = true := by
  simp only [hasFloor, List.flatMap_cons, List.contains_append, Bool.or_eq_true] at h ⊢
  exact .inr h

/-- A token that both lines have. -/
theorem step_phase (h : Phase (.both t :: ps) s s') (hu : s.step Tree.mentionsName t = some u) :
    ∃ u', s'.step Tree.mentionsName t = some u' ∧ u.Alike (hasFloor ps) u' := by
  have ht : t = Joint.floor.token → hasFloor (.both t :: ps) = true := by
    rintro rfl
    simp [hasFloor, Piece.full]
  have hsame {v v' : State} (hv : v.Alike (hasFloor (.both t :: ps)) v')
      (hu : v.step Tree.mentionsName t = some u) :
      ∃ u', v'.step Tree.mentionsName t = some u' ∧ u.Alike (hasFloor ps) u' := by
    obtain ⟨u', hu', hr⟩ := step_related hv ht hu
    exact ⟨u', hu', hr.weaken hasFloor_tail⟩
  cases h with
  | same h => exact hsame h hu
  | settled _ hn hf hg hr ha hfs =>
    rw [← hf.step hn] at hu
    rw [← hg.step hn]
    exact hsame ⟨.some ha, .cons hr hfs⟩ hu
  | @front s f g fs gs rs a c hn hfl hs hc hrs hg hr hfs =>
    obtain ⟨o, rfl, ho⟩ : ∃ o : Joint, o.token = t ∧ o.sign? = some s :=
      Joint.bind_ofToken?.1 hn
    obtain rfl := Joint.sign?_eq.1 ho
    rw [Sign.token_joint, step_joint, hs, Option.some.injEq] at hu
    subst hu
    rw [Sign.token_joint, step_sign]
    exact ⟨_, rfl, ⟨.none, .cons ⟨hr.purpose, (Related.sign s hc hrs hg hfl hr.pending).weaken
      hasFloor_tail⟩ (hfs.imp fun _ _ h => Frame.Alike.weaken h hasFloor_tail)⟩⟩

theorem goesOn_iff : goesOn ps = true ↔
    ∃ s, nextSign? ps = some s ∧ (s = .minus → hasFloor ps = false) := by
  unfold goesOn
  cases nextSign? ps with
  | none => simp
  | some s => cases s <;> simp

/-- The first terms of a sum are left out. -/
theorem front_phase {v : Tree} (hg : goesOn ps = true) (hf : f.Alike (hasFloor (x :: ps)) g)
    (hfs : List.Forall₂ (Frame.Alike (hasFloor (x :: ps))) fs gs) (hfront : AtFront g.pending)
    (hv : IsNought v) {f' : Frame} {a' : Tree} (hp : f'.purpose = f.purpose)
    (hs : settle 3 f'.pending a' = settle 3 f.pending v) :
    Phase ps ⟨some a', f' :: fs⟩ ⟨none, g :: gs⟩ := by
  obtain ⟨s, hn, hfl⟩ := goesOn_iff.1 hg
  obtain ⟨rs, c, hrs, hc, hfr, hr⟩ := front_settles hf.pending hfront hv
  refine .front hn hfl (hs.trans hrs) hc hfr hfront ?_ ?_
  · exact ⟨hp ▸ hf.purpose, hr.weaken hasFloor_tail⟩
  · exact hfs.imp fun _ _ h => Frame.Alike.weaken h hasFloor_tail

/-- A sign and nought behind an operand. -/
theorem follow_phase {f' g' : Frame} {a' b' : Tree} (sign : Sign) (hn : endsAt 3 (next? ps) = true)
    (hf : Settles 3 f a f' a') (hg : Settles 3 g b g' b') (hr : f'.Alike (hasFloor (x :: ps)) g')
    (ha : Alike a' b') (hfs : List.Forall₂ (Frame.Alike (hasFloor (x :: ps))) fs gs) :
    Phase ps ⟨some (.numeral ['0']), ⟨f.purpose, .joint (settle 3 f.pending a).2 (Sign.joint sign) ::
      (settle 3 f.pending a).1⟩ :: fs⟩ ⟨some b, g :: gs⟩ := by
  have hset := settle_related (p := 3) hr.pending ha
  have hg' := hg.trans (settles_self g' b' (Nat.le_refl 3))
  rw [hf.settle] at hset
  generalize settle 3 f.pending a = v at hset ⊢
  generalize settle 3 g'.pending b' = w at hset hg'
  cases hset with
  | both hrs hcd =>
    rename_i rs qs c d
    have hbinds : 3 ≤ (Pending.joint c (Sign.joint sign)).binds := by
      cases sign <;> exact Nat.le_refl 3
    refine .settled (Nat.le_refl 3) hn (settles_apply hbinds (Sign.not_isLoose sign)) hg' ?_ ?_ (hfs.imp fun _ _ h =>
      Frame.Alike.weaken h hasFloor_tail)
    · exact ⟨hf.purpose ▸ hr.purpose, hrs.weaken hasFloor_tail⟩
    · exact (IsNought.zero.follow sign).trans hcd
  | product _ h => omega

theorem expects_of_leads (h : leads last = true) : expects last = true := by
  unfold leads at h
  split at h
  · rfl
  · rfl
  · rename_i t ht
    unfold expects
    split
    · rfl
    · rfl
    · rename_i t' _ ht'
      cases ht'
      cases hj : Joint.ofToken? t with
      | none => simp [hj] at h
      | some o => rfl

theorem alike_frames (h : s.Alike (hasFloor (x :: ps)) s')
    (hu : s.step Tree.mentionsName t = some u) :
    ∃ f fs g gs, s = ⟨s.operand, f :: fs⟩ ∧ s' = ⟨s'.operand, g :: gs⟩ ∧
      f.Alike (hasFloor (x :: ps)) g ∧ List.Forall₂ (Frame.Alike (hasFloor (x :: ps))) fs gs := by
  obtain ⟨y, fs⟩ := s
  obtain ⟨y', gs⟩ := s'
  obtain ⟨f, fs, rfl⟩ := State.exists_frame hu
  cases h.frames with | @cons _ g _ gs hf hfs =>
  exact ⟨f, fs, g, gs, rfl, rfl, hf, hfs⟩

/-- Where an operand is expected and both lines have read the same. -/
theorem alike_expecting (h : s.Alike (hasFloor (x :: ps)) s') (hx : s'.operand = none)
    (hu : s.step Tree.mentionsName t = some u) :
    ∃ f fs g gs, s = ⟨none, f :: fs⟩ ∧ s' = ⟨none, g :: gs⟩ ∧
      f.Alike (hasFloor (x :: ps)) g ∧ List.Forall₂ (Frame.Alike (hasFloor (x :: ps))) fs gs := by
  obtain ⟨f, fs, g, gs, hs, hs', hf, hfs⟩ := alike_frames h hu
  have ho := h.operand
  rw [hx] at ho
  have hn : s.operand = none := by
    generalize s.operand = y at ho
    cases ho
    rfl
  exact ⟨f, fs, g, gs, hn ▸ hs, hx ▸ hs', hf, hfs⟩

theorem phase_expecting {ts : List Token} (h : Phase (x :: ps) s s') (hx : s'.operand = none)
    (hn : nextSign? (x :: ps) = none) (hu : s.run Tree.mentionsName (t :: ts) = some u) :
    ∃ f fs g gs, s = ⟨none, f :: fs⟩ ∧ s' = ⟨none, g :: gs⟩ ∧ f.Alike (hasFloor (x :: ps)) g ∧
      List.Forall₂ (Frame.Alike (hasFloor (x :: ps))) fs gs := by
  obtain ⟨v, hv, -⟩ := State.run_cons_iff.1 hu
  cases h with
  | settled => cases hx
  | front hn' => simp [hn] at hn'
  | same h => exact alike_expecting h hx hv

/-- What holds behind a piece that has been read. -/
def Passed (ps : List (Piece Token)) (s' u : State) (ts : List Token) : Prop :=
  ∃ last u', s'.run Tree.mentionsName ts = some u' ∧ Sound last ps = true ∧ Reached last u' ∧
    Phase ps u u'

theorem step_zero : (State.mk none (g :: gs)).step Tree.mentionsName tokenMarks.zero =
    some ⟨some (.numeral ['0']), g :: gs⟩ := rfl

theorem nought_passed (hs : Sound last (.nought :: ps) = true) (hr : Reached last s')
    (hp : Phase (.nought :: ps) s s')
    (hu : s.run Tree.mentionsName (Piece.nought.full tokenMarks) = some u) :
    Passed ps s' u (Piece.nought.short tokenMarks) := by
  simp only [Sound, Bool.and_eq_true] at hs
  obtain ⟨f, fs, g, gs, rfl, rfl, hf, hfs⟩ := phase_expecting hp (hr.expects hs.1) rfl hu
  obtain rfl := Option.some.inj (run_nought.symm.trans hu)
  refine ⟨_, _, State.run_cons_iff.2 ⟨_, step_zero, rfl⟩, hs.2, step_reached step_zero, .same ?_⟩
  exact State.Alike.weaken ⟨.some (.refl _), .cons hf hfs⟩ hasFloor_tail

theorem alone_passed {sign : Sign} (hs : Sound last (.alone sign :: ps) = true)
    (hr : Reached last s') (hp : Phase (.alone sign :: ps) s s')
    (hu : s.run Tree.mentionsName ((Piece.alone sign).full tokenMarks) = some u) :
    Passed ps s' u ((Piece.alone sign).short tokenMarks) := by
  simp only [Sound, Bool.and_eq_true] at hs
  obtain ⟨⟨he, hn⟩, hs⟩ := hs
  obtain ⟨f, fs, g, gs, rfl, rfl, hf, hfs⟩ := phase_expecting hp (hr.expects he) rfl hu
  obtain ⟨v, hv, hu⟩ := State.run_cons_iff.1 hu
  obtain rfl := Option.some.inj (step_sign.symm.trans hv)
  obtain rfl := Option.some.inj (run_nought.symm.trans hu)
  refine ⟨_, _, State.run_cons_iff.2 ⟨_, step_zero, rfl⟩, hs, step_reached step_zero, ?_⟩
  have hz : Alike (.signed sign (.numeral ['0'])) (.numeral ['0']) :=
    ⟨rfl, fun K _ m => by rw [(IsNought.zero.signed sign).value, IsNought.zero.value]⟩
  exact .settled (p := 4) (by omega) hn (settles_apply (show 4 ≤ signBinds by decide) rfl)
    (.refl 4 g _) (hf.weaken hasFloor_tail) hz
    (hfs.imp fun _ _ h => Frame.Alike.weaken h hasFloor_tail)

theorem leading_passed (hs : Sound last (.leading :: ps) = true) (hr : Reached last s')
    (hp : Phase (.leading :: ps) s s')
    (hu : s.run Tree.mentionsName (Piece.leading.full tokenMarks) = some u) :
    Passed ps s' u (Piece.leading.short tokenMarks) := by
  simp only [Sound, Bool.and_eq_true] at hs
  obtain ⟨⟨hl, hg⟩, hs⟩ := hs
  obtain ⟨f, fs, g, gs, rfl, rfl, hf, hfs⟩ :=
    phase_expecting hp (hr.expects (expects_of_leads hl)) rfl hu
  obtain rfl := Option.some.inj (run_nought.symm.trans hu)
  exact ⟨last, _, rfl, hs, hr, front_phase hg hf hfs (hr.front hl g gs rfl) .zero rfl rfl⟩

theorem ahead_passed (hs : Sound last (.ahead :: ps) = true) (hr : Reached last s')
    (hp : Phase (.ahead :: ps) s s')
    (hu : s.run Tree.mentionsName (Piece.ahead.full tokenMarks) = some u) :
    Passed ps s' u (Piece.ahead.short tokenMarks) := by
  simp only [Sound, Bool.and_eq_true] at hs
  obtain ⟨hl, hs⟩ := hs
  obtain ⟨f, fs, g, gs, rfl, rfl, hf, hfs⟩ :=
    phase_expecting hp (hr.expects (expects_of_leads hl)) rfl hu
  have hu : (State.mk none (f :: fs)).run Tree.mentionsName
      ([tokenMarks.opening, tokenMarks.zero, tokenMarks.closing] ++ [Sign.plus.token]) = some u := hu
  obtain ⟨v, hv, hu⟩ := State.run_append_iff.1 hu
  obtain rfl := Option.some.inj (run_nought.symm.trans hv)
  obtain ⟨v, hv, hu⟩ := State.run_cons_iff.1 hu
  obtain rfl := Option.some.inj (step_joint.symm.trans hv)
  cases hu
  have hfront := hr.front hl g gs rfl
  obtain ⟨rs, c, hset, hc, hrs, hrel⟩ := front_settles hf.pending hfront .zero
  rw [hset]
  exact ⟨last, _, rfl, hs, hr, .same ⟨.none,
    .cons ⟨hf.purpose, (Related.plus hc hrs hfront hrel).weaken hasFloor_tail⟩
      (hfs.imp fun _ _ h => Frame.Alike.weaken h hasFloor_tail)⟩⟩

theorem signed_passed {sign : Sign} (hs : Sound last (.signed sign :: ps) = true)
    (hr : Reached last s') (hp : Phase (.signed sign :: ps) s s')
    (hu : s.run Tree.mentionsName ((Piece.signed sign).full tokenMarks) = some u) :
    Passed ps s' u ((Piece.signed sign).short tokenMarks) := by
  simp only [Sound, Bool.and_eq_true] at hs
  obtain ⟨hc, hs⟩ := hs
  refine ⟨last, _, rfl, hs, hr, ?_⟩
  obtain ⟨v, hv, hu⟩ := State.run_cons_iff.1 hu
  split at hc
  · -- the sign leads a sum, or follows terms that are left out
    rename_i he
    simp only [Bool.and_eq_true] at hc
    have hx := hr.expects he
    cases hp with
    | settled => cases hx
    | same h =>
      obtain ⟨f, fs, g, gs, rfl, rfl, hf, hfs⟩ := alike_expecting h hx hv
      obtain rfl := Option.some.inj (step_sign.symm.trans hv)
      obtain rfl := Option.some.inj (run_nought.symm.trans hu)
      exact front_phase hc.2 hf hfs (hr.front hc.1 g gs rfl) (IsNought.zero.signed sign) rfl
        (settle_tight (show 3 ≤ signBinds by decide))
    | @front _ f g fs gs rs a c _ _ hset hc' hrs hg hf hfs =>
      obtain rfl := Option.some.inj (step_joint.symm.trans hv)
      obtain rfl := Option.some.inj (run_nought.symm.trans hu)
      rw [hset]
      refine front_phase hc.2 hf hfs hg (hc'.joined sign .zero) rfl (settle_tight ?_)
      cases sign <;> exact Nat.le_refl 3
  · -- the sign stands behind an operand
    rename_i he
    have hx := hr.operand (by simpa using he)
    cases hp with
    | front => cases hx
    | settled h3 _ hf hg hfg ha hfs =>
      obtain rfl := Option.some.inj (step_joint.symm.trans hv)
      obtain rfl := Option.some.inj (run_nought.symm.trans hu)
      exact follow_phase sign hc (hf.mono h3) (hg.mono h3) hfg ha hfs
    | same h =>
      obtain ⟨f, fs, g, gs, hs₁, hs₂, hf, hfs⟩ := alike_frames h hv
      have ho := h.operand
      rw [hs₁] at hv
      rw [hs₂]
      generalize s.operand = y at ho hv
      generalize s'.operand = y' at ho hx
      cases ho with
      | none => cases hx
      | some ha =>
        obtain rfl := Option.some.inj (step_joint.symm.trans hv)
        obtain rfl := Option.some.inj (run_nought.symm.trans hu)
        exact follow_phase sign hc (.refl 3 f _) (.refl 3 g _) hf ha hfs

theorem piece_passed (hs : Sound last (x :: ps) = true) (hr : Reached last s')
    (hp : Phase (x :: ps) s s') (hu : s.run Tree.mentionsName (x.full tokenMarks) = some u) :
    Passed ps s' u (x.short tokenMarks) := by
  cases x with
  | both t =>
    rw [sound_both] at hs
    obtain ⟨v, hv, hu⟩ := State.run_cons_iff.1 hu
    cases hu
    obtain ⟨u', hu', ha⟩ := step_phase hp hv
    exact ⟨some t, u', State.run_cons_iff.2 ⟨u', hu', rfl⟩, hs, step_reached hu', .same ha⟩
  | nought => exact nought_passed hs hr hp hu
  | alone sign => exact alone_passed hs hr hp hu
  | signed sign => exact signed_passed hs hr hp hu
  | leading => exact leading_passed hs hr hp hu
  | ahead => exact ahead_passed hs hr hp hu

/-- At the end of both lines. -/
theorem phase_tree? (h : Phase [] s s') (ha : s.tree? = some a) :
    ∃ b, s'.tree? = some b ∧ Alike a b := by
  cases h with
  | same h => exact tree?_related h ha
  | front hn => cases hn
  | @settled p f f' g g' fs gs c c' d d' _ _ hf hg hr hc hfs =>
    cases hfs with
    | cons => cases ha
    | nil =>
      cases ha
      refine ⟨_, rfl, ?_⟩
      rw [← hf.content, ← hg.content]
      exact hr.content (.some hc)

/-- The pieces of a line, one after the other. -/
theorem run_pieces (hs : Sound last ps = true) (hr : Reached last s') (hp : Phase ps s s')
    (hu : s.run Tree.mentionsName (ps.flatMap (Piece.full tokenMarks)) = some u)
    (ha : u.tree? = some a) :
    ∃ u' b, s'.run Tree.mentionsName (ps.flatMap (Piece.short tokenMarks)) = some u' ∧
      u'.tree? = some b ∧ Alike a b := by
  induction ps generalizing last s s' with
  | nil =>
    cases hu
    obtain ⟨b, hb, hab⟩ := phase_tree? hp ha
    exact ⟨s', b, rfl, hb, hab⟩
  | cons x ps ih =>
    rw [List.flatMap_cons] at hu
    obtain ⟨v, hv, hu⟩ := State.run_append_iff.1 hu
    obtain ⟨last', v', hv', hs', hr', hp'⟩ := piece_passed hs hr hp hv
    obtain ⟨u', b, hu', hb, hab⟩ := ih hs' hr' hp' hu
    exact ⟨u', b, by rw [List.flatMap_cons, State.run_append_iff]; exact ⟨v', hv', hu'⟩, hb, hab⟩

/-- A line that leaves out what is nought, where it may, is read with the same value. -/
theorem read_pieces (hs : Sound none ps = true)
    (ha : read Tree.mentionsName (ps.flatMap (Piece.full tokenMarks)) = some a) :
    ∃ b, read Tree.mentionsName (ps.flatMap (Piece.short tokenMarks)) = some b ∧ Alike a b := by
  obtain ⟨u, hu, ha⟩ := Option.bind_eq_some_iff.1 ha
  have hstart : Phase ps State.start State.start :=
    .same ⟨.none, .cons ⟨.none, .nil⟩ .nil⟩
  obtain ⟨u', b, hu', hb, hab⟩ := run_pieces hs reached_start hstart hu ha
  exact ⟨b, Option.bind_eq_some_iff.2 ⟨u', hu', hb⟩, hab⟩

end Run

end Python

end Kinetics
