import Kinetics.Proofs.Python.Regrouping

/-!
# Kinetics.Proofs.Python.Grammar

The grammar of the expressions that are read. `Parses` says it as the language does, one
production after the other: comparisons and sums and products group from the left, a sign binds
tighter than a product and looser than a power on its left, a power groups from the right; tuples
and, between square brackets, slices bind loosest. The reader finds the tree of an expression and
accepts nothing else (`read_iff`), so an expression has one tree.
-/

namespace Kinetics

namespace Python

open Arithmetic (Sign)
open Code

namespace Tree

/-- Whether something in the tree is bound looser than by a sum. -/
def isLoose : Tree → Bool
  | .absent => true
  | .joined o _ _ => o.isLoose
  | _ => false

/-- What parentheses make of their content: those that only group leave nothing. -/
def grouped (a : Tree) : Tree :=
  if a.isLoose then .enclosed a else a

end Tree

def inBrackets (b : Bracket) (ts : List Token) : List Token :=
  .opening b :: (ts ++ [.closing b])

/-- The places of an expression, each with what may stand there. -/
inductive Role where
  /-- a name, a number, something in parentheses, a call or a subscript -/
  | primary
  /-- an operation that binds at least so tightly -/
  | operand (least : Nat)
  /-- a part of a slice, which may be left out -/
  | part
  /-- a member of a tuple, which may be a slice or not -/
  | item (slices : Bool)
  /-- members with commas between them -/
  | items (slices : Bool)
  /-- members with perhaps a comma behind the last one -/
  | content (slices : Bool)
  /-- what stands between parentheses -/
  | inside
  deriving DecidableEq

/-- The tokens say the tree in such a place; `callee` tells what may be called and subscripted. -/
inductive Parses (callee : Tree → Bool) : Role → List Token → Tree → Prop where
  | name {w : List Char} : isPath w = true → Parses callee .primary [.name w] (.name w)
  | numeral {w : List Char} : isNumeral w = true →
      Parses callee .primary [.number w] (.numeral w)
  | group {ts : List Token} {a : Tree} : Parses callee .inside ts a →
      Parses callee .primary (inBrackets .round ts) a.grouped
  | call {ts us : List Token} {f a : Tree} : Parses callee .primary ts f → callee f = true →
      Parses callee .inside us a →
      Parses callee .primary (ts ++ inBrackets .round us) (.call f a)
  | subscript {ts us : List Token} {f a : Tree} : Parses callee .primary ts f → callee f = true →
      Parses callee (.content true) us a →
      Parses callee .primary (ts ++ inBrackets .square us) (.subscript f a)
  | primary {ts : List Token} {a : Tree} : Parses callee .primary ts a →
      Parses callee (.operand Joint.power.binds) ts a
  | power {ts us : List Token} {a b : Tree} : Parses callee .primary ts a →
      Parses callee (.operand signBinds) us b →
      Parses callee (.operand Joint.power.binds) (ts ++ Joint.power.token :: us) (.joined .power a b)
  | signed {ts : List Token} {a : Tree} (s : Sign) : Parses callee (.operand signBinds) ts a →
      Parses callee (.operand signBinds) (s.token :: ts) (.signed s a)
  | tighter {l : Nat} {ts : List Token} {a : Tree} : Parses callee (.operand (l + 1)) ts a →
      Parses callee (.operand l) ts a
  | joined {ts us : List Token} {a b : Tree} (o : Joint) :
      Joint.less.binds ≤ o.binds → o.binds ≤ Joint.times.binds →
      Parses callee (.operand o.binds) ts a → Parses callee (.operand (o.binds + 1)) us b →
      Parses callee (.operand o.binds) (ts ++ o.token :: us) (.joined o a b)
  | missing : Parses callee .part [] .absent
  | part {ts : List Token} {a : Tree} : Parses callee (.operand Joint.less.binds) ts a →
      Parses callee .part ts a
  | item {ts : List Token} {a : Tree} (s : Bool) : Parses callee (.operand Joint.less.binds) ts a →
      Parses callee (.item s) ts a
  | slice {ts us : List Token} {a b : Tree} : Parses callee .part ts a → Parses callee .part us b →
      Parses callee (.item true) (ts ++ Joint.colon.token :: us) (.joined .colon a b)
  | stepped {ts us vs : List Token} {a b c : Tree} : Parses callee .part ts a →
      Parses callee .part us b → Parses callee .part vs c →
      Parses callee (.item true) (ts ++ Joint.colon.token :: (us ++ Joint.colon.token :: vs))
        (.joined .colon a (.joined .colon b c))
  | first {s : Bool} {ts : List Token} {a : Tree} : Parses callee (.item s) ts a →
      Parses callee (.items s) ts a
  | next {s : Bool} {ts us : List Token} {a b : Tree} : Parses callee (.items s) ts a →
      Parses callee (.item s) us b →
      Parses callee (.items s) (ts ++ Joint.comma.token :: us) (.joined .comma a b)
  | content {s : Bool} {ts : List Token} {a : Tree} : Parses callee (.items s) ts a →
      Parses callee (.content s) ts a
  | trailing {s : Bool} {ts : List Token} {a : Tree} : Parses callee (.items s) ts a →
      Parses callee (.content s) (ts ++ [Joint.comma.token]) (.joined .comma a .absent)
  | empty : Parses callee .inside [] .absent
  | inside {ts : List Token} {a : Tree} : Parses callee (.content false) ts a →
      Parses callee .inside ts a

section Pending

variable {callee : Tree → Bool} {f : Frame} {fs : List Frame} {P : Option Purpose}
  {ps qs : List Pending} {p : Pending} {x : Option Tree} {a b : Tree} {k l : Nat}
  {ts us : List Token} {t : Token} {m : Move} {s s' : State} {o : Joint}

theorem Pending.binds_lt (p : Pending) : p.binds < Joint.power.applies := by
  cases p with
  | sign s => exact (by decide : signBinds < 7)
  | joint a o =>
    have h : o.binds < 7 := by cases o <;> decide
    exact h

/-- What the operations make of their last operand. -/
def applied (qs : List Pending) (a : Tree) : Tree :=
  qs.foldl (fun a p => p.apply a) a

/-- The innermost operation that waits binds looser than that. -/
def Below (k : Nat) (ps : List Pending) : Prop :=
  ∀ p, ps.head? = some p → p.binds < k

theorem below_nil (k : Nat) : Below k [] :=
  fun _ h => nomatch h

theorem below_cons : Below k (p :: ps) ↔ p.binds < k := by
  simp [Below]

theorem Below.mono (h : Below k ps) (hk : k ≤ l) : Below l ps :=
  fun p hp => Nat.lt_of_lt_of_le (h p hp) hk

theorem settle_below (h : Below k ps) : settle k ps a = (ps, a) := by
  cases ps with
  | nil => rfl
  | cons p ps => exact settle_loose (below_cons.1 h)

theorem settle_applied (h : ∀ q ∈ qs, k ≤ q.binds) :
    settle k (qs ++ ps) a = settle k ps (applied qs a) := by
  induction qs generalizing a with
  | nil => rfl
  | cons q qs ih =>
    have hq := List.forall_mem_cons.1 h
    rw [List.cons_append, settle_tight hq.1, ih hq.2]
    rfl

theorem settle_zero : settle 0 ps a = ([], applied ps a) := by
  rw [← List.append_nil ps, settle_applied fun _ _ => Nat.zero_le _, List.append_nil]
  rfl

/-- Operations that wait, all of which bind at least so tightly, and the operand that was read last
are together the tree. -/
structure Leaves (least : Nat) (qs : List Pending) (x : Option Tree) (a : Tree) : Prop where
  binds : ∀ q ∈ qs, least ≤ q.binds
  whole : applied qs (x.getD .absent) = a
  loose : (qs.any Pending.isLoose || x.isNone) = a.isLoose

theorem leaves_nil (h : a.isLoose = false) : Leaves l [] (some a) a :=
  ⟨(fun _ h => nomatch h), rfl, h.symm⟩

theorem Leaves.mono (h : Leaves l qs x a) (hk : k ≤ l) : Leaves k qs x a :=
  ⟨fun q hq => Nat.le_trans hk (h.binds q hq), h.whole, h.loose⟩

theorem isLoose_apply (p : Pending) (a : Tree) : (p.apply a).isLoose = p.isLoose := by
  cases p <;> rfl

/-- An operation waits before the others do. -/
theorem Leaves.snoc (h : Leaves l qs x a) (hk : k ≤ l) (hp : k ≤ p.binds)
    (ha : a.isLoose = true → p.isLoose = true) : Leaves k (qs ++ [p]) x (p.apply a) := by
  refine ⟨fun q hq => ?_, ?_, ?_⟩
  · rcases List.mem_append.1 hq with hq | hq
    · exact Nat.le_trans hk (h.binds q hq)
    · exact List.mem_singleton.1 hq ▸ hp
  · rw [← h.whole, applied, List.foldl_append]
    rfl
  · have hl := h.loose
    rw [isLoose_apply, List.any_append, List.any_cons, List.any_nil, Bool.or_false,
      Bool.or_right_comm, hl]
    cases ha' : a.isLoose with
    | false => rw [Bool.false_or]
    | true => rw [ha ha', Bool.or_true]

theorem Leaves.settle (h : Leaves l qs (some b) a) (hk : k ≤ l) :
    settle k (qs ++ ps) b = settle k ps a := by
  rw [settle_applied (h.mono hk).binds]
  exact congrArg _ h.whole

theorem Leaves.content (h : Leaves l qs x a) : Frame.content ⟨P, qs⟩ x = a := by
  rw [Frame.content, settle_zero]
  exact h.whole

end Pending

section Complete

variable {callee : Tree → Bool} {f : Frame} {fs : List Frame} {P : Option Purpose}
  {ps qs : List Pending} {p : Pending} {x : Option Tree} {a b : Tree} {k l : Nat}
  {ts us : List Token} {t : Token} {s s' : State} {o : Joint} {slices : Bool}

theorem Frame.join_eq_some (h : f.admits o = true) (hs : settle o.applies f.pending a = (ps, b)) :
    f.join a o = some (.stay none (.joint b o :: ps)) := by
  rw [join, if_pos h, hs]

theorem awaits_cons (o : Joint) :
    (Frame.mk P (p :: ps)).awaits o = true ↔ p.joint? = some o := by
  simp [Frame.awaits]

/-- The operations that may wait for a part of a slice, by the number of its colons so far. -/
structure Opening (n : Nat) (P : Option Purpose) (ps : List Pending) : Prop where
  square : (Frame.mk P ps).opensSubscript = true
  colons : ps.countP (fun p => p.joint? == some .colon) = n
  front : (Frame.mk P ps).maySkip .colon = true
  below : Below 2 ps

/-- How the reader goes over the tokens that stand in a place. -/
def Runs (callee : Tree → Bool) (ts : List Token) (a : Tree) : Role → Prop
  | .primary => a.isLoose = false ∧ ∀ f fs,
      (State.mk none (f :: fs)).run callee ts = some ⟨some a, f :: fs⟩
  | .operand l => (3 ≤ l → a.isLoose = false) ∧ ∀ P ps fs, (l ≤ 4 → Below l ps) → ∃ b qs,
      (State.mk none (⟨P, ps⟩ :: fs)).run callee ts = some ⟨some b, ⟨P, qs ++ ps⟩ :: fs⟩ ∧
        Leaves (min l signBinds) qs (some b) a
  | .part => ∀ P ps fs, Below 2 ps → ∃ x qs,
      (State.mk none (⟨P, ps⟩ :: fs)).run callee ts = some ⟨x, ⟨P, qs ++ ps⟩ :: fs⟩ ∧
        Leaves 2 qs x a ∧ (x = none → qs = [])
  | .item s => ∀ P ps fs, Below 1 ps → (s = true → Opening 0 P ps) → ∃ x qs,
      (State.mk none (⟨P, ps⟩ :: fs)).run callee ts = some ⟨x, ⟨P, qs ++ ps⟩ :: fs⟩ ∧
        Leaves 1 qs x a ∧ (x = none → s = true ∧ (Frame.mk P (qs ++ ps)).awaits .colon = true)
  | .items s => ∀ P fs, (s = true → (Frame.mk P []).opensSubscript = true) → ∃ x qs,
      (State.mk none (⟨P, []⟩ :: fs)).run callee ts = some ⟨x, ⟨P, qs⟩ :: fs⟩ ∧
        Leaves 0 qs x a ∧ (x = none → s = true ∧ (Frame.mk P qs).awaits .colon = true)
  | .content s => ∀ P fs, (s = true → (Frame.mk P []).opensSubscript = true) → ∃ x qs,
      (State.mk none (⟨P, []⟩ :: fs)).run callee ts = some ⟨x, ⟨P, qs⟩ :: fs⟩ ∧
        Leaves 0 qs x a ∧ (x = none → (Frame.mk P qs).awaits .comma = true ∨
          s = true ∧ (Frame.mk P qs).awaits .colon = true)
  | .inside => ∀ P fs, (Frame.mk P []).opensSubscript = false → ∃ x qs,
      (State.mk none (⟨P, []⟩ :: fs)).run callee ts = some ⟨x, ⟨P, qs⟩ :: fs⟩ ∧
        Leaves 0 qs x a ∧ (x = none → (Frame.mk P qs).mayEnd = true)

namespace State

theorem run_single (h : s.step callee t = some s') : s.run callee [t] = some s' :=
  run_cons_iff.2 ⟨_, h, rfl⟩

/-- A joint behind an operand. -/
theorem step_join (h : Frame.admits ⟨P, ps⟩ o = true) (hs : settle o.applies ps a = (qs, b)) :
    (State.mk (some a) (⟨P, ps⟩ :: fs)).step callee o.token =
      some ⟨none, ⟨P, .joint b o :: qs⟩ :: fs⟩ :=
  step_cons_iff.2 ⟨_, .join (Frame.join_eq_some h hs), rfl⟩

/-- A joint in front of which an operand is left out. -/
theorem step_skip (ho : o.sign? = none) (hm : Frame.maySkip ⟨P, ps⟩ o = true)
    (h : Frame.admits ⟨P, ps⟩ o = true) (hs : settle o.applies ps .absent = (qs, b)) :
    (State.mk none (⟨P, ps⟩ :: fs)).step callee o.token =
      some ⟨none, ⟨P, .joint b o :: qs⟩ :: fs⟩ :=
  step_cons_iff.2 ⟨_, .skip ho hm (Frame.join_eq_some h hs), rfl⟩

theorem step_sign (s : Sign) : (State.mk none (⟨P, ps⟩ :: fs)).step callee s.token =
    some ⟨none, ⟨P, .sign s :: ps⟩ :: fs⟩ := by
  refine step_cons_iff.2 ⟨.stay none (.sign s :: ps), ?_, rfl⟩
  cases s with
  | plus => exact .sign (o := .plus) rfl
  | minus => exact .sign (o := .minus) rfl

/-- A closing bracket makes an operand of what stands in the frame. -/
theorem step_leave {p : Purpose} (h : Leaves l qs x a)
    (he : x = none → (Frame.mk (some p) qs).mayEnd = true) :
    (State.mk x (⟨some p, qs⟩ :: fs)).step callee (.closing p.bracket) =
      some ⟨some (p.operand a a.isLoose), fs⟩ := by
  have hm : Moves callee ⟨some p, qs⟩ x (.closing p.bracket)
      (.leave (p.operand ((Frame.mk (some p) qs).content x) (qs.any Pending.isLoose || x.isNone))) :=
    .close rfl he
  rw [h.content, h.loose] at hm
  exact step_cons_iff.2 ⟨_, hm, rfl⟩

end State

/-- The tokens between a pair of brackets, and the brackets. -/
theorem runs_brackets {p : Purpose} {s : State} {b : Bracket} (hb : p.bracket = b)
    (ho : s.step callee (.opening b) = some ⟨none, ⟨some p, []⟩ :: fs⟩)
    (h : (State.mk none (⟨some p, []⟩ :: fs)).run callee ts = some ⟨x, ⟨some p, qs⟩ :: fs⟩)
    (hl : Leaves l qs x a) (he : x = none → (Frame.mk (some p) qs).mayEnd = true) :
    s.run callee (inBrackets b ts) = some ⟨some (p.operand a a.isLoose), fs⟩ := by
  subst hb
  exact State.run_cons_iff.2 ⟨_, ho, State.run_append_iff.2 ⟨_, h, State.run_single (State.step_leave hl he)⟩⟩

theorem runs_operand (h : Runs callee ts a .primary) : Runs callee ts a (.operand Joint.power.binds) :=
  ⟨fun _ => h.1, fun _ _ _ _ => ⟨a, [], h.2 _ _, leaves_nil h.1⟩⟩

theorem not_sign_loose : ¬signBinds ≤ 4 := by
  decide

theorem runs_power (h : Runs callee ts a .primary) (g : Runs callee us b (.operand signBinds)) :
    Runs callee (ts ++ Joint.power.token :: us) (.joined .power a b) (.operand Joint.power.binds) := by
  refine ⟨fun _ => rfl, fun P ps fs _ => ?_⟩
  obtain ⟨c, qs, hr, hl⟩ := g.2 P (.joint a .power :: ps) fs fun h => absurd h not_sign_loose
  have hs : settle Joint.power.applies ps a = (ps, a) := settle_below fun p _ => p.binds_lt
  have hstep : (State.mk (some a) (⟨P, ps⟩ :: fs)).step callee Joint.power.token =
      some ⟨none, ⟨P, .joint a .power :: ps⟩ :: fs⟩ := State.step_join rfl hs
  refine ⟨c, qs ++ [Pending.joint a .power], ?_, ?_⟩
  · rw [State.run_append_iff]
    exact ⟨_, h.2 _ _, State.run_cons_iff.2 ⟨_, hstep, by simpa using hr⟩⟩
  · have hp : min Joint.power.binds signBinds ≤ Joint.power.binds := by decide
    exact hl.snoc (Nat.le_refl _) hp fun ha => by simp [g.1 (by decide)] at ha

theorem runs_signed (s : Sign) (g : Runs callee ts a (.operand signBinds)) :
    Runs callee (s.token :: ts) (.signed s a) (.operand signBinds) := by
  refine ⟨fun _ => rfl, fun P ps fs _ => ?_⟩
  obtain ⟨b, qs, hr, hl⟩ := g.2 P (.sign s :: ps) fs fun h => absurd h not_sign_loose
  refine ⟨b, qs ++ [Pending.sign s], ?_, ?_⟩
  · exact State.run_cons_iff.2 ⟨_, State.step_sign s, by simpa using hr⟩
  · exact hl.snoc (Nat.le_refl _) (Nat.min_le_left _ _) fun ha => by simp [g.1 (by decide)] at ha

theorem runs_tighter (h : Runs callee ts a (.operand (l + 1))) : Runs callee ts a (.operand l) := by
  refine ⟨fun hl => h.1 (by omega), fun P ps fs hb => ?_⟩
  obtain ⟨b, qs, hr, hl⟩ := h.2 P ps fs fun _ => (hb (by omega)).mono (by omega)
  exact ⟨b, qs, hr, hl.mono (by omega)⟩

theorem runs_joined (o : Joint) (hlow : Joint.less.binds ≤ o.binds)
    (hhigh : o.binds ≤ Joint.times.binds) (h : Runs callee ts a (.operand o.binds))
    (g : Runs callee us b (.operand (o.binds + 1))) :
    Runs callee (ts ++ o.token :: us) (.joined o a b) (.operand o.binds) := by
  have hmin : min o.binds signBinds = o.binds := Nat.min_eq_left (Nat.le_trans hhigh (by decide))
  have hmin' : min (o.binds + 1) signBinds = o.binds + 1 :=
    Nat.min_eq_left (Nat.succ_le_succ hhigh)
  have happ : o.applies = o.binds := by
    cases o <;> first | rfl | exact absurd hlow (by decide) | exact absurd hhigh (by decide)
  have hloose (hl : 3 ≤ o.binds) : o.isLoose = false := by simpa [Joint.isLoose] using hl
  refine ⟨hloose, fun P ps fs hb => ?_⟩
  have hb := hb hhigh
  obtain ⟨c, qs, hr, hl⟩ := h.2 P ps fs fun _ => hb
  obtain ⟨d, rs, hr', hl'⟩ := g.2 P (.joint a o :: ps) fs fun _ => below_cons.2 (Nat.lt_succ_self _)
  have hs : settle o.applies (qs ++ ps) c = (ps, a) := by
    rw [happ, hl.settle (Nat.le_of_eq hmin.symm), settle_below hb]
  have hadm : Frame.admits ⟨P, qs ++ ps⟩ o = true := by
    cases o <;> first | rfl | exact absurd hlow (by decide)
  refine ⟨d, rs ++ [Pending.joint a o], ?_, ?_⟩
  · rw [State.run_append_iff]
    exact ⟨_, hr, State.run_cons_iff.2 ⟨_, State.step_join hadm hs, by simpa using hr'⟩⟩
  · rw [hmin]
    refine hl'.snoc (by omega) (Nat.le_refl _) fun ha => ?_
    rw [Pending.isLoose_joint]
    by_contra hn
    have := g.1 (by have : 3 ≤ o.binds := by simpa [Joint.isLoose] using hn
                    omega)
    simp [this] at ha

theorem Opening.colon {n : Nat} (h : Opening n P ps) : Opening (n + 1) P (.joint a .colon :: ps) where
  square := h.square
  colons := by rw [List.countP_cons, h.colons]; rfl
  front := by simp [Frame.maySkip, awaits_cons]
  below := below_cons.2 (Nat.lt_succ_self _)

/-- Operations that bind tighter are no slices. -/
theorem Leaves.no_colon (h : Leaves 2 qs x a) :
    qs.countP (fun p => p.joint? == some .colon) = 0 := by
  rw [List.countP_eq_zero]
  intro q hq hc
  have := h.binds q hq
  cases q with
  | sign s => cases hc
  | joint c o =>
    simp only [Pending.joint?_joint, beq_iff_eq, Option.some.injEq] at hc
    subst hc
    exact absurd this (by decide : ¬2 ≤ Joint.colon.binds)

/-- A part of a slice and the colon behind it. -/
theorem runs_colon {n : Nat} (ho : Opening n P ps) (hn : n < 2) (h : Runs callee ts a .part) :
    (State.mk none (⟨P, ps⟩ :: fs)).run callee (ts ++ [Joint.colon.token]) =
      some ⟨none, ⟨P, .joint a .colon :: ps⟩ :: fs⟩ := by
  obtain ⟨x, qs, hr, hl, hx⟩ := h P ps fs ho.below
  have hadm : Frame.admits ⟨P, qs ++ ps⟩ .colon = true := by
    have hsquare : (Frame.mk P (qs ++ ps)).opensSubscript = true := ho.square
    have hcount : (qs ++ ps).countP (fun p => p.joint? == some .colon) < 2 := by
      rw [List.countP_append, hl.no_colon, ho.colons]
      omega
    simp only [Frame.admits, hsquare, hcount, decide_true, Bool.and_self, Bool.or_true]
  refine State.run_append_iff.2 ⟨_, hr, State.run_single ?_⟩
  cases x with
  | none =>
    obtain rfl := hx rfl
    have hwhole : Tree.absent = a := hl.whole
    exact State.step_skip rfl ho.front hadm (hwhole ▸ settle_below ho.below)
  | some b =>
    exact State.step_join hadm ((hl.settle (Nat.le_refl _)).trans (settle_below ho.below))

/-- The last part of a slice. -/
theorem Leaves.colon (h : Leaves 2 qs x b) :
    Leaves 1 (qs ++ [Pending.joint a .colon]) x (.joined .colon a b) :=
  h.snoc (by omega) (Nat.le_refl _) fun _ => rfl

theorem awaits_last (hx : qs = []) : (Frame.mk P (qs ++ .joint a o :: ps)).awaits o = true := by
  subst hx
  exact (awaits_cons o).2 rfl

theorem runs_slice (h : Runs callee ts a .part) (g : Runs callee us b .part) :
    Runs callee (ts ++ Joint.colon.token :: us) (.joined .colon a b) (.item true) := by
  intro P ps fs _ ho
  obtain ⟨x, qs, hr, hl, hx⟩ := g P (.joint a .colon :: ps) fs (Opening.colon (ho rfl)).below
  refine ⟨x, qs ++ [Pending.joint a .colon], ?_, hl.colon, fun hn => ⟨rfl, ?_⟩⟩
  · rw [List.append_cons ts, State.run_append_iff]
    exact ⟨_, runs_colon (ho rfl) (by decide) h, by simpa using hr⟩
  · simpa using awaits_last (hx hn)

theorem runs_stepped {c : Tree} {vs : List Token} (h : Runs callee ts a .part)
    (g : Runs callee us b .part) (k : Runs callee vs c .part) :
    Runs callee (ts ++ Joint.colon.token :: (us ++ Joint.colon.token :: vs))
      (.joined .colon a (.joined .colon b c)) (.item true) := by
  intro P ps fs _ ho
  have ho₁ : Opening 1 P (.joint a .colon :: ps) := (ho rfl).colon
  obtain ⟨x, qs, hr, hl, hx⟩ := k P (.joint b .colon :: .joint a .colon :: ps) fs ho₁.colon.below
  refine ⟨x, qs ++ [Pending.joint b .colon] ++ [Pending.joint a .colon], ?_, ?_,
    fun hn => ⟨rfl, ?_⟩⟩
  · rw [List.append_cons ts, State.run_append_iff]
    refine ⟨_, runs_colon (ho rfl) (by decide) h, ?_⟩
    rw [List.append_cons us, State.run_append_iff]
    exact ⟨_, runs_colon ho₁ (by decide) g, by simpa using hr⟩
  · exact hl.colon.snoc (Nat.le_refl _) (Nat.le_refl _) fun _ => rfl
  · simpa using awaits_last (hx hn)

theorem runs_item (s : Bool) (h : Runs callee ts a (.operand Joint.less.binds)) :
    Runs callee ts a (.item s) := by
  intro P ps fs hb _
  obtain ⟨b, qs, hr, hl⟩ := h.2 P ps fs fun _ => hb.mono (by decide)
  exact ⟨some b, qs, hr, hl.mono (by decide), nofun⟩

theorem runs_missing : Runs callee [] .absent .part :=
  fun _ _ _ _ => ⟨none, [], rfl, ⟨(fun _ h => nomatch h), rfl, rfl⟩, fun _ => rfl⟩

theorem runs_part (h : Runs callee ts a (.operand Joint.less.binds)) : Runs callee ts a .part := by
  intro P ps fs hb
  obtain ⟨b, qs, hr, hl⟩ := h.2 P ps fs fun _ => hb
  exact ⟨some b, qs, hr, hl, nofun⟩

theorem opening_first (h : (Frame.mk P []).opensSubscript = true) : Opening 0 P [] :=
  ⟨h, rfl, rfl, below_nil 2⟩

theorem opening_next (h : (Frame.mk P []).opensSubscript = true) :
    Opening 0 P [.joint a .comma] :=
  ⟨h, rfl, rfl, below_cons.2 (by decide : Joint.comma.binds < 2)⟩

theorem runs_first (h : Runs callee ts a (.item slices)) : Runs callee ts a (.items slices) := by
  intro P fs hs
  obtain ⟨x, qs, hr, hl, hx⟩ := h P [] fs (below_nil 1) fun h => opening_first (hs h)
  rw [List.append_nil] at hr hx
  exact ⟨x, qs, hr, hl.mono (Nat.zero_le _), hx⟩

/-- Members of a tuple and the comma behind them. -/
theorem runs_comma (h : Runs callee ts a (.items slices))
    (hs : slices = true → (Frame.mk P []).opensSubscript = true) :
    (State.mk none (⟨P, []⟩ :: fs)).run callee (ts ++ [Joint.comma.token]) =
      some ⟨none, ⟨P, [.joint a .comma]⟩ :: fs⟩ := by
  obtain ⟨x, qs, hr, hl, hx⟩ := h P fs hs
  refine State.run_append_iff.2 ⟨_, hr, State.run_single ?_⟩
  cases x with
  | none =>
    have hsettle : settle Joint.comma.applies qs .absent = ([], a) := by
      rw [show Joint.comma.applies = 0 from rfl, settle_zero]
      exact congrArg _ hl.whole
    exact State.step_skip rfl (hx rfl).2 rfl hsettle
  | some b =>
    refine State.step_join rfl ?_
    rw [show Joint.comma.applies = 0 from rfl, settle_zero]
    exact congrArg _ hl.whole

theorem runs_next (h : Runs callee ts a (.items slices)) (g : Runs callee us b (.item slices)) :
    Runs callee (ts ++ Joint.comma.token :: us) (.joined .comma a b) (.items slices) := by
  intro P fs hs
  obtain ⟨x, qs, hr, hl, hx⟩ := g P [.joint a .comma] fs
    (below_cons.2 (by decide : Joint.comma.binds < 1)) fun h => opening_next (hs h)
  refine ⟨x, qs ++ [Pending.joint a .comma], ?_, ?_, hx⟩
  · rw [List.append_cons ts, State.run_append_iff]
    exact ⟨_, runs_comma h hs, hr⟩
  · exact hl.snoc (Nat.zero_le _) (Nat.zero_le _) fun _ => rfl

theorem runs_content (h : Runs callee ts a (.items slices)) :
    Runs callee ts a (.content slices) := by
  intro P fs hs
  obtain ⟨x, qs, hr, hl, hx⟩ := h P fs hs
  exact ⟨x, qs, hr, hl, fun hn => .inr (hx hn)⟩

theorem runs_trailing (h : Runs callee ts a (.items slices)) :
    Runs callee (ts ++ [Joint.comma.token]) (.joined .comma a .absent) (.content slices) :=
  fun _ _ hs => ⟨none, [.joint a .comma], runs_comma h hs,
    ⟨fun _ _ => Nat.zero_le _, rfl, rfl⟩, fun _ => .inl rfl⟩

theorem runs_empty : Runs callee [] .absent .inside := by
  intro P fs hs
  refine ⟨none, [], rfl, ⟨(fun _ h => nomatch h), rfl, rfl⟩, fun _ => ?_⟩
  simp [Frame.mayEnd, hs]

theorem mayEnd_of_awaits (h : f.awaits .comma = true ∨ f.awaits .colon = true) :
    f.mayEnd = true := by
  rcases h with h | h <;> simp [Frame.mayEnd, h]

theorem runs_inside (h : Runs callee ts a (.content false)) : Runs callee ts a .inside := by
  intro P fs _
  obtain ⟨x, qs, hr, hl, hx⟩ := h P fs nofun
  exact ⟨x, qs, hr, hl, fun hn => mayEnd_of_awaits ((hx hn).imp_right And.right)⟩

theorem isLoose_grouped (a : Tree) : a.grouped.isLoose = false := by
  unfold Tree.grouped
  split
  · rfl
  · exact Bool.eq_false_iff.2 ‹¬a.isLoose = true›

theorem runs_group (h : Runs callee ts a .inside) :
    Runs callee (inBrackets .round ts) a.grouped .primary := by
  refine ⟨isLoose_grouped a, fun f fs => ?_⟩
  obtain ⟨x, qs, hr, hl, hx⟩ := h (some .group) (f :: fs) rfl
  exact runs_brackets rfl (State.step_cons_iff.2 ⟨_, .group, rfl⟩) hr hl hx

theorem runs_call {g : Tree} (h : Runs callee ts g .primary) (hc : callee g = true)
    (ha : Runs callee us a .inside) :
    Runs callee (ts ++ inBrackets .round us) (.call g a) .primary := by
  refine ⟨rfl, fun f fs => State.run_append_iff.2 ⟨_, h.2 f fs, ?_⟩⟩
  obtain ⟨x, qs, hr, hl, hx⟩ := ha (some (.call g)) (f :: fs) rfl
  exact runs_brackets rfl (State.step_cons_iff.2 ⟨_, .call hc, rfl⟩) hr hl hx

theorem runs_subscript {g : Tree} (h : Runs callee ts g .primary) (hc : callee g = true)
    (ha : Runs callee us a (.content true)) :
    Runs callee (ts ++ inBrackets .square us) (.subscript g a) .primary := by
  refine ⟨rfl, fun f fs => State.run_append_iff.2 ⟨_, h.2 f fs, ?_⟩⟩
  obtain ⟨x, qs, hr, hl, hx⟩ := ha (some (.subscript g)) (f :: fs) fun _ => rfl
  exact runs_brackets rfl (State.step_cons_iff.2 ⟨_, .subscript hc, rfl⟩) hr hl fun hn =>
    mayEnd_of_awaits ((hx hn).imp_right And.right)

theorem Parses.runs {r : Role} (h : Parses callee r ts a) : Runs callee ts a r := by
  induction h with
  | name hw => exact ⟨rfl, fun f fs => State.run_single (State.step_cons_iff.2 ⟨_, .name hw, rfl⟩)⟩
  | numeral hw =>
    exact ⟨rfl, fun f fs => State.run_single (State.step_cons_iff.2 ⟨_, .numeral hw, rfl⟩)⟩
  | group _ ih => exact runs_group ih
  | call _ hc _ ihf iha => exact runs_call ihf hc iha
  | subscript _ hc _ ihf iha => exact runs_subscript ihf hc iha
  | primary _ ih => exact runs_operand ih
  | power _ _ iha ihb => exact runs_power iha ihb
  | signed s _ ih => exact runs_signed s ih
  | tighter _ ih => exact runs_tighter ih
  | joined o hl hh _ _ iha ihb => exact runs_joined o hl hh iha ihb
  | missing => exact runs_missing
  | part _ ih => exact runs_part ih
  | item s _ ih => exact runs_item s ih
  | slice _ _ iha ihb => exact runs_slice iha ihb
  | stepped _ _ _ iha ihb ihc => exact runs_stepped iha ihb ihc
  | first _ ih => exact runs_first ih
  | next _ _ iha ihb => exact runs_next iha ihb
  | content _ ih => exact runs_content ih
  | trailing _ ih => exact runs_trailing ih
  | empty => exact runs_empty
  | inside _ ih => exact runs_inside ih

/-- The reader finds the tree of an expression. -/
theorem Parses.read (h : Parses callee (.content false) ts a) : read callee ts = some a := by
  obtain ⟨x, qs, hr, hl, hx⟩ := h.runs none [] nofun
  have hend : (x.isSome || (Frame.mk none qs).awaits .comma) = true := by
    cases x with
    | none => simpa using hx rfl
    | some b => rfl
  rw [Python.read, State.start, hr, Option.bind_some]
  simp only [State.tree?, hend, if_true, hl.content]

end Complete

end Python

end Kinetics
