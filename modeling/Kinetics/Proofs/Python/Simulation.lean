import Kinetics.Proofs.Python.Regrouping
import Mathlib.Data.List.Forall2

/-!
# Kinetics.Proofs.Python.Simulation

Two runs of the reader side by side, of which one leaves out terms that are nought. `Related` says
how far the waiting operations may differ: where one run adds to nought what it reads, the other
reads a sign or nothing. Both runs then make the same moves (`move_related`), and what they read has
the same value in the end.

A sign binds tighter than a product, a sum looser. So where one run has multiplied and will then
subtract from nought, the other has put the sign to the first factor; this is the same for products
and quotients, but not for floor division, which must not come then.
-/

namespace Kinetics

namespace Python

open Arithmetic (Sign)
open Code

/-- Trees that cannot be told apart by their values. -/
structure Alike (a b : Tree) : Prop where
  names : a.mentionsName = b.mentionsName
  value : ∀ (K : Type) [Field K] (m : Meaning K), a.value m = b.value m

/-- A tree that is nought whatever the names mean. -/
structure IsNought (c : Tree) : Prop where
  names : c.mentionsName = false
  value : ∀ (K : Type) [Field K] (m : Meaning K), c.value m = 0

def Sign.joint : Sign → Joint
  | .plus => .plus
  | .minus => .minus

theorem Joint.sign?_eq {o : Joint} {s : Sign} : o.sign? = some s ↔ o = Sign.joint s := by
  cases o <;> cases s <;> simp [Joint.sign?, Sign.joint]

namespace Alike

variable {a b c d : Tree}

theorem refl (a : Tree) : Alike a a :=
  ⟨rfl, fun _ _ _ => rfl⟩

theorem trans (h : Alike a b) (g : Alike b c) : Alike a c :=
  ⟨h.names.trans g.names, fun K _ m => (h.value K m).trans (g.value K m)⟩

theorem symm (h : Alike a b) : Alike b a :=
  ⟨h.names.symm, fun K _ m => (h.value K m).symm⟩

theorem signed (s : Sign) (h : Alike a b) : Alike (.signed s a) (.signed s b) :=
  ⟨h.names, fun K _ m => congrArg (signedValue s) (h.value K m)⟩

theorem joined (o : Joint) (h : Alike a b) (g : Alike c d) :
    Alike (.joined o a c) (.joined o b d) :=
  ⟨congrArg₂ or h.names g.names, fun K _ m => congrArg₂ (o.apply m) (h.value K m) (g.value K m)⟩

theorem call (h : Alike a b) (g : Alike c d) : Alike (.call a c) (.call b d) :=
  ⟨congrArg₂ or h.names g.names, fun K _ m => congrArg₂ m.call (h.value K m) (g.value K m)⟩

theorem subscript (h : Alike a b) (g : Alike c d) : Alike (.subscript a c) (.subscript b d) :=
  ⟨congrArg₂ or h.names g.names, fun K _ m => congrArg₂ m.subscript (h.value K m) (g.value K m)⟩

theorem enclosed (h : Alike a b) : Alike (.enclosed a) (.enclosed b) :=
  ⟨h.names, fun K _ m => congrArg m.enclosed (h.value K m)⟩

end Alike

namespace IsNought

variable {a c d : Tree}

theorem zero : IsNought (.numeral ['0']) := by
  refine ⟨rfl, fun K _ m => ?_⟩
  have h : Text.digitsValue ['0'] = 0 := rfl
  simp [numeralValue, fractionOf, h]

theorem signed (s : Sign) (h : IsNought c) : IsNought (.signed s c) := by
  refine ⟨h.names, fun K _ m => ?_⟩
  cases s <;> simp [signedValue, h.value K m]

theorem joined (s : Sign) (h : IsNought c) (g : IsNought d) :
    IsNought (.joined (Sign.joint s) c d) := by
  refine ⟨by simp [h.names, g.names], fun K _ m => ?_⟩
  cases s <;> simp [Sign.joint, Joint.apply, h.value K m, g.value K m]

/-- Adding to nought, and subtracting from it. -/
theorem lead (s : Sign) (h : IsNought c) : Alike (.joined (Sign.joint s) c a) (.signed s a) := by
  refine ⟨by simp [h.names], fun K _ m => ?_⟩
  cases s <;> simp [Sign.joint, Joint.apply, signedValue, h.value K m]

/-- Adding nought, and subtracting it. -/
theorem follow (s : Sign) (h : IsNought c) : Alike (.joined (Sign.joint s) a c) a := by
  refine ⟨by simp [h.names], fun K _ m => ?_⟩
  cases s <;> simp [Sign.joint, Joint.apply, h.value K m]

end IsNought

theorem alike_plus (a : Tree) : Alike (.signed .plus a) a :=
  ⟨rfl, fun _ _ _ => rfl⟩

/-- A sign in front of a product stands in front of its first factor. -/
theorem alike_product {s : Sign} {o : Joint} (a b : Tree) (ho : o.binds = 4)
    (hf : s = .minus → o ≠ .floor) :
    Alike (.signed s (.joined o a b)) (.joined o (.signed s a) b) := by
  refine ⟨rfl, fun K _ m => ?_⟩
  cases s with
  | plus => rfl
  | minus =>
    cases o with
    | times => simp [signedValue, Joint.apply]
    | per => simp [signedValue, Joint.apply, neg_div]
    | floor => exact absurd rfl (hf rfl)
    | _ => cases ho

inductive Pending.Alike : Pending → Pending → Prop where
  | sign (s : Sign) : Pending.Alike (.sign s) (.sign s)
  | joint {a b : Tree} (o : Joint) : Python.Alike a b → Pending.Alike (.joint a o) (.joint b o)

/-- What is read next is the first term of a sum. -/
def AtFront (ps : List Pending) : Prop :=
  ∀ p, ps.head? = some p → p.isLoose = true

/-- The operations that wait in two runs, the second of which leaves out terms that are nought.
`floor` tells whether floor division may still come. -/
inductive Related (floor : Bool) : List Pending → List Pending → Prop where
  | nil : Related floor [] []
  | cons {p q : Pending} {ps qs : List Pending} :
      p.Alike q → Related floor ps qs → Related floor (p :: ps) (q :: qs)
  /-- nought and a plus have been left out -/
  | plus {c : Tree} {ps qs : List Pending} :
      IsNought c → AtFront ps → AtFront qs → Related floor ps qs →
      Related floor (.joint c .plus :: ps) qs
  /-- nought has been left out in front of a sign -/
  | sign {c : Tree} (s : Sign) {ps qs : List Pending} :
      IsNought c → AtFront ps → AtFront qs → (s = .minus → floor = false) → Related floor ps qs →
      Related floor (.joint c (Sign.joint s) :: ps) (.sign s :: qs)
  /-- a product goes on, whose sign is with the first factor only where nought is left out -/
  | product {c a b : Tree} (s : Sign) (o : Joint) {ps qs : List Pending} :
      IsNought c → AtFront ps → AtFront qs → (s = .minus → floor = false) →
      o.binds = 4 → (s = .minus → o ≠ .floor) → Python.Alike (.signed s a) b →
      Related floor ps qs →
      Related floor (.joint a o :: .joint c (Sign.joint s) :: ps) (.joint b o :: qs)

section Settle

variable {p : Nat} {ps qs : List Pending} {a b : Tree}

theorem settle_front (h : AtFront ps) (hp : 3 ≤ p) : settle p ps a = (ps, a) := by
  cases ps with
  | nil => rfl
  | cons q ps =>
    have := Pending.binds_of_loose (h q rfl)
    exact settle_loose (by omega)

/-- What settling may do to related operations: it keeps them related, or settles a sign on one
side only. -/
inductive Settled (floor : Bool) (p : Nat) : List Pending × Tree → List Pending × Tree → Prop where
  | both {ps qs : List Pending} {a b : Tree} : Related floor ps qs → Alike a b →
      Settled floor p (ps, a) (qs, b)
  | product {c a b : Tree} (s : Sign) {ps qs : List Pending} : 3 < p → p ≤ 5 →
      IsNought c → AtFront ps → AtFront qs → (s = .minus → floor = false) →
      Alike (.signed s a) b → Related floor ps qs →
      Settled floor p (.joint c (Sign.joint s) :: ps, a) (qs, b)

theorem settle_related {floor : Bool} (h : Related floor ps qs) (ha : Alike a b) :
    Settled floor p (settle p ps a) (settle p qs b) := by
  induction h generalizing a b with
  | nil => exact .both .nil ha
  | @cons q r ps qs hq hr ih =>
    have hb : q.binds = r.binds := by cases hq <;> rfl
    by_cases hp : p ≤ q.binds
    · rw [settle_tight hp, settle_tight (by omega)]
      refine ih ?_
      cases hq with
      | sign s => exact ha.signed s
      | joint o hc => exact hc.joined o ha
    · rw [settle_loose (by omega), settle_loose (by omega)]
      exact .both (.cons hq hr) ha
  | @plus c ps qs hc hf hg hr ih =>
    by_cases hp : p ≤ 3
    · rw [settle_tight hp]
      exact ih (((hc.lead .plus).trans (alike_plus a)).trans ha)
    · rw [settle_loose (by simpa [Pending.binds, Joint.binds] using hp), settle_front hg (by omega)]
      exact .both (.plus hc hf hg hr) ha
  | @sign c s ps qs hc hf hg hm hr ih =>
    have hs : (Pending.joint c (Sign.joint s)).binds = 3 := by cases s <;> rfl
    have hl : (Pending.sign s).binds = 5 := rfl
    by_cases hp : p ≤ 3
    · rw [settle_tight (by omega), settle_tight (by omega)]
      exact ih ((hc.lead s).trans (ha.signed s))
    · rw [settle_loose (by omega)]
      by_cases hp5 : p ≤ 5
      · rw [settle_tight (by omega), settle_front hg (by omega)]
        exact .product s (by omega) hp5 hc hf hg hm (ha.signed s) hr
      · rw [settle_loose (by omega)]
        exact .both (.sign s hc hf hg hm hr) ha
  | @product c d e s o ps qs hc hf hg hm ho hfl hd hr ih =>
    have hs : (Pending.joint c (Sign.joint s)).binds = 3 := by cases s <;> rfl
    have ho' (x : Tree) : (Pending.joint x o).binds = 4 := ho
    have hprod : Alike (.signed s (.joined o d a)) (.joined o e b) :=
      (alike_product d a ho hfl).trans (hd.joined o ha)
    by_cases hp : p ≤ 4
    · have hleft : settle p (.joint d o :: .joint c (Sign.joint s) :: ps) a =
          settle p (.joint c (Sign.joint s) :: ps) (.joined o d a) :=
        settle_tight (by rw [ho']; omega)
      have hright : settle p (.joint e o :: qs) b = settle p qs (.joined o e b) :=
        settle_tight (by rw [ho']; omega)
      rw [hleft, hright]
      by_cases hp3 : p ≤ 3
      · rw [settle_tight (by omega)]
        exact ih ((hc.lead s).trans hprod)
      · rw [settle_loose (by omega), settle_front hg (by omega)]
        exact .product s (by omega) (by omega) hc hf hg hm hprod hr
    · rw [settle_loose (by rw [ho']; omega), settle_loose (by rw [ho']; omega)]
      exact .both (.product s o hc hf hg hm ho hfl hd hr) ha

end Settle

section Moves

variable {floor : Bool} {ps qs : List Pending} {a b : Tree} {o : Joint}

theorem Sign.not_isLoose (s : Sign) : (Sign.joint s).isLoose = false := by
  cases s <;> rfl

theorem Joint.not_isLoose (ho : o.binds = 4) : o.isLoose = false := by
  simp [isLoose, ho]

theorem Related.any_isLoose (h : Related floor ps qs) :
    ps.any Pending.isLoose = qs.any Pending.isLoose := by
  induction h with
  | nil => rfl
  | cons hq _ ih => cases hq <;> simp [ih]
  | plus _ _ _ _ ih => simpa [show Joint.plus.isLoose = false from rfl] using ih
  | sign s _ _ _ _ _ ih => simpa [Sign.not_isLoose] using ih
  | product s o _ _ _ _ ho _ _ _ ih => simpa [Sign.not_isLoose, Joint.not_isLoose ho] using ih

/-- The colons that wait. -/
def colons (ps : List Pending) : Nat :=
  ps.countP fun p => p.joint? == some .colon

@[simp]
theorem colons_sign (s : Sign) : colons (.sign s :: ps) = colons ps := by
  simp [colons]

theorem colons_joint (ho : o.isLoose = false) : colons (.joint a o :: ps) = colons ps := by
  have hc : o ≠ .colon := by
    rintro rfl
    cases ho
  simp [colons, hc]

theorem Related.colons_eq (h : Related floor ps qs) : colons ps = colons qs := by
  induction h with
  | nil => rfl
  | cons hq _ ih =>
    simp only [colons] at ih
    cases hq <;> simp [colons, List.countP_cons, ih]
  | plus _ _ _ _ ih => rwa [colons_joint rfl]
  | sign s _ _ _ _ _ ih => rwa [colons_joint (Sign.not_isLoose s), colons_sign]
  | product s o _ _ _ _ ho _ _ _ ih =>
    rwa [colons_joint (Joint.not_isLoose ho), colons_joint (Sign.not_isLoose s),
      colons_joint (Joint.not_isLoose ho)]

/-- A comparison or a separator waits in both runs. -/
theorem Related.head_loose (h : Related floor ps qs) (ho : o.isLoose = true)
    (hp : ps.head?.any (fun p => p.joint? == some o) = true) :
    qs.head?.any (fun p => p.joint? == some o) = true := by
  cases h with
  | nil => exact hp
  | cons hq _ => cases hq <;> exact hp
  | plus =>
    obtain rfl : .plus = o := by simpa using hp
    cases ho
  | sign s =>
    obtain rfl : Sign.joint s = o := by simpa using hp
    cases s <;> cases ho
  | product s r _ _ _ _ hr =>
    obtain rfl : r = o := by simpa using hp
    simp [Joint.not_isLoose hr] at ho

inductive Purpose.Alike : Purpose → Purpose → Prop where
  | group : Purpose.Alike .group .group
  | call {f g : Tree} : Python.Alike f g → Purpose.Alike (.call f) (.call g)
  | subscript {f g : Tree} : Python.Alike f g → Purpose.Alike (.subscript f) (.subscript g)

structure Frame.Alike (floor : Bool) (f g : Frame) : Prop where
  purpose : Option.Rel Purpose.Alike f.purpose g.purpose
  pending : Related floor f.pending g.pending

inductive Move.Alike (floor : Bool) : Move → Move → Prop where
  | stay {x y : Option Tree} {ps qs : List Pending} : Option.Rel Python.Alike x y →
      Related floor ps qs → Move.Alike floor (.stay x ps) (.stay y qs)
  | enter {p q : Purpose} : p.Alike q → Move.Alike floor (.enter p) (.enter q)
  | leave {a b : Tree} : Python.Alike a b → Move.Alike floor (.leave a) (.leave b)

variable {f g : Frame} {x y : Option Tree} {t : Token} {m : Move}

theorem Frame.Alike.opensSubscript (h : f.Alike floor g) : f.opensSubscript = g.opensSubscript := by
  have hp := h.purpose
  unfold Frame.opensSubscript
  generalize f.purpose = p at hp
  generalize g.purpose = q at hp
  cases hp with
  | none => rfl
  | some hp => cases hp <;> rfl

theorem Frame.Alike.admits (h : f.Alike floor g) : f.admits o = g.admits o := by
  have hc := h.pending.colons_eq
  simp only [colons] at hc
  rw [Frame.admits, Frame.admits, h.opensSubscript, hc]

theorem Frame.Alike.awaits (h : f.Alike floor g) (ho : o.isLoose = true) (hf : f.awaits o = true) :
    g.awaits o = true :=
  h.pending.head_loose ho hf

theorem Frame.Alike.isEmpty (h : f.Alike floor g) (hf : f.pending.isEmpty = true) :
    g.pending.isEmpty = true := by
  have hr := h.pending
  rw [List.isEmpty_iff.1 hf] at hr
  generalize g.pending = qs at hr
  cases hr
  rfl

theorem Frame.Alike.mayEnd (h : f.Alike floor g) (hf : f.mayEnd = true) : g.mayEnd = true := by
  simp only [Frame.mayEnd, Bool.or_eq_true, Bool.and_eq_true, Bool.not_eq_true'] at hf ⊢
  rcases hf with (hf | hf) | ⟨hf, hs⟩
  · exact .inl (.inl (h.awaits rfl hf))
  · exact .inl (.inr (h.awaits rfl hf))
  · exact .inr ⟨h.isEmpty hf, h.opensSubscript ▸ hs⟩

theorem Frame.Alike.maySkip (h : f.Alike floor g) (hf : f.maySkip o = true) :
    g.maySkip o = true := by
  cases o with
  | comma => exact h.awaits rfl hf
  | colon =>
    simp only [Frame.maySkip, Bool.or_eq_true] at hf ⊢
    rcases hf with (hf | hf) | hf
    · exact .inl (.inl (h.awaits rfl hf))
    · exact .inl (.inr (h.awaits rfl hf))
    · exact .inr (h.isEmpty hf)
  | _ => cases hf

theorem Frame.Alike.content (h : f.Alike floor g) (hx : Option.Rel Python.Alike x y) :
    Python.Alike (f.content x) (g.content y) := by
  have ha : Python.Alike (x.getD .absent) (y.getD .absent) := by
    cases hx with
    | none => exact .refl _
    | some ha => exact ha
  have hs := settle_related (p := 0) h.pending ha
  unfold Frame.content
  generalize settle 0 f.pending (x.getD .absent) = u at hs
  generalize settle 0 g.pending (y.getD .absent) = v at hs
  cases hs with
  | both _ hb => exact hb
  | product _ hp => omega

theorem Frame.Alike.join (h : f.Alike floor g) (ha : Python.Alike a b)
    (ho : o = .floor → floor = true) (hm : f.join a o = some m) :
    ∃ n, g.join b o = some n ∧ m.Alike floor n := by
  unfold Frame.join at hm ⊢
  rw [← h.admits]
  split at hm
  · cases hm
    rw [if_pos ‹_›]
    refine ⟨_, rfl, .stay .none ?_⟩
    have hs := settle_related (p := o.applies) h.pending ha
    generalize settle o.applies f.pending a = u at hs
    generalize settle o.applies g.pending b = v at hs
    cases hs with
    | both hr hb => exact .cons (.joint o hb) hr
    | product s hlow hhigh hc hf hg hfl hb hr =>
      -- only a product or a quotient settles a sign and no sum
      have ho4 : o.binds = 4 := by cases o <;> simp_all [Joint.applies, Joint.binds]
      refine .product s o hc hf hg hfl ho4 (fun hs hof => ?_) hb hr
      have := ho hof
      simp [hfl hs] at this
  · cases hm

theorem Purpose.Alike.bracket {p q : Purpose} (h : p.Alike q) : q.bracket = p.bracket := by
  cases h <;> rfl

theorem Purpose.Alike.operand {p q : Purpose} (h : p.Alike q) (ha : Python.Alike a b)
    (loose : Bool) : Python.Alike (p.operand a loose) (q.operand b loose) := by
  cases h with
  | group => cases loose with
    | false => exact ha
    | true => exact ha.enclosed
  | call hf => exact hf.call ha
  | subscript hf => exact hf.subscript ha

/-- Both runs make the same move. -/
theorem move_related (h : f.Alike floor g) (hx : Option.Rel Alike x y)
    (ht : t = Joint.floor.token → floor = true) (hm : Moves Tree.mentionsName f x t m) :
    ∃ n, Moves Tree.mentionsName g y t n ∧ m.Alike floor n := by
  cases hm with
  | name hw =>
    cases hx
    exact ⟨_, .name hw, .stay (.some (.refl _)) h.pending⟩
  | numeral hw =>
    cases hx
    exact ⟨_, .numeral hw, .stay (.some (.refl _)) h.pending⟩
  | group =>
    cases hx
    exact ⟨_, .group, .enter .group⟩
  | call ha =>
    cases hx with | some hb =>
    exact ⟨_, .call (hb.names ▸ ha), .enter (.call hb)⟩
  | subscript ha =>
    cases hx with | some hb =>
    exact ⟨_, .subscript (hb.names ▸ ha), .enter (.subscript hb)⟩
  | @close _ p hp he =>
    obtain ⟨q, hq, hpq⟩ : ∃ q, g.purpose = some q ∧ p.Alike q := by
      have hr := h.purpose
      rw [hp] at hr
      generalize g.purpose = z at hr
      cases hr with | some hr => exact ⟨_, rfl, hr⟩
    have hnone : x.isNone = y.isNone := by cases hx <;> rfl
    rw [h.pending.any_isLoose, hnone, ← hpq.bracket]
    refine ⟨_, .close hq fun hy => h.mayEnd (he ?_), .leave (hpq.operand (h.content hx) _)⟩
    subst hy
    cases hx
    rfl
  | @sign o s ho =>
    cases hx
    exact ⟨_, .sign ho, .stay .none (.cons (.sign s) h.pending)⟩
  | @skip o m ho hs hj =>
    cases hx
    obtain ⟨n, hn, hmn⟩ := h.join (.refl _) (fun ho => ht (ho ▸ rfl)) hj
    exact ⟨n, .skip ho (h.maySkip hs) hn, hmn⟩
  | @join a o m hj =>
    cases hx with | some hb =>
    obtain ⟨n, hn, hmn⟩ := h.join hb (fun ho => ht (ho ▸ rfl)) hj
    exact ⟨n, .join hn, hmn⟩

structure State.Alike (floor : Bool) (s s' : State) : Prop where
  operand : Option.Rel Python.Alike s.operand s'.operand
  frames : List.Forall₂ (Frame.Alike floor) s.frames s'.frames

theorem follow_related {fs gs : List Frame} {n : Move} (h : f.Alike floor g)
    (hs : List.Forall₂ (Frame.Alike floor) fs gs) (hm : m.Alike floor n) :
    (State.follow f fs m).Alike floor (State.follow g gs n) := by
  cases hm with
  | stay hx hr => exact ⟨hx, .cons ⟨h.purpose, hr⟩ hs⟩
  | enter hp => exact ⟨.none, .cons ⟨.some hp, .nil⟩ (.cons h hs)⟩
  | leave ha => exact ⟨.some ha, hs⟩

/-- Both runs make the same step. -/
theorem step_related {s s' u : State} (h : s.Alike floor s')
    (ht : t = Joint.floor.token → floor = true)
    (hu : s.step Tree.mentionsName t = some u) :
    ∃ u', s'.step Tree.mentionsName t = some u' ∧ u.Alike floor u' := by
  obtain ⟨x, fs⟩ := s
  obtain ⟨y, gs⟩ := s'
  obtain ⟨hx, hfs⟩ := h
  obtain ⟨f, fs, rfl⟩ := State.exists_frame hu
  cases hfs with | cons hf hfs =>
  obtain ⟨m, hm, rfl⟩ := State.step_cons_iff.1 hu
  obtain ⟨n, hn, hmn⟩ := move_related hf hx ht hm
  exact ⟨_, State.step_cons_iff.2 ⟨n, hn, rfl⟩, follow_related hf hfs hmn⟩

theorem tree?_related {s s' : State} (h : s.Alike floor s') (ha : s.tree? = some a) :
    ∃ b, s'.tree? = some b ∧ Python.Alike a b := by
  obtain ⟨x, fs⟩ := s
  obtain ⟨y, gs⟩ := s'
  obtain ⟨hx, hfs⟩ := h
  unfold State.tree? at ha
  split at ha
  · rename_i f hf
    cases hf
    cases hfs with | @cons _ g _ _ hf hfs =>
    cases hfs
    split at ha
    · rename_i he
      cases ha
      refine ⟨_, ?_, hf.content hx⟩
      have : (y.isSome || g.awaits .comma) = true := by
        simp only [Bool.or_eq_true] at he ⊢
        refine he.imp (fun he => ?_) (fun he => hf.awaits rfl he)
        cases hx with
        | none => cases he
        | some => rfl
      rw [State.tree?]
      simp only [this, if_true]
    · cases ha
  · cases ha

end Moves

end Python

end Kinetics
