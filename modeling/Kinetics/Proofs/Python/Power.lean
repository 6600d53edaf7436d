import Kinetics.Proofs.Python.Operand

/-!
# Kinetics.Proofs.Python.Power

The root of a group, written as a power with one half. A power binds tighter than all that stands
in front of it, so what the reader raises is the whole group and nothing else: from the token `0.5`
on, whatever follows, the root is in the operand that was read last, or waits in a frame, or is a
part of what has been read (`State.Keeps`). In the end it is a part of the tree (`root_of_read`).
Only a power that comes right behind it goes on in the exponent.
-/

namespace Kinetics

namespace Python

open Code

def half : Tree :=
  .numeral ['0', '.', '5']

/-- The root of a tree; its exponent may be raised to another power. -/
inductive IsRoot (b : Tree) : Tree → Prop where
  | root : IsRoot b (.joined .power b half)
  | raised (c : Tree) : IsRoot b (.joined .power b (.joined .power half c))

/-- A part of the tree is such. -/
inductive Tree.Somewhere (P : Tree → Prop) : Tree → Prop where
  | here {a : Tree} : P a → Somewhere P a
  | signed (s : Arithmetic.Sign) {a : Tree} : Somewhere P a → Somewhere P (.signed s a)
  | left (o : Joint) {a : Tree} (b : Tree) : Somewhere P a → Somewhere P (.joined o a b)
  | right (o : Joint) (a : Tree) {b : Tree} : Somewhere P b → Somewhere P (.joined o a b)
  | callee {f : Tree} (a : Tree) : Somewhere P f → Somewhere P (.call f a)
  | argument (f : Tree) {a : Tree} : Somewhere P a → Somewhere P (.call f a)
  | array {f : Tree} (a : Tree) : Somewhere P f → Somewhere P (.subscript f a)
  | index (f : Tree) {a : Tree} : Somewhere P a → Somewhere P (.subscript f a)
  | enclosed {a : Tree} : Somewhere P a → Somewhere P (.enclosed a)

/-- The root is a part of what waits, or waits for what is to come behind its exponent. -/
inductive Waiting (b : Tree) : List Pending → Prop where
  | left {a : Tree} (o : Joint) (ps : List Pending) : a.Somewhere (IsRoot b) →
      Waiting b (.joint a o :: ps)
  | raised (ps : List Pending) : Waiting b (.joint half .power :: .joint b .power :: ps)
  | later (p : Pending) {ps : List Pending} : Waiting b ps → Waiting b (p :: ps)

inductive Frame.Keeps (b : Tree) : Frame → Prop where
  | pending (P : Option Purpose) {ps : List Pending} : Waiting b ps → Keeps b ⟨P, ps⟩
  | call {g : Tree} (ps : List Pending) : g.Somewhere (IsRoot b) → Keeps b ⟨some (.call g), ps⟩
  | subscript {g : Tree} (ps : List Pending) : g.Somewhere (IsRoot b) →
      Keeps b ⟨some (.subscript g), ps⟩

inductive State.Keeps (b : Tree) : State → Prop where
  | operand {a : Tree} (fs : List Frame) : a.Somewhere (IsRoot b) → Keeps b ⟨some a, fs⟩
  | frame (x : Option Tree) {f : Frame} {fs : List Frame} : f ∈ fs → f.Keeps b → Keeps b ⟨x, fs⟩
  /-- the exponent has just been read -/
  | exponent (P : Option Purpose) (ps : List Pending) (fs : List Frame) :
      Keeps b ⟨some half, ⟨P, .joint b .power :: ps⟩ :: fs⟩

section Settle

variable {P : Tree → Prop} {a b : Tree} {ps : List Pending} {k : Nat}

theorem somewhere_apply (p : Pending) (h : a.Somewhere P) : (p.apply a).Somewhere P := by
  cases p with
  | sign s => exact h.signed s
  | joint c o => exact h.right o c

theorem somewhere_settle (h : a.Somewhere P) : (settle k ps a).2.Somewhere P := by
  induction ps generalizing a with
  | nil => exact h
  | cons p ps ih =>
    by_cases hp : k ≤ p.binds
    · rw [settle_tight hp]
      exact ih (somewhere_apply p h)
    · rw [settle_loose (by omega)]
      exact h

/-- What waits still waits or has been applied. -/
theorem waiting_settle (h : Waiting b ps) :
    Waiting b (settle k ps a).1 ∨ (settle k ps a).2.Somewhere (IsRoot b) := by
  induction h generalizing a with
  | @left c o ps hc =>
    by_cases hk : k ≤ (Pending.joint c o).binds
    · rw [settle_tight hk]
      exact .inr (somewhere_settle (.left o a hc))
    · rw [settle_loose (by omega)]
      exact .inl (.left o ps hc)
  | raised ps =>
    by_cases hk : k ≤ 6
    · rw [settle_tight hk, settle_tight hk]
      exact .inr (somewhere_settle (.here (.raised a)))
    · rw [settle_loose (Nat.lt_of_not_le hk)]
      exact .inl (.raised ps)
  | @later p ps h ih =>
    by_cases hk : k ≤ p.binds
    · rw [settle_tight hk]
      exact ih
    · rw [settle_loose (by omega)]
      exact .inl (.later p h)

theorem half_settle (hk : k ≤ 6) :
    (settle k (.joint b .power :: ps) half).2.Somewhere (IsRoot b) := by
  rw [settle_tight hk]
  exact somewhere_settle (.here .root)

theorem waiting_content (h : Waiting b ps) (a : Tree) :
    (settle 0 ps a).2.Somewhere (IsRoot b) := by
  have hs : Waiting b (settle 0 ps a).1 ∨ _ := waiting_settle h
  refine hs.resolve_left fun hw => ?_
  rw [settle_zero] at hw
  cases hw

theorem waiting_joint (o : Joint)
    (h : Waiting b (settle k ps a).1 ∨ (settle k ps a).2.Somewhere (IsRoot b)) :
    Waiting b (.joint (settle k ps a).2 o :: (settle k ps a).1) :=
  h.elim (.later _) (.left o _)

end Settle

section Step

variable {callee : Tree → Bool} {b t : Tree} {s s' : State} {f : Frame} {fs : List Frame}
  {x : Option Tree} {u : Token} {m : Move} {ts : List Token}

theorem Joint.applies_le {o : Joint} (h : o ≠ .power) : o.applies ≤ 6 := by
  cases o <;> first | exact absurd rfl h | decide

theorem somewhere_operand {P : Tree → Prop} {a : Tree} (p : Purpose) (loose : Bool)
    (h : a.Somewhere P) : (p.operand a loose).Somewhere P := by
  cases p with
  | group =>
    cases loose with
    | false => exact h
    | true => exact h.enclosed
  | call g => exact h.argument g
  | subscript g => exact h.index g

/-- What a frame keeps is in the operand that it leaves. -/
theorem Frame.Keeps.leave {p : Purpose} (h : f.Keeps b) (hp : f.purpose = some p)
    (loose : Bool) : (p.operand (f.content x) loose).Somewhere (IsRoot b) := by
  cases h with
  | pending P hw => exact somewhere_operand p loose (waiting_content hw _)
  | call ps hg =>
    cases hp
    exact hg.callee _
  | subscript ps hg =>
    cases hp
    exact hg.array _

/-- What a frame keeps stays in it when something is added to what waits. -/
theorem Frame.Keeps.stay {ps : List Pending} (h : f.Keeps b)
    (hw : Waiting b f.pending → Waiting b ps) : Frame.Keeps b ⟨f.purpose, ps⟩ := by
  cases h with
  | pending P h => exact .pending P (hw h)
  | call _ hg => exact .call ps hg
  | subscript _ hg => exact .subscript ps hg

/-- Each step keeps the root. -/
theorem keeps_step (hc : ∀ w, callee (.numeral w) = false) (h : s.Keeps b)
    (hs : s.step callee u = some s') : s'.Keeps b := by
  obtain ⟨x, gs⟩ := s
  obtain ⟨f, fs, hf⟩ := State.exists_frame hs
  cases hf
  obtain ⟨m, hm, rfl⟩ := State.step_cons_iff.1 hs
  have houter {g : Frame} (hg : g ∈ fs) (hk : g.Keeps b) : (State.follow f fs m).Keeps b := by
    cases m with
    | stay y ps => exact .frame y (List.mem_cons_of_mem _ hg) hk
    | enter p => exact .frame none (List.mem_cons_of_mem _ (List.mem_cons_of_mem _ hg)) hk
    | leave a => exact .frame _ hg hk
  have hjoin {a : Tree} {o : Joint} (hj : f.join a o = some m)
      (hw : Waiting b (.joint (settle o.applies f.pending a).2 o ::
        (settle o.applies f.pending a).1)) : (State.follow f fs m).Keeps b := by
    obtain ⟨-, rfl⟩ := Frame.join_iff.1 hj
    exact .frame none List.mem_cons_self (.pending _ hw)
  cases h with
  | operand _ ha =>
    cases hm with
    | call => exact .frame none List.mem_cons_self (.call [] ha)
    | subscript => exact .frame none List.mem_cons_self (.subscript [] ha)
    | close => exact .operand _ (somewhere_operand _ _ (somewhere_settle ha))
    | join hj => exact hjoin hj (.left _ _ (somewhere_settle ha))
  | @frame _ g _ hg hk =>
    rcases List.mem_cons.1 hg with rfl | hg
    · cases hm with
      | name => exact .frame _ List.mem_cons_self (hk.stay id)
      | numeral => exact .frame _ List.mem_cons_self (hk.stay id)
      | group => exact .frame _ (List.mem_cons_of_mem _ List.mem_cons_self) hk
      | call => exact .frame _ (List.mem_cons_of_mem _ List.mem_cons_self) hk
      | subscript => exact .frame _ (List.mem_cons_of_mem _ List.mem_cons_self) hk
      | close hp => exact .operand _ (hk.leave hp _)
      | sign => exact .frame _ List.mem_cons_self (hk.stay (.later _))
      | skip _ _ hj =>
        obtain ⟨-, rfl⟩ := Frame.join_iff.1 hj
        exact .frame _ List.mem_cons_self (hk.stay fun hw => waiting_joint _ (waiting_settle hw))
      | join hj =>
        obtain ⟨-, rfl⟩ := Frame.join_iff.1 hj
        exact .frame _ List.mem_cons_self (hk.stay fun hw => waiting_joint _ (waiting_settle hw))
    · exact houter hg hk
  | exponent P ps _ =>
    cases hm with
    | call ha => simp [half, hc] at ha
    | subscript ha => simp [half, hc] at ha
    | close => exact .operand _ (somewhere_operand _ _ (half_settle (Nat.zero_le 6)))
    | @join _ o _ hj =>
      by_cases ho : o = .power
      · subst ho
        exact hjoin hj (.raised ps)
      · exact hjoin hj (.left o _ (half_settle (Joint.applies_le ho)))

theorem keeps_run (hc : ∀ w, callee (.numeral w) = false) (h : s.Keeps b)
    (hr : s.run callee ts = some s') : s'.Keeps b := by
  induction ts generalizing s with
  | nil =>
    cases hr
    exact h
  | cons u ts ih =>
    obtain ⟨s₁, hs, hr⟩ := State.run_cons_iff.1 hr
    exact ih (keeps_step hc h hs) hr

/-- At the end of the line the root is a part of the tree. -/
theorem State.Keeps.tree? (h : s.Keeps b) (hf : Framed s) (ht : s.tree? = some t) :
    t.Somewhere (IsRoot b) := by
  obtain ⟨x, gs⟩ := s
  unfold State.tree? at ht
  split at ht
  · rename_i f hgs
    cases hgs
    split at ht
    · cases ht
      have hp : f.purpose = none := by
        simpa [Framed, kinds] using hf
      cases h with
      | operand _ ha => exact somewhere_settle ha
      | frame _ hg hk =>
        rw [List.mem_singleton] at hg
        subst hg
        cases hk with
        | pending P hw => exact waiting_content hw _
        | call => cases hp
        | subscript => cases hp
      | exponent => exact half_settle (Nat.zero_le 6)
    · cases ht
  · cases ht

end Step

section Read

variable {us before after : List Token} {t : Tree}

/-- The root of a group, as it is written. -/
def rootTokens (us : List Token) : List Token :=
  inBrackets .round us ++ [Joint.power.token, .number ['0', '.', '5']]

theorem read_of_operand {callee : Tree → Bool} {b : Tree} (h : Operand callee us b) :
    read callee (inBrackets .round us) = some b := by
  rw [read, State.start, h, Option.bind_some]
  rfl

/-- Where an operand is expected, the root is that of the whole group, whatever stands around it. -/
theorem root_of_read (hu : Matched us) (he : expects before.getLast? = true)
    (h : read Tree.mentionsName (before ++ (rootTokens us ++ after)) = some t) :
    ∃ b, read Tree.mentionsName (inBrackets .round us) = some b ∧ t.Somewhere (IsRoot b) := by
  obtain ⟨s', hr, ht⟩ := Option.bind_eq_some_iff.1 h
  have hframed := (run_brackets (s := State.start) rfl hr).2
  obtain ⟨⟨x, gs⟩, hs, hr⟩ := State.run_append_iff.1 hr
  obtain rfl : x = none := (reached_run hs).expects he
  rw [rootTokens, List.append_assoc] at hr
  obtain ⟨s₁, h₁, hr⟩ := State.run_append_iff.1 hr
  obtain ⟨_, hopen, -⟩ := State.run_cons_iff.1 h₁
  obtain ⟨f, fs, hf⟩ := State.exists_frame hopen
  cases hf
  obtain ⟨b, rfl, hb⟩ := operand_of_run hu h₁
  refine ⟨b, read_of_operand hb, ?_⟩
  have hbelow : Below Joint.power.applies f.pending := fun p _ => p.binds_lt
  have hpower : (State.mk (some b) (f :: fs)).step Tree.mentionsName Joint.power.token =
      some ⟨none, ⟨f.purpose, .joint b .power :: f.pending⟩ :: fs⟩ := by
    refine State.step_cons_iff.2 ⟨_, .join (Frame.join_iff.2 ⟨rfl, rfl⟩), ?_⟩
    rw [settle_below hbelow]
    rfl
  obtain ⟨s₂, h₂, hr⟩ := State.run_cons_iff.1 hr
  obtain rfl := Option.some.inj (hpower.symm.trans h₂)
  obtain ⟨s₃, h₃, hr⟩ := State.run_cons_iff.1 hr
  obtain rfl : State.mk (some half) (⟨f.purpose, .joint b .power :: f.pending⟩ :: fs) = s₃ :=
    Option.some.inj h₃
  exact (keeps_run (fun _ => rfl) (.exponent _ _ _) hr).tree? hframed ht

end Read

end Python

end Kinetics
