import Kinetics.Proofs.Python.Grammar

/-!
# Kinetics.Proofs.Python.Derivation

What is read is an expression. While the reader is under way, every operation that waits stands for
tokens that are an operand and an operator behind it (`Waits`), from the outermost frame to the
innermost (`Before`); a token that comes keeps this so (`stands_step`). At the end of a line the
tokens are an expression with the tree that is read, which makes `read_iff` of the two directions.
-/

namespace Kinetics

namespace Python

open Arithmetic (Sign)
open Code

section Waits

variable {callee : Tree → Bool} {slices : Bool} {ps : List Pending} {p : Pending} {a b c : Tree}
  {k l : Nat} {ts us vs ws : List Token} {o : Joint}

/-- The tokens stand in front of a member of a tuple or a part of a slice. -/
inductive Front (callee : Tree → Bool) (slices : Bool) : List Token → List Pending → Prop where
  | start : Front callee slices [] []
  | comma {ts : List Token} {a : Tree} : Parses callee (.items slices) ts a →
      Front callee slices (ts ++ [Joint.comma.token]) [.joint a .comma]
  | colon {us ts : List Token} {ps : List Pending} {a : Tree} : slices = true →
      Front callee slices us ps → ps.countP (fun p => p.joint? == some .colon) < 2 →
      Parses callee .part ts a →
      Front callee slices (us ++ (ts ++ [Joint.colon.token])) (.joint a .colon :: ps)

/-- The tokens stand in front of an operand, for which the operations wait. -/
inductive Waits (callee : Tree → Bool) (slices : Bool) : List Token → List Pending → Prop where
  | front {us : List Token} {ps : List Pending} : Front callee slices us ps →
      Waits callee slices us ps
  | sign {us : List Token} {ps : List Pending} (s : Sign) : Waits callee slices us ps →
      Waits callee slices (us ++ [s.token]) (.sign s :: ps)
  | power {us ts : List Token} {ps : List Pending} {a : Tree} : Waits callee slices us ps →
      Parses callee .primary ts a →
      Waits callee slices (us ++ (ts ++ [Joint.power.token])) (.joint a .power :: ps)
  | joint {us ts : List Token} {ps : List Pending} {a : Tree} (o : Joint) :
      Joint.less.binds ≤ o.binds → o.binds ≤ Joint.times.binds → Waits callee slices us ps →
      Below o.binds ps → Parses callee (.operand o.binds) ts a →
      Waits callee slices (us ++ (ts ++ [o.token])) (.joint a o :: ps)

theorem below_of_front (h : Front callee slices us ps) : Below 2 ps := by
  cases h with
  | start => exact below_nil 2
  | comma => exact below_cons.2 (by decide : Joint.comma.binds < 2)
  | colon => exact below_cons.2 (by decide : Joint.colon.binds < 2)

theorem Waits.front_of_below (h : Waits callee slices us ps) (hb : Below 2 ps) :
    Front callee slices us ps := by
  cases h with
  | front h => exact h
  | sign s => exact absurd (below_cons.1 hb) (by decide : ¬signBinds < 2)
  | power => exact absurd (below_cons.1 hb) (by decide : ¬Joint.power.binds < 2)
  | joint o ho => exact absurd (below_cons.1 hb) (Nat.not_lt.2 ho)

theorem Parses.looser (h : Parses callee (.operand l) ts a) (hk : k ≤ l) :
    Parses callee (.operand k) ts a := by
  induction hk with
  | refl => exact h
  | step _ ih => exact ih (.tighter h)

/-- Whether an operation takes what binds so tightly as its last operand. -/
def Takes (ps : List Pending) (l : Nat) : Prop :=
  ∀ p, ps.head? = some p → min (p.binds + 1) signBinds ≤ l

theorem takes_sign : Takes ps signBinds :=
  fun _ _ => Nat.min_le_right _ _

theorem takes_below (h : Below l ps) : Takes ps l :=
  fun p hp => Nat.le_trans (Nat.min_le_left _ _) (h p hp)

/-- The operations that are applied are the last operand of what still waits. -/
theorem Waits.settled (h : Waits callee slices us ps) (hk : Joint.less.binds ≤ k)
    (hk' : k ≤ Joint.times.binds) (hb : Parses callee (.operand l) vs b) (hl : k ≤ l)
    (ht : Takes ps l) : ∃ us' ws, us ++ vs = us' ++ ws ∧
      Waits callee slices us' (settle k ps b).1 ∧ Below k (settle k ps b).1 ∧
      Parses callee (.operand k) ws (settle k ps b).2 := by
  induction h generalizing l vs b with
  | @front us ps hf =>
    have hbelow := (below_of_front hf).mono hk
    rw [settle_below hbelow]
    exact ⟨us, vs, rfl, .front hf, hbelow, hb.looser hl⟩
  | @sign us ps s hw ih =>
    have hbinds : k ≤ (Pending.sign s).binds := Nat.le_trans hk' (by decide : 4 ≤ signBinds)
    have hop : Parses callee (.operand signBinds) vs b :=
      hb.looser (Nat.le_trans (by decide : _ ≤ min (signBinds + 1) signBinds) (ht _ rfl))
    rw [settle_tight hbinds]
    obtain ⟨us', ws, he, hw', hbel, hc⟩ := ih (.signed s hop) hbinds takes_sign
    exact ⟨us', ws, by simpa using he, hw', hbel, hc⟩
  | @power us ts ps a hw ha ih =>
    have hbinds : k ≤ Joint.power.binds := Nat.le_trans hk' (by decide)
    have hop : Parses callee (.operand signBinds) vs b :=
      hb.looser (Nat.le_trans (by decide : _ ≤ min (Joint.power.binds + 1) signBinds) (ht _ rfl))
    rw [settle_tight hbinds]
    obtain ⟨us', ws, he, hw', hbel, hc⟩ := ih (.power ha hop) hbinds fun p hp =>
      Nat.le_trans (Nat.min_le_right _ _) (by decide)
    exact ⟨us', ws, by simpa using he, hw', hbel, hc⟩
  | @joint us ts ps a o hlow hhigh hw hbel ha ih =>
    have hsucc : min (o.binds + 1) signBinds = o.binds + 1 :=
      Nat.min_eq_left (Nat.succ_le_succ hhigh)
    have hop : Parses callee (.operand (o.binds + 1)) vs b :=
      hb.looser (hsucc ▸ ht _ rfl)
    by_cases hbinds : k ≤ o.binds
    · rw [settle_tight (q := .joint a o) hbinds]
      obtain ⟨us', ws, he, hw', hbel', hc⟩ := ih (.joined o hlow hhigh ha hop) hbinds (takes_below hbel)
      exact ⟨us', ws, by simpa using he, hw', hbel', hc⟩
    · have hlt : Below k (Pending.joint a o :: ps) := below_cons.2 (Nat.lt_of_not_le hbinds)
      rw [settle_below hlt]
      exact ⟨_, vs, rfl, .joint o hlow hhigh hw hbel ha, hlt, hb.looser hl⟩

/-- A member of a tuple is over: its last part may only be left out behind a colon. -/
theorem Front.items (h : Front callee slices us ps) (hc : Parses callee .part ws c)
    (hw : (Frame.mk none ps).awaits .colon = true ∨
      Parses callee (.operand Joint.less.binds) ws c) :
    Parses callee (.items slices) (us ++ ws) (applied ps c) := by
  cases h with
  | start =>
    exact .first (.item _ (hw.resolve_left (by simp [Frame.awaits])))
  | comma ha =>
    have hc' := hw.resolve_left (by simp [Frame.awaits])
    simpa [applied, Pending.apply] using Parses.next ha (.item _ hc')
  | colon hs h hn ha =>
    subst hs
    cases h with
    | start => simpa [applied, Pending.apply] using Parses.first (.slice ha hc)
    | comma hb => simpa [applied, Pending.apply] using Parses.next hb (.slice ha hc)
    | colon _ h hn' hb =>
      cases h with
      | start => simpa [applied, Pending.apply] using Parses.first (.stepped hb ha hc)
      | comma hd => simpa [applied, Pending.apply] using Parses.next hd (.stepped hb ha hc)
      | colon =>
        simp only [List.countP_cons, Pending.joint?_joint, BEq.rfl, if_true] at hn
        omega

end Waits

section Frames

variable {callee : Tree → Bool} {slices : Bool} {ps qs : List Pending} {p : Purpose} {a b c : Tree}
  {ts us vs ws : List Token} {o : Joint} {f : Frame} {fs : List Frame} {P : Option Purpose}
  {x : Option Tree} {s s' : State} {t : Token} {m : Move} {k : Nat}

theorem settle_suffix (k : Nat) (ps : List Pending) (a : Tree) : (settle k ps a).1 <:+ ps := by
  induction ps generalizing a with
  | nil => exact List.suffix_refl _
  | cons q ps ih =>
    by_cases hq : k ≤ q.binds
    · rw [settle_tight hq]
      exact (ih _).trans (List.suffix_cons q ps)
    · have hs : settle k (q :: ps) a = (q :: ps, a) := settle_loose (by omega)
      exact (congrArg Prod.fst hs).symm ▸ List.suffix_refl (q :: ps)

theorem below_of_awaits (h : (Frame.mk P ps).awaits o = true) (ho : o.binds < k) : Below k ps := by
  cases ps with
  | nil => exact below_nil k
  | cons p ps =>
    cases p with
    | sign s => cases (awaits_cons o).1 h
    | joint a o' =>
      cases (awaits_cons o).1 h
      exact below_cons.2 ho

/-- An operand that is over, and what the comma or the bracket behind it makes of it. -/
theorem Waits.items (h : Waits callee slices us ps) (hb : Parses callee .primary vs b) :
    Parses callee (.items slices) (us ++ vs) (applied ps b) := by
  obtain ⟨us', ws, he, hw, hbel, hc⟩ := h.settled (k := 2) (Nat.le_refl _) (by decide) (.primary hb)
    (by decide) fun p _ => Nat.le_trans (Nat.min_le_right _ _) (by decide)
  have hz : settle 0 (settle 2 ps b).1 (settle 2 ps b).2 = settle 0 ps b :=
    settle_settle (Nat.zero_le 2)
  rw [settle_zero, settle_zero, Prod.mk.injEq] at hz
  rw [he, ← hz.2]
  exact (hw.front_of_below hbel).items (.part hc) (.inr hc)

/-- The operand that is left out behind a colon. -/
theorem Waits.slice (h : Waits callee slices us ps) (hc : (Frame.mk P ps).awaits .colon = true) :
    Parses callee (.items slices) us (applied ps .absent) := by
  have hbel : Below 2 ps := below_of_awaits hc (by decide)
  simpa using (h.front_of_below hbel).items .missing (.inl hc)

theorem Waits.trailing (h : Waits callee slices us ps)
    (hc : (Frame.mk P ps).awaits .comma = true) :
    Parses callee (.content slices) us (applied ps .absent) := by
  have hbel : Below 2 ps := below_of_awaits hc (by decide)
  cases h.front_of_below hbel with
  | start => cases hc
  | comma ha => exact .trailing ha
  | colon => cases (awaits_cons .comma).1 hc

/-- A joint behind an operand: what it does not apply waits for the next operand. -/
theorem Waits.join (h : Waits callee slices us ps) (hb : Parses callee .primary vs b)
    (hs : slices = (Frame.mk P ps).opensSubscript) (ha : (Frame.mk P ps).admits o = true) :
    Waits callee slices (us ++ (vs ++ [o.token]))
      (.joint (settle o.applies ps b).2 o :: (settle o.applies ps b).1) := by
  have hpower (p : Pending) (_ : ps.head? = some p) :
      min (p.binds + 1) signBinds ≤ Joint.power.binds :=
    Nat.le_trans (Nat.min_le_right _ _) (by decide)
  have hjoin (k : Nat) (hk : Joint.less.binds ≤ k) (hk' : k ≤ Joint.times.binds) :
      ∃ us' ws, us ++ (vs ++ [o.token]) = us' ++ (ws ++ [o.token]) ∧
        Waits callee slices us' (settle k ps b).1 ∧ Below k (settle k ps b).1 ∧
        Parses callee (.operand k) ws (settle k ps b).2 := by
    obtain ⟨us', ws, he, hrest⟩ :=
      h.settled hk hk' (.primary hb) (Nat.le_trans hk' (by decide)) hpower
    exact ⟨us', ws, by rw [← List.append_assoc, he, List.append_assoc], hrest⟩
  have hjoint (hlow : Joint.less.binds ≤ o.binds) (hhigh : o.binds ≤ Joint.times.binds) :
      Waits callee slices (us ++ (vs ++ [o.token]))
        (.joint (settle o.binds ps b).2 o :: (settle o.binds ps b).1) := by
    obtain ⟨us', ws, he, hw, hbel, hc⟩ := hjoin o.binds hlow hhigh
    rw [he]
    exact .joint o hlow hhigh hw hbel hc
  cases o with
  | power =>
    rw [settle_below fun p _ => p.binds_lt]
    exact .power h hb
  | colon =>
    obtain ⟨us', ws, he, hw, hbel, hc⟩ := hjoin 2 (Nat.le_refl _) (by decide)
    simp only [Frame.admits, bne_self_eq_false, Bool.false_or, Bool.and_eq_true,
      decide_eq_true_eq] at ha
    rw [he]
    exact .front (.colon (hs.trans ha.1) (hw.front_of_below hbel)
      (Nat.lt_of_le_of_lt (settle_suffix 2 ps b).sublist.countP_le ha.2) (.part hc))
  | comma =>
    rw [show Joint.comma.applies = 0 from rfl, settle_zero, ← List.append_assoc]
    exact .front (.comma (h.items hb))
  | _ => exact hjoint (by decide) (by decide)

/-- A joint in front of which an operand is left out. -/
theorem Waits.skip (h : Waits callee slices us ps)
    (hs : slices = (Frame.mk P ps).opensSubscript) (ha : (Frame.mk P ps).admits o = true)
    (hm : (Frame.mk P ps).maySkip o = true) :
    Waits callee slices (us ++ [o.token])
      (.joint (settle o.applies ps .absent).2 o :: (settle o.applies ps .absent).1) := by
  cases o with
  | comma =>
    rw [show Joint.comma.applies = 0 from rfl, settle_zero]
    exact .front (.comma (h.slice hm))
  | colon =>
    have hbel : Below 2 ps := by
      simp only [Frame.maySkip, Bool.or_eq_true, List.isEmpty_iff] at hm
      rcases hm with (hm | hm) | rfl
      · exact below_of_awaits hm (by decide)
      · exact below_of_awaits hm (by decide)
      · exact below_nil 2
    simp only [Frame.admits, bne_self_eq_false, Bool.false_or, Bool.and_eq_true,
      decide_eq_true_eq] at ha
    rw [show Joint.colon.applies = 2 from rfl, settle_below hbel]
    have hmissing : Parses callee .part [] .absent := .missing
    exact .front (.colon (hs.trans ha.1) (h.front_of_below hbel) ha.2 hmissing)
  | _ => cases hm

/-- The tokens that open a bracket for such a purpose. -/
inductive Opens (callee : Tree → Bool) : Purpose → List Token → Prop where
  | group : Opens callee .group [.opening .round]
  | call {ts : List Token} {a : Tree} : Parses callee .primary ts a → callee a = true →
      Opens callee (.call a) (ts ++ [.opening .round])
  | subscript {ts : List Token} {a : Tree} : Parses callee .primary ts a → callee a = true →
      Opens callee (.subscript a) (ts ++ [.opening .square])

/-- The tokens stand in front of an operand in the innermost of the frames. -/
inductive Before (callee : Tree → Bool) : List Frame → List Token → Prop where
  | line {us : List Token} {ps : List Pending} : Waits callee false us ps →
      Before callee [⟨none, ps⟩] us
  | bracket {p : Purpose} {fs : List Frame} {us vs ws : List Token} {ps : List Pending} :
      Before callee fs us → Opens callee p vs → Waits callee p.isSubscript ws ps →
      Before callee (⟨some p, ps⟩ :: fs) (us ++ (vs ++ ws))

/-- What the reader knows of the tokens behind it. -/
def Knows (callee : Tree → Bool) (s : State) (ts : List Token) : Prop :=
  match s.operand with
  | none => Before callee s.frames ts
  | some a => ∃ us vs, ts = us ++ vs ∧ Before callee s.frames us ∧ Parses callee .primary vs a

/-- The innermost frame may go on with other operations. -/
theorem Before.frame (h : Before callee (f :: fs) ts) : ∃ us vs, ts = us ++ vs ∧
    Waits callee f.opensSubscript vs f.pending ∧
    ∀ ws qs, Waits callee f.opensSubscript ws qs → Before callee (⟨f.purpose, qs⟩ :: fs) (us ++ ws) := by
  cases h with
  | line h => exact ⟨[], ts, rfl, h, fun ws qs hw => .line hw⟩
  | bracket h ho hw =>
    refine ⟨_, _, (List.append_assoc _ _ _).symm, hw, fun ws qs hw => ?_⟩
    rw [List.append_assoc]
    exact .bracket h ho hw

theorem Before.enter (h : Before callee fs us) (ho : Opens callee p vs) :
    Before callee (⟨some p, []⟩ :: fs) (us ++ vs) := by
  have hb := Before.bracket h ho (.front .start)
  rwa [List.append_nil] at hb

theorem loose_of_binds (q : Pending) (h : q.binds < 3) : q.isLoose = true := by
  cases q with
  | sign s => exact absurd h (by decide : ¬signBinds < 3)
  | joint a o => exact decide_eq_true h

theorem loose_cons {q : Pending} (hc : c.isLoose = true → Below 3 (q :: qs)) :
    ((q :: qs).any Pending.isLoose || c.isLoose) =
      (qs.any Pending.isLoose || (q.apply c).isLoose) := by
  rw [isLoose_apply, List.any_cons]
  cases hl : c.isLoose with
  | false => rw [Bool.or_false, Bool.or_comm]
  | true => simp [loose_of_binds q (below_cons.1 (hc hl))]

theorem Front.loose (h : Front callee slices us ps) :
    (ps.any Pending.isLoose || c.isLoose) = (applied ps c).isLoose := by
  induction h generalizing c with
  | start => rfl
  | comma => rfl
  | @colon us ts ps a _ _ _ _ ih =>
    have hbel : Below 3 (Pending.joint a .colon :: ps) :=
      below_cons.2 (by decide : Joint.colon.binds < 3)
    rw [loose_cons fun _ => hbel, ih]
    rfl

/-- Whether something loose waits can be told from the operation that waits longest. -/
theorem Waits.loose (h : Waits callee slices us ps) (hc : c.isLoose = true → Below 3 ps) :
    (ps.any Pending.isLoose || c.isLoose) = (applied ps c).isLoose := by
  induction h generalizing c with
  | front h => exact h.loose
  | sign s _ ih => exact (loose_cons hc).trans (ih (c := .signed s c) nofun)
  | @power _ _ _ a _ _ ih => exact (loose_cons hc).trans (ih (c := .joined .power a c) nofun)
  | @joint _ _ _ a o _ _ _ hbel _ ih =>
    exact (loose_cons hc).trans (ih (c := .joined o a c) fun hl =>
      hbel.mono (Nat.le_of_lt (of_decide_eq_true hl)))

/-- The tokens are the last operand of a frame, or it is left out where the frame may be over. -/
def Last (callee : Tree → Bool) (Q : Prop) (vs : List Token) : Option Tree → Prop
  | none => vs = [] ∧ Q
  | some b => Parses callee .primary vs b

/-- What stands in a frame that such an operand, or its absence, is the end of. -/
theorem Waits.content (h : Waits callee slices us ps)
    (hx : Last callee ((Frame.mk P ps).awaits .comma = true ∨ (Frame.mk P ps).awaits .colon = true)
      vs x) :
    Parses callee (.content slices) (us ++ vs) (Frame.content ⟨P, ps⟩ x) ∧
      (ps.any Pending.isLoose || x.isNone) = (Frame.content ⟨P, ps⟩ x).isLoose := by
  have hw : Frame.content ⟨P, ps⟩ x = applied ps (x.getD .absent) := by
    rw [Frame.content, settle_zero]
  rw [hw]
  cases x with
  | some b =>
    have hx : Parses callee .primary vs b := hx
    have hb : b.isLoose = false := hx.runs.1
    have hl := h.loose (c := b) fun hl => by simp [hb] at hl
    exact ⟨.content (h.items hx), by simpa [hb] using hl⟩
  | none =>
    obtain ⟨rfl, hx⟩ := hx
    rw [List.append_nil]
    rcases hx with hx | hx
    · exact ⟨h.trailing hx, h.loose (c := .absent) fun _ => below_of_awaits hx (by decide)⟩
    · exact ⟨.content (h.slice hx), h.loose (c := .absent) fun _ => below_of_awaits hx (by decide)⟩

/-- What stands between the brackets that are opened for such a purpose. -/
def Purpose.role : Purpose → Role
  | .subscript _ => .content true
  | _ => .inside

theorem Opens.close (ho : Opens callee p ws) (h : Parses callee p.role us a) :
    Parses callee .primary (ws ++ (us ++ [Token.closing p.bracket])) (p.operand a a.isLoose) := by
  cases ho with
  | group => exact .group h
  | call hf hc =>
    rw [List.append_assoc]
    exact .call hf hc h
  | subscript hf hc =>
    rw [List.append_assoc]
    exact .subscript hf hc h

theorem Waits.inside (h : Waits callee p.isSubscript us ps)
    (hx : Last callee ((Frame.mk (some p) ps).mayEnd = true) vs x) :
    Parses callee p.role (us ++ vs) (Frame.content ⟨some p, ps⟩ x) ∧
      (ps.any Pending.isLoose || x.isNone) = (Frame.content ⟨some p, ps⟩ x).isLoose := by
  by_cases hempty : x = none ∧ p.isSubscript = false ∧ ps = []
  · obtain ⟨rfl, hp, rfl⟩ := hempty
    obtain ⟨rfl, -⟩ := hx
    have hus : us = [] := by
      cases h with
      | front h => cases h; rfl
    subst hus
    cases p with
    | subscript f => cases hp
    | _ => exact ⟨.empty, rfl⟩
  · have hc : Parses callee (.content p.isSubscript) (us ++ vs) (Frame.content ⟨some p, ps⟩ x) ∧
        (ps.any Pending.isLoose || x.isNone) = (Frame.content ⟨some p, ps⟩ x).isLoose := by
      refine h.content ?_
      cases x with
      | some b => exact hx
      | none =>
        refine ⟨hx.1, ?_⟩
        have hm := hx.2
        simp only [Frame.mayEnd, Bool.or_eq_true, Bool.and_eq_true, List.isEmpty_iff,
          Bool.not_eq_true'] at hm
        exact hm.resolve_right fun hm => hempty ⟨rfl, hm.2, hm.1⟩
    refine ⟨?_, hc.2⟩
    cases p with
    | subscript f => exact hc.1
    | _ => exact .inside hc.1

/-- A closing bracket makes an operand of the frame. -/
theorem knows_close (h : Knows callee ⟨x, f :: fs⟩ ts) (hp : f.purpose = some p)
    (hx : x = none → f.mayEnd = true) :
    Knows callee ⟨some (p.operand (f.content x) (f.pending.any Pending.isLoose || x.isNone)), fs⟩
      (ts ++ [Token.closing p.bracket]) := by
  obtain ⟨P, ps⟩ := f
  cases hp
  have hbefore : ∃ us vs, ts = us ++ vs ∧ Before callee (⟨some p, ps⟩ :: fs) us ∧
      Last callee ((Frame.mk (some p) ps).mayEnd = true) vs x := by
    cases x with
    | none => exact ⟨ts, [], (List.append_nil ts).symm, h, rfl, hx rfl⟩
    | some b => exact h
  obtain ⟨_, vs, rfl, hb, hv⟩ := hbefore
  cases hb with
  | @bracket _ _ us ws rs _ hb ho hw =>
    obtain ⟨hc, hl⟩ := hw.inside hv
    refine ⟨us, ws ++ (rs ++ vs ++ [Token.closing p.bracket]), by simp, hb, ?_⟩
    rw [show (Frame.mk (some p) ps).pending = ps from rfl, hl]
    exact ho.close hc

theorem knows_start : Knows callee State.start [] :=
  .line (.front .start)

/-- What the reader knows it knows behind the next token as well. -/
theorem knows_step (h : Knows callee s ts) (hs : s.step callee t = some s') :
    Knows callee s' (ts ++ [t]) := by
  obtain ⟨x, gs⟩ := s
  obtain ⟨f, fs, hf⟩ := State.exists_frame hs
  cases hf
  obtain ⟨m, hm, rfl⟩ := State.step_cons_iff.1 hs
  cases hm with
  | name hw => exact ⟨ts, _, rfl, h, .name hw⟩
  | numeral hw => exact ⟨ts, _, rfl, h, .numeral hw⟩
  | group => exact Before.enter h .group
  | call hc =>
    obtain ⟨us, vs, rfl, hb, hv⟩ := h
    rw [List.append_assoc]
    exact hb.enter (.call hv hc)
  | subscript hc =>
    obtain ⟨us, vs, rfl, hb, hv⟩ := h
    rw [List.append_assoc]
    exact hb.enter (.subscript hv hc)
  | close hp hx => exact knows_close h hp hx
  | @sign o s ho =>
    obtain ⟨us, vs, rfl, hw, hnext⟩ := Before.frame h
    have ht : o.token = s.token := by cases o <;> cases ho <;> rfl
    rw [ht, List.append_assoc]
    exact hnext _ _ (.sign s hw)
  | @skip o m ho hskip hj =>
    obtain ⟨us, vs, rfl, hw, hnext⟩ := Before.frame h
    obtain ⟨ha, rfl⟩ := Frame.join_iff.1 hj
    rw [List.append_assoc]
    exact hnext _ _ (hw.skip rfl ha hskip)
  | @join a o m hj =>
    obtain ⟨_, rs, rfl, hb, hv⟩ := h
    obtain ⟨us, vs, rfl, hw, hnext⟩ := Before.frame hb
    obtain ⟨ha, rfl⟩ := Frame.join_iff.1 hj
    rw [List.append_assoc, List.append_assoc]
    exact hnext _ _ (hw.join hv rfl ha)

theorem knows_run (h : Knows callee s ts) (hr : s.run callee us = some s') :
    Knows callee s' (ts ++ us) := by
  induction us generalizing s ts with
  | nil =>
    cases hr
    rwa [List.append_nil]
  | cons t us ih =>
    obtain ⟨s₁, hs, hr⟩ := State.run_cons_iff.1 hr
    rw [List.append_cons]
    exact ih (knows_step h hs) hr

theorem parses_of_read (h : read callee ts = some a) : Parses callee (.content false) ts a := by
  obtain ⟨⟨x, gs⟩, hr, ht⟩ := Option.bind_eq_some_iff.1 h
  have hk := knows_run knows_start hr
  rw [List.nil_append] at hk
  unfold State.tree? at ht
  split at ht
  · rename_i f hf
    cases hf
    split at ht
    · rename_i hend
      cases ht
      cases x with
      | none =>
        cases hk with
        | line hw => simpa using (hw.content (x := none) ⟨rfl, .inl hend⟩).1
        | bracket hb => cases hb
      | some b =>
        obtain ⟨us, vs, rfl, hb, hv⟩ := hk
        cases hb with
        | line hw => exact (hw.content (x := some b) hv).1
        | bracket hb => cases hb
    · cases ht
  · cases ht

/-- What is read is what is said. -/
theorem read_iff : read callee ts = some a ↔ Parses callee (.content false) ts a :=
  ⟨parses_of_read, Parses.read⟩

end Frames

end Python

end Kinetics
