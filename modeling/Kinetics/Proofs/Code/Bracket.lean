import Kinetics.Code.Grouping

/-!
# Kinetics.Proofs.Code.Bracket

Depth of brackets in a token list. A balanced list closes what it opens and nothing else. Two
balanced stretches of one list lie apart or one within the other: a group that stands in a list cut
at a token outside all brackets lies on one side of the cut (`split_around`), and a group that
stands in front of a closing bracket lies within what that bracket closes (`split_within`). What
`splitGroup` returns is the balanced content of the bracket it was called behind.
-/

namespace Kinetics

namespace Code

def Token.turn : Token → Int
  | .opening _ => 1
  | .closing _ => -1
  | _ => 0

def depth : List Token → Int
  | [] => 0
  | t :: ts => t.turn + depth ts

@[simp] theorem depth_nil : depth [] = 0 := rfl

@[simp] theorem depth_cons (t : Token) (ts : List Token) :
    depth (t :: ts) = t.turn + depth ts := rfl

@[simp] theorem depth_append (ts us : List Token) : depth (ts ++ us) = depth ts + depth us := by
  induction ts with
  | nil => simp
  | cons t ts ih => simp [ih, Int.add_assoc]

/-- No bracket is closed that was not opened before, with `n` brackets open at the start. -/
def Covered (n : Int) (ts : List Token) : Prop :=
  ∀ us vs, us ++ vs = ts → 0 ≤ n + depth us

/-- Every bracket that is closed was opened before, and none is left open. -/
structure Balanced (ts : List Token) : Prop where
  closed : depth ts = 0
  covered : Covered 0 ts

/-- More brackets may be open at the start. -/
theorem Covered.mono {m n : Int} {ts : List Token} (h : Covered m ts) (hn : m ≤ n) : Covered n ts :=
  fun us vs hu => by
    have := h us vs hu
    omega

theorem Covered.cons {n : Int} {t : Token} {ts : List Token} (hn : 0 ≤ n)
    (h : Covered (n + t.turn) ts) : Covered n (t :: ts) := by
  intro us vs hu
  cases us with
  | nil => simpa using hn
  | cons u us =>
    simp only [List.cons_append, List.cons.injEq] at hu
    obtain ⟨rfl, hu⟩ := hu
    have := h us vs hu
    simp only [depth_cons]
    omega

theorem Covered.tail {n : Int} {t : Token} {ts : List Token} (h : Covered n (t :: ts)) :
    Covered (n + t.turn) ts := fun us vs hu => by
  have := h (t :: us) vs (by simp [hu])
  simp only [depth_cons] at this
  omega

theorem Covered.head {n : Int} {t : Token} {ts : List Token} (h : Covered n (t :: ts)) :
    0 ≤ n + t.turn := by
  simpa using h [t] ts rfl

theorem Balanced.nil : Balanced [] :=
  ⟨rfl, fun us vs h => by simp [(List.append_eq_nil_iff.1 h).1]⟩

theorem Balanced.single {t : Token} (h : t.turn = 0) : Balanced [t] :=
  ⟨by simp [h], .cons (by omega) (by simpa [h] using Balanced.nil.covered)⟩

theorem Balanced.append {ts us : List Token} (ht : Balanced ts) (hu : Balanced us) :
    Balanced (ts ++ us) := by
  refine ⟨by simp [ht.closed, hu.closed], fun vs ws h => ?_⟩
  rcases List.append_eq_append_iff.1 h with ⟨as, hts, -⟩ | ⟨bs, rfl, hus⟩
  · exact ht.covered vs as hts.symm
  · have := hu.covered bs ws hus.symm
    simp only [depth_append, ht.closed]
    omega

theorem Balanced.cons {t : Token} {ts : List Token} (h : t.turn = 0) (ht : Balanced ts) :
    Balanced (t :: ts) :=
  (Balanced.single h).append ht

theorem Balanced.wrap {ts : List Token} (h : Balanced ts) (b c : Bracket) :
    Balanced (.opening b :: (ts ++ [Token.closing c])) := by
  refine ⟨by simp [h.closed, Token.turn], .cons (by omega) fun us vs hu => ?_⟩
  rcases List.append_eq_append_iff.1 hu with ⟨as, hts, -⟩ | ⟨bs, rfl, hc⟩
  · have := h.covered us as hts.symm
    simp only [Token.turn]
    omega
  · cases bs with
    | nil => simp [h.closed, Token.turn]
    | cons x bs =>
      simp only [List.cons_append, List.cons.injEq] at hc
      obtain ⟨rfl, hc⟩ := hc
      simp [h.closed, (List.append_eq_nil_iff.1 hc.symm).1, Token.turn]

section Split

variable {ts us inside before after : List Token} {b c d : Bracket}

/-- A bracket that a balanced list opens is closed in that list. -/
theorem Balanced.ne_open (ht : Balanced ts) (hi : Covered 0 inside) :
    ts ≠ before ++ .opening b :: inside := by
  intro h
  have hb := ht.covered before _ h.symm
  have ho := hi inside [] (by simp)
  have hc := ht.closed
  simp only [h, depth_append, depth_cons, Token.turn] at hc
  omega

theorem Balanced.ne_close (ht : Balanced ts) (hi : Balanced inside) :
    ts ≠ inside ++ .closing c :: after := by
  intro h
  have := ht.covered (inside ++ [Token.closing c]) after (by simp [h])
  simp [hi.closed, Token.turn] at this

theorem Covered.left {n : Int} (h : Covered n (ts ++ us)) : Covered n ts :=
  fun vs ws hv => h vs (ws ++ us) (by simp [← hv])

/-- A group in a list that a token outside all brackets cuts lies on one side of the cut. -/
theorem split_around {t : Token} (ht : Balanced ts) (ht0 : t.turn = 0) (hi : Balanced inside)
    (h : ts ++ t :: us = before ++ .opening b :: (inside ++ .closing c :: after)) :
    (∃ r : List Token, ts = before ++ .opening b :: (inside ++ .closing c :: r) ∧
        after = r ++ t :: us) ∨
      ∃ l, before = ts ++ t :: l ∧ us = l ++ .opening b :: (inside ++ .closing c :: after) := by
  rcases List.append_eq_append_iff.1 h with ⟨l, rfl, hu⟩ | ⟨r, hts, hr⟩
  · cases l with
    | nil =>
      simp only [List.nil_append, List.cons.injEq] at hu
      simp [hu.1, Token.turn] at ht0
    | cons x l =>
      simp only [List.cons_append, List.cons.injEq] at hu
      obtain ⟨rfl, hu⟩ := hu
      exact .inr ⟨l, rfl, hu⟩
  · cases r with
    | nil =>
      simp only [List.nil_append, List.cons.injEq] at hr
      simp [← hr.1, Token.turn] at ht0
    | cons x r =>
      simp only [List.cons_append, List.cons.injEq] at hr
      obtain ⟨rfl, hr⟩ := hr
      rcases List.append_eq_append_iff.1 hr with ⟨r', rfl, hc⟩ | ⟨s, rfl, -⟩
      · cases r' with
        | nil =>
          simp only [List.nil_append, List.cons.injEq] at hc
          simp [← hc.1, Token.turn] at ht0
        | cons x r' =>
          simp only [List.cons_append, List.cons.injEq] at hc
          obtain ⟨rfl, hc⟩ := hc
          exact .inl ⟨r', hts, hc⟩
      · exact absurd hts (ht.ne_open hi.covered.left)

/-- A group in a list whose last token closes a balanced list lies in that list. -/
theorem split_within (ht : Balanced ts) (hi : Balanced inside)
    (h : ts ++ [Token.closing d] = before ++ .opening b :: (inside ++ .closing c :: after)) :
    ∃ r : List Token, ts = before ++ .opening b :: (inside ++ .closing c :: r) ∧
      after = r ++ [Token.closing d] := by
  rcases List.eq_nil_or_concat after with rfl | ⟨r, z, rfl⟩
  · have h' : ts ++ [Token.closing d] =
        (before ++ .opening b :: inside) ++ [Token.closing c] := by simpa using h
    exact absurd (List.append_inj_left' h' rfl) (ht.ne_open hi.covered)
  · have h' : ts ++ [Token.closing d] =
        (before ++ .opening b :: (inside ++ .closing c :: r)) ++ [z] := by simpa using h
    obtain ⟨hts, hz⟩ := List.append_inj' h' rfl
    simp only [List.cons.injEq, and_true] at hz
    exact ⟨r, hts, by simp [hz]⟩

/-- A closing bracket behind a balanced list closes what stands before all of that list. -/
theorem closing_unique (ht : Balanced ts) (hi : Balanced inside)
    (h : ts ++ [Token.closing d] = inside ++ .closing c :: after) :
    ts = inside ∧ c = d ∧ after = [] := by
  rcases List.eq_nil_or_concat after with rfl | ⟨r, z, rfl⟩
  · obtain ⟨hts, hd⟩ := List.append_inj' h rfl
    simp only [List.cons.injEq, Token.closing.injEq, and_true] at hd
    exact ⟨hts, hd.symm, rfl⟩
  · have h' : ts ++ [Token.closing d] = (inside ++ .closing c :: r) ++ [z] := by simpa using h
    exact absurd (List.append_inj_left' h' rfl) (ht.ne_close hi)

end Split

section Step

variable {n : Nat} {t : Token} {ts : List Token}

theorem splitGroup_cons_turn (ht : t.turn = 0) : splitGroup n (t :: ts) =
    (splitGroup n ts).map fun p => (t :: p.1, p.2) := by
  have hb (b : Bracket) : t ≠ .opening b ∧ t ≠ .closing b :=
    ⟨(by rintro rfl; cases ht), (by rintro rfl; cases ht)⟩
  rw [splitGroup.eq_5 n t ts (fun b => (hb b).1) (fun b _ => (hb b).2) fun _ b _ => (hb b).2]
  cases splitGroup n ts <;> rfl

theorem splitGroup_opening (b : Bracket) : splitGroup n (.opening b :: ts) =
    (splitGroup (n + 1) ts).map fun p => (.opening b :: p.1, p.2) := by
  rw [splitGroup]
  cases splitGroup (n + 1) ts <;> rfl

theorem splitGroup_closing (b : Bracket) : splitGroup (n + 1) (.closing b :: ts) =
    (splitGroup n ts).map fun p => (.closing b :: p.1, p.2) := by
  rw [splitGroup]
  cases splitGroup n ts <;> rfl

/-- A stretch that closes no bracket but those open at the start lies within the group. -/
theorem splitGroup_past {us : List Token} (h : Covered n us) : splitGroup n (us ++ ts) =
    (splitGroup (n + depth us).toNat ts).map fun p => (us ++ p.1, p.2) := by
  induction us generalizing n with
  | nil => simp
  | cons t us ih =>
    have hc := h.tail
    have h1 := h.head
    cases t with
    | opening b =>
      have e : ((n + 1 : Nat) : Int) + depth us = n + (1 + depth us) := by omega
      rw [List.cons_append, splitGroup_opening, ih (by simpa [Token.turn] using hc), e,
        Option.map_map]
      rfl
    | closing b =>
      simp only [Token.turn] at h1 hc
      obtain ⟨k, rfl⟩ : ∃ k, n = k + 1 := ⟨n - 1, by omega⟩
      have e : ((k + 1 : Nat) : Int) + -1 = k := by omega
      have e' : ((k + 1 : Nat) : Int) + (-1 + depth us) = k + depth us := by omega
      rw [List.cons_append, splitGroup_closing, ih (by rwa [e] at hc), depth_cons, Token.turn, e',
        Option.map_map]
      rfl
    | _ =>
      simp only [Token.turn, Int.add_zero] at hc
      rw [List.cons_append, splitGroup_cons_turn rfl, ih hc, Option.map_map]
      simp only [depth_cons, Token.turn, Int.zero_add]
      rfl

/-- A balanced stretch lies within the group. -/
theorem splitGroup_balanced_append {us : List Token} (h : Balanced us) : splitGroup n (us ++ ts) =
    (splitGroup n ts).map fun p => (us ++ p.1, p.2) := by
  rw [splitGroup_past (h.covered.mono (by omega)), h.closed, Int.add_zero, Int.toNat_natCast]

end Step

/-- What `splitGroup` returns: the tokens that close the brackets open at the start, and the
bracket behind them. -/
theorem splitGroup_covered {n : Nat} {ts inside rest : List Token} {closer : Token}
    (h : splitGroup n ts = some (inside, closer, rest)) :
    depth inside = -n ∧ Covered n inside ∧ ∃ b, closer = .closing b := by
  fun_induction splitGroup n ts generalizing inside closer rest with
  | case1 => cases h
  | case2 depth b r inside' closer' rest' hs ih =>
    cases h
    obtain ⟨hd, hc, hb⟩ := ih hs
    refine ⟨?_, .cons (by omega) (by simpa [Token.turn] using hc), hb⟩
    simp only [depth_cons, Token.turn, hd]
    omega
  | case3 => cases h
  | case4 b r =>
    cases h
    exact ⟨rfl, Balanced.nil.covered, b, rfl⟩
  | case5 depth b r inside' closer' rest' hs ih =>
    cases h
    obtain ⟨hd, hc, hb⟩ := ih hs
    have ht : ((depth + 1 : Nat) : Int) + Token.turn (.closing b) = depth := by
      simp only [Token.turn]
      omega
    refine ⟨?_, .cons (by omega) (by rwa [ht]), hb⟩
    simp only [depth_cons, Token.turn, hd]
    omega
  | case6 => cases h
  | case7 depth t r h1 h2 h3 inside' closer' rest' hs ih =>
    cases h
    obtain ⟨hd, hc, hb⟩ := ih hs
    have ht : t.turn = 0 := by
      cases t with
      | opening b => exact absurd rfl (h1 b)
      | closing b =>
        cases depth with
        | zero => exact absurd rfl (h2 b rfl)
        | succ n => exact absurd rfl (h3 n b rfl)
      | _ => rfl
    exact ⟨by simp [ht, hd], .cons (by omega) (by simpa [ht] using hc), hb⟩
  | case8 => cases h

theorem splitGroup_balanced {ts inside rest : List Token} {closer : Token}
    (h : splitGroup 0 ts = some (inside, closer, rest)) :
    Balanced inside ∧ ∃ b, closer = .closing b :=
  have ⟨hd, hc, hb⟩ := splitGroup_covered h
  ⟨⟨by simpa using hd, by simpa using hc⟩, hb⟩

end Code

end Kinetics
