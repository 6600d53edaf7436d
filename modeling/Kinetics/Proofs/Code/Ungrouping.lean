import Kinetics.Proofs.Code.Regrouping

/-!
# Kinetics.Proofs.Code.Ungrouping

Which tokens the passes over redundant parentheses take away. `Takes` is a step of a pass, told by
the tests that the pass makes on the tokens as they are by then. `Omits` tells what is gone in the
end by the row that the passes started from (`normal_omits`): pairs of that row, each of a
parenthesis and the bracket that closes it there, for a pair that goes leaves all other brackets
matched as they were.
-/

namespace Kinetics

namespace Code

open Relation (ReflTransGen)

/-- A parenthesis that groups where it stands goes, and with it the bracket that closes it. -/
inductive Takes : List Token → List Token → Prop where
  | pair {before ts inside after : List Token} {closer : Token} :
      opensGroup before.getLast? (.opening .round) = true →
      splitGroup 0 ts = some (inside, closer, after) →
      Takes (before ++ .opening .round :: ts) (before ++ (inside ++ after))

/-- Of a row pairs are left out, each of a parenthesis and the bracket that closes it in the row.
The parenthesis groups in the row, or stands right behind a bracket that is left out. The token in
front of the row is given if there is one that stays. -/
inductive Omits : Option Token → List Token → List Token → Prop where
  | nil {front : Option Token} : Omits front [] []
  | keep {front : Option Token} {t : Token} {ts us : List Token} :
      Omits (some t) ts us → Omits front (t :: ts) (t :: us)
  | pair {front : Option Token} {ts inside after us vs : List Token} {closer : Token} :
      opensGroup front (.opening .round) = true →
      splitGroup 0 ts = some (inside, closer, after) →
      Omits (some (.opening .round)) inside us → Omits none after vs →
      Omits front (.opening .round :: ts) (us ++ vs)

section Omission

variable {front next : Option Token} {t : Token} {ts us vs xs ys before inside after : List Token}

theorem Omits.refl (front : Option Token) (ts : List Token) : Omits front ts ts := by
  induction ts generalizing front with
  | nil => exact .nil
  | cons t ts ih => exact .keep (ih (some t))

/-- In front of a row that may start with a group any other token may stand that lets it group. -/
theorem Omits.regroup (h : Omits front ts us) (hg : opensGroup next (.opening .round) = true) :
    Omits next ts us := by
  cases h with
  | nil => exact .nil
  | keep h => exact .keep h
  | pair _ hs hi ha => exact .pair hg hs hi ha

theorem splitGroup_closed (h : Balanced inside) (c : Bracket) (after : List Token) :
    splitGroup 0 (inside ++ .closing c :: after) = some (inside, .closing c, after) := by
  rw [splitGroup_balanced_append h]
  simp [splitGroup]

/-- Every bracket that is opened is closed; others may be closed besides. -/
def Closes (ts : List Token) : Prop :=
  ∀ us vs, us ++ vs = ts → depth vs ≤ 0

theorem Balanced.closes (h : Balanced ts) : Closes ts := by
  intro us vs hu
  have hc := h.covered us vs hu
  have hd := h.closed
  rw [← hu, depth_append] at hd
  omega

theorem Closes.right (xs : List Token) (h : Closes (xs ++ ys)) : Closes ys :=
  fun us vs hu => h (xs ++ us) vs (by rw [List.append_assoc, hu])

/-- A pair that is left out lies on one side of the end of a stretch that closes its brackets. -/
theorem Omits.split (h : Omits front (xs ++ ys) vs) (hx : Closes xs) :
    ∃ us ws next, vs = us ++ ws ∧ Omits front xs us ∧ Omits next ys ws := by
  induction hn : xs.length using Nat.strongRecOn generalizing front xs vs with
  | ind n ih =>
    cases xs with
    | nil => exact ⟨[], vs, front, rfl, .nil, h⟩
    | cons x xs =>
      rw [List.length_cons] at hn
      rw [List.cons_append] at h
      cases h with
      | keep h =>
        obtain ⟨us, ws, next, rfl, hus, hws⟩ := ih xs.length (by omega) h (hx.right [x]) rfl
        exact ⟨x :: us, ws, next, rfl, .keep hus, hws⟩
      | @pair _ _ inside after us vs closer hg hs hi ha =>
        obtain ⟨hb, c, rfl⟩ := splitGroup_balanced hs
        rcases List.append_eq_append_iff.1 (splitGroup_append hs) with ⟨as, rfl, hc⟩ | ⟨bs, rfl, -⟩
        · cases as with
          | nil =>
            have hdepth := hx [] _ rfl
            simp [Token.turn, hb.closed] at hdepth
          | cons a as =>
            simp only [List.cons_append, List.cons.injEq] at hc
            obtain ⟨rfl, rfl⟩ := hc
            have hrest : Closes as := (hx.right (.opening .round :: inside)).right [.closing c]
            simp only [List.length_append, List.length_cons] at hn
            obtain ⟨us', ws, next, rfl, hus, hws⟩ := ih as.length (by omega) ha hrest rfl
            exact ⟨us ++ us', ws, next, (List.append_assoc us us' ws).symm,
              .pair hg (splitGroup_closed hb c as) hi hus, hws⟩
        · -- the bracket would be closed behind the stretch, in which it is open
          have hdepth := hx [] _ rfl
          have hopen := hb.covered xs bs rfl
          simp only [depth_cons, Token.turn] at hdepth
          omega

/-- A pair around a balanced stretch lies within the group that the stretch lies within. -/
theorem splitGroup_around (c : Bracket) (hb : Covered 0 before) (hi : Balanced inside)
    {within rest : List Token} {closer : Token}
    (h : splitGroup 0 (before ++ (inside ++ after)) = some (within, closer, rest)) :
    ∃ tail, within = before ++ (inside ++ tail) ∧
      splitGroup 0 (before ++ .opening .round :: (inside ++ .closing c :: after)) =
        some (before ++ .opening .round :: (inside ++ .closing c :: tail), closer, rest) := by
  have hwrap : Token.opening .round :: (inside ++ .closing c :: after) =
      (.opening .round :: (inside ++ [Token.closing c])) ++ after := by simp
  rw [splitGroup_past (n := 0) hb, splitGroup_balanced_append hi, Option.map_map] at h
  obtain ⟨⟨tail, p⟩, ht, hp⟩ := Option.map_eq_some_iff.1 h
  cases hp
  refine ⟨tail, rfl, ?_⟩
  rw [hwrap, splitGroup_past (n := 0) hb, splitGroup_balanced_append (hi.wrap .round c), ht]
  simp

/-- What is left out of a row without some pair is left out of the row, and so is that pair. -/
theorem Omits.wrap (c : Bracket) (hi : Balanced inside)
    (hg : opensGroup (before.getLast?.or front) (.opening .round) = true)
    (h : Omits front (before ++ (inside ++ after)) vs) :
    Omits front (before ++ .opening .round :: (inside ++ .closing c :: after)) vs := by
  induction hn : before.length using Nat.strongRecOn generalizing front before after vs with
  | ind n ih =>
    cases before with
    | nil =>
      rw [List.nil_append] at h
      obtain ⟨us, ws, next, rfl, hus, hws⟩ := h.split hi.closes
      exact .pair hg (splitGroup_closed hi c after) (hus.regroup rfl) (hws.regroup rfl)
    | cons x before =>
      rw [List.length_cons] at hn
      have hlast : (x :: before).getLast?.or front = before.getLast?.or (some x) := by
        cases before with
        | nil => rfl
        | cons y before => rw [List.getLast?_cons_cons]; simp [List.getLast?_cons]
      rw [hlast] at hg
      rw [List.cons_append] at h ⊢
      cases h with
      | keep h => exact .keep (ih before.length (by omega) hg h rfl)
      | @pair _ _ inside' after' us vs closer hx hs hi' ha =>
        obtain ⟨hb, d, rfl⟩ := splitGroup_balanced hs
        have within (hcovered : Covered 0 before) : Omits front
            (.opening .round :: (before ++ .opening .round :: (inside ++ .closing c :: after)))
              (us ++ vs) := by
          obtain ⟨tail, rfl, hwrap⟩ := splitGroup_around c hcovered hi hs
          exact .pair hx hwrap (ih before.length (by omega) hg hi' rfl) ha
        rcases List.append_eq_append_iff.1 (splitGroup_append hs) with ⟨as, rfl, hc⟩ | ⟨bs, rfl, -⟩
        · cases as with
          | nil => exact within (by simpa using hb.covered)
          | cons a as =>
            simp only [List.cons_append, List.cons.injEq] at hc
            obtain ⟨rfl, rfl⟩ := hc
            have hnext : opensGroup (as.getLast?.or none) (.opening .round) = true := by
              cases as with
              | nil => rfl
              | cons y as => simpa [List.getLast?_append, List.getLast?_cons] using hg
            simp only [List.length_append, List.length_cons] at hn
            have hrest := ih as.length (by omega) hnext ha rfl
            rw [List.append_assoc, List.cons_append]
            exact .pair hx (splitGroup_closed hb d _) hi' hrest
        · exact within hb.covered.left

end Omission

section Normal

variable {front : Option Token} {ts us vs : List Token}

theorem opensGroup_of_groups {before : List Token} (h : Groups before) :
    opensGroup before.getLast? (.opening .round) = true := by
  cases hb : before.getLast? with
  | none => rfl
  | some t => simp [opensGroup, h t hb]

theorem Unwraps.takes (h : Unwraps ts us) : Takes ts us := by
  obtain ⟨c, hg, hi, -, -⟩ := h
  exact .pair (opensGroup_of_groups hg) (splitGroup_closed hi c _)

theorem Unwraps.omits (h : Unwraps ts us) (hv : Omits none us vs) : Omits none ts vs := by
  obtain ⟨c, hg, hi, -, -⟩ := h
  exact hv.wrap c hi (by simpa using opensGroup_of_groups hg)

theorem normal_takes (ts : List Token) : ReflTransGen Takes ts (strip (collapse none ts)) :=
  (normal_unwraps ts).lift id fun _ _ h => h.takes

theorem normal_omits (ts : List Token) : Omits none ts (strip (collapse none ts)) := by
  have h := normal_unwraps ts
  generalize strip (collapse none ts) = us at h
  induction h using ReflTransGen.head_induction_on with
  | refl => exact .refl none us
  | head h _ ih => exact h.omits ih

end Normal

end Code

end Kinetics
