import Kinetics.Proofs.Code.Count
import Kinetics.Proofs.Formula.Variant
import Kinetics.Proofs.Python.Line

/-!
# Kinetics.Proofs.Formula.Star

Signs of multiplication, told by counting. In code such a sign is a star and in the name of a
compound symbol a low line, and neither gets lost in normal form (`stars_code`). So two formulas
that differ in a part of them have different codes if the parts differ in their stars
(`Excerpt.Differs.heavier`).
-/

namespace Kinetics

namespace Formula

open Code Python

section Count

/-- What a sign of multiplication is written as. -/
def isStar (c : Char) : Bool :=
  c == '*' || c == '_'

def stars (s : String) : Nat :=
  s.toList.countP isStar

/-- The stars in a line of fragments. -/
def starsIn (fs : List Fragment) : Nat :=
  (fs.flatMap fun f => (f.render id).toList).countP isStar

theorem unstopped_isStar : Unstopped isStar := by
  intro c h
  simp only [isStar, Bool.or_eq_true, beq_iff_eq] at h
  rcases h with rfl | rfl <;> decide

theorem stars_append (s t : String) : stars (s ++ t) = stars s + stars t := by
  simp [stars]

theorem starsIn_singleton (f : Fragment) : starsIn [f] = stars (f.render id) := by
  rw [starsIn, List.flatMap_singleton, stars]

theorem starsIn_append (fs gs : List Fragment) : starsIn (fs ++ gs) = starsIn fs + starsIn gs := by
  simp [starsIn]

theorem countP_intercalate (css : List (List Char)) :
    (List.intercalate [' '] css).countP isStar = css.flatten.countP isStar := by
  induction css with
  | nil => rfl
  | cons cs css ih =>
    cases css with
    | nil => simp [List.intercalate]
    | cons ds css =>
      have hblank : isStar ' ' = false := unstopped_isStar.stop (by decide)
      rw [intercalate_cons_cons, List.countP_append, List.countP_cons_of_neg (by simp [hblank]), ih,
        ← List.countP_append, List.flatten_cons (l := cs)]

/-- The code of a formula has the stars of its fragments. -/
theorem stars_code (e : Expression) : stars e.code = starsIn e.fragments := by
  have hline : (line e).countP isStar = starsIn e.fragments := by
    rw [line, countP_intercalate, ← List.flatMap_def]
    rfl
  have hcount := unstopped_isStar.countP_normalize (line e)
  rw [stars, toList_code, ← hline, ← hcount]
  split
  · rename_i he
    rw [List.isEmpty_iff.1 he]
    rfl
  · rfl

end Count

namespace Node

/-- The same fault, or two codes of which the first has `k` stars more. -/
inductive Heavier (k : Nat) : Except Fault Expression → Except Fault Expression → Prop where
  | fault (f : Fault) : Heavier k (.error f) (.error f)
  | code {e e' : Expression} : stars e.code = stars e'.code + k → Heavier k (.ok e) (.ok e')

end Node

/-- The stars that a part has more are in the code of every formula around it. -/
theorem Excerpt.Differs.heavier {suffix : String} {a b : Excerpt} {k : Nat}
    {r r' : Except Fault Expression} (h : a.Differs suffix b r r')
    (hcode : ∀ x y, a.code = .ok x → b.code = .ok y → starsIn x = starsIn y + k)
    (hname : stars a.name = stars b.name + k) : Node.Heavier k r r' := by
  cases h with
  | fault f => exact .fault f
  | around ahead behind skipped hxy =>
    refine .code ?_
    simp only [stars_code, starsIn_append]
    cases hxy with
    | code hx hy =>
      have := hcode _ _ hx hy
      omega
    | name start stop =>
      simp only [starsIn_singleton, Fragment.render, id, stars_append]
      omega

end Formula

end Kinetics
