import Kinetics.Proofs.Code.Normal

/-!
# Kinetics.Proofs.Code.TopLevel

Assignment operators outside all brackets. A line with one assigns something, and a line that is
assigned to a name has two targets then. The passes over parentheses neither bring such an operator
to light nor hide one (`assigns_normal`): what they take parentheses off has no operator outside
brackets of its own.
-/

namespace Kinetics

namespace Code

open Relation (ReflTransGen)

/-- Whether an assignment operator stands outside all brackets, with so many brackets open at the
start. -/
def assigns : Nat → List Token → Bool
  | _, [] => false
  | n, .opening _ :: r => assigns (n + 1) r
  | n, .closing _ :: r => assigns (n - 1) r
  | n, .operator s :: r => (n == 0 && s == ['=']) || assigns n r
  | n, _ :: r => assigns n r

/-- How many brackets are open behind tokens; one too many that is closed does not count. -/
def openAfter : Nat → List Token → Nat
  | n, [] => n
  | n, .opening _ :: r => openAfter (n + 1) r
  | n, .closing _ :: r => openAfter (n - 1) r
  | n, _ :: r => openAfter n r

variable {n : Nat} {t : Token} {ts us : List Token}

section Append

theorem assigns_append (n : Nat) (ts us : List Token) :
    assigns n (ts ++ us) = (assigns n ts || assigns (openAfter n ts) us) := by
  induction ts generalizing n with
  | nil => rfl
  | cons t ts ih =>
    cases t with
    | opening b => exact ih (n + 1)
    | closing b => exact ih (n - 1)
    | operator s => simp only [List.cons_append, assigns, openAfter, ih, Bool.or_assoc]
    | _ => exact ih n

end Append

section Covered

theorem openAfter_covered (h : Covered n ts) : openAfter n ts = (n + depth ts).toNat := by
  induction ts generalizing n with
  | nil => simp [openAfter]
  | cons t ts ih =>
    have hhead := h.head
    have htail := h.tail
    cases t with
    | opening b =>
      rw [openAfter, ih (by simpa [Token.turn] using htail), depth_cons, Token.turn]
      congr 1
      omega
    | closing b =>
      simp only [Token.turn] at hhead htail
      have hcast : ((n - 1 : Nat) : Int) = n + -1 := by omega
      rw [openAfter, ih (by rw [hcast]; exact htail), hcast, depth_cons, Token.turn]
      congr 1
      omega
    | _ =>
      simp only [Token.turn, Int.add_zero] at htail
      simp [openAfter, ih htail, Token.turn]

theorem openAfter_balanced (h : Balanced ts) (n : Nat) : openAfter n ts = n := by
  rw [openAfter_covered (h.covered.mono (by omega)), h.closed]
  simp

/-- Within one bracket more than it closes, a line does not assign. -/
theorem assigns_covered (h : Covered n ts) : assigns (n + 1) ts = false := by
  induction ts generalizing n with
  | nil => rfl
  | cons t ts ih =>
    have hhead := h.head
    have htail := h.tail
    cases t with
    | opening b => exact ih (by simpa [Token.turn] using htail)
    | closing b =>
      simp only [Token.turn] at hhead htail
      have hn : n + 1 - 1 = n - 1 + 1 := by omega
      have hcast : ((n - 1 : Nat) : Int) = n + -1 := by omega
      rw [assigns, hn]
      exact ih (by rw [hcast]; exact htail)
    | operator s =>
      simp only [Token.turn, Int.add_zero] at htail
      simp [assigns, ih htail]
    | _ =>
      simp only [Token.turn, Int.add_zero] at htail
      exact ih htail

theorem assigns_tight (h : hasLoose n ts = false) : assigns n ts = false := by
  induction ts generalizing n with
  | nil => rfl
  | cons t ts ih =>
    cases t with
    | opening b => exact ih h
    | closing b => exact ih h
    | operator s =>
      simp only [hasLoose, Bool.or_eq_false_iff] at h
      simp [assigns, h.1, ih h.2]
    | comma =>
      simp only [hasLoose, Bool.or_eq_false_iff] at h
      exact ih h.2
    | colon =>
      simp only [hasLoose, Bool.or_eq_false_iff] at h
      exact ih h.2
    | comment s =>
      simp only [hasLoose, Bool.or_eq_false_iff] at h
      exact ih h.2
    | _ => exact ih h

theorem assigns_no_operator (h : ∀ t ∈ ts, t.isOperator = false) (n : Nat) :
    assigns n ts = false := by
  induction ts generalizing n with
  | nil => rfl
  | cons t ts ih =>
    obtain ⟨ht, hts⟩ := List.forall_mem_cons.1 h
    cases t with
    | operator s => cases ht
    | opening b => exact ih hts (n + 1)
    | closing b => exact ih hts (n - 1)
    | _ => exact ih hts n

end Covered

section Normal

/-- A pair of parentheses that only groups neither hides an assignment nor shows one. -/
theorem assigns_unwraps (h : Unwraps ts us) (n : Nat) : assigns n us = assigns n ts := by
  obtain ⟨c, -, hb, hl, -⟩ := h
  rename_i before inside after
  generalize hm : openAfter n before = m
  have hinside : assigns m inside = false := by
    cases m with
    | zero => exact assigns_tight hl
    | succ m => exact assigns_covered (hb.covered.mono (by omega))
  have hwithin : assigns (m + 1) inside = false := assigns_covered (hb.covered.mono (by omega))
  simp only [assigns_append, hm, assigns, openAfter_balanced hb, hinside, hwithin,
    Bool.false_or, Nat.add_sub_cancel]

theorem assigns_normal (ts : List Token) (n : Nat) :
    assigns n (strip (collapse none ts)) = assigns n ts := by
  have h := normal_unwraps ts
  generalize strip (collapse none ts) = us at h
  induction h with
  | refl => rfl
  | tail _ h ih => rw [assigns_unwraps h, ih]

end Normal

end Code

end Kinetics
