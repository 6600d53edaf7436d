import Kinetics.Markup.Event

/-!
# Kinetics.Proofs.Markup.Nesting

Events in which every element that is opened is closed. How the name of an end tag has to agree with
the name of its start tag is left open; in a well formed document they are the same.
-/

namespace Kinetics

namespace Markup

/-- The text that an event stands for. -/
def Event.characters? : Event → Option (List Char)
  | .text cs => some cs
  | .verbatim cs => some cs
  | .reference name => (resolve? name).map fun c => [c]
  | _ => none

/-- Every opened element is closed after what is nested in it, and every reference resolves. -/
inductive Nested (agrees : List Char → List Char → Prop) : List Event → Prop where
  | nil : Nested agrees []
  | piece {e : Event} {cs : List Char} {es : List Event} :
      e.characters? = some cs → Nested agrees es → Nested agrees (e :: es)
  | single {name attributes : List Char} {es : List Event} :
      Nested agrees es → Nested agrees (.single name attributes :: es)
  | element {name attributes name' : List Char} {inner es : List Event} :
      agrees name name' → Nested agrees inner → Nested agrees es →
      Nested agrees (.opening name attributes :: (inner ++ .closing name' :: es))

/-- Events in which every element is closed, by an end tag of whatever name. -/
abbrev Closed (es : List Event) : Prop :=
  Nested (fun _ _ => True) es

/-- Events with a number of elements open: what stands before, between and after their start tags is
closed. -/
inductive Unclosed : Nat → List Event → Prop where
  | closed {es} : Closed es → Unclosed 0 es
  | inside {depth name attributes es content} : Unclosed depth es → Closed content →
      Unclosed (depth + 1) (es ++ .opening name attributes :: content)

variable {agrees : List Char → List Char → Prop} {es fs rest content : List Event}

theorem Nested.append (h : Nested agrees es) (hf : Nested agrees fs) : Nested agrees (es ++ fs) := by
  induction h with
  | nil => exact hf
  | piece hc _ ih => exact .piece hc ih
  | single _ ih => exact .single ih
  | element hn hi _ _ ih =>
    rw [List.cons_append, List.append_assoc, List.cons_append]
    exact .element hn hi ih

theorem Unclosed.append {depth : Nat} (h : Unclosed depth es) (hc : Closed content) :
    Unclosed depth (es ++ content) := by
  cases h with
  | closed h => exact .closed (h.append hc)
  | inside h h' =>
    rw [List.append_assoc, List.cons_append]
    exact .inside h (h'.append hc)

theorem Unclosed.close {depth : Nat} (h : Unclosed (depth + 1) es) (name : List Char) :
    Unclosed depth (es ++ [Event.closing name]) := by
  cases h with
  | inside h hc =>
    rw [List.append_assoc, List.cons_append]
    exact h.append (.element trivial hc .nil)

theorem nested_eq_self {opened : List (List Char)} (h : (nested opened es).2 = true) :
    nested opened es = (es, true) := by
  induction es generalizing opened with
  | nil => rfl
  | cons e es ih =>
    cases e with
    | opening name attributes =>
      simp only [nested] at h ⊢
      rw [ih h]
    | closing name =>
      cases opened with
      | nil => cases h
      | cons top below =>
        simp only [nested] at h ⊢
        split at h
        · rename_i hname
          rw [if_pos hname, ih h]
        · cases h
    | _ =>
      simp only [nested] at h ⊢
      rw [ih h]

/-- Where end tags close the innermost open element, elements that are closed are closed by their
own name, and what follows is read with the same elements open. -/
theorem Nested.same_names (h : Nested agrees es) {opened : List (List Char)}
    (hn : (nested opened (es ++ rest)).2 = true) :
    Nested Eq es ∧ (nested opened rest).2 = true := by
  induction h generalizing opened rest with
  | nil => exact ⟨.nil, hn⟩
  | @piece e cs es hc _ ih =>
    have hrest : (nested opened (es ++ rest)).2 = true := by
      cases e with
      | text | verbatim | reference => exact hn
      | _ => cases hc
    exact ⟨.piece hc (ih hrest).1, (ih hrest).2⟩
  | single _ ih => exact ⟨.single (ih hn).1, (ih hn).2⟩
  | @element name attributes name' inner es _ _ _ ihi ih =>
    rw [List.cons_append, List.append_assoc, List.cons_append] at hn
    have hopened : (nested (name :: opened) (inner ++ .closing name' :: (es ++ rest))).2 = true := hn
    obtain ⟨hinner, hclosing⟩ := ihi hopened
    simp only [nested] at hclosing
    split at hclosing
    · rename_i hname
      obtain ⟨hes, hrest⟩ := ih hclosing
      exact ⟨.element hname hinner hes, hrest⟩
    · cases hclosing

/-- In a well formed document every element that is closed is closed by its own name. -/
theorem Closed.of_events {text : List Char} (h : Closed (events text).1)
    (hwell : (events text).2 = true) : Nested Eq (events text).1 := by
  simp only [events, Bool.and_eq_true] at h hwell ⊢
  rw [nested_eq_self hwell.2] at h ⊢
  have hall : (nested [] ((scan (withoutMark text)).1 ++ [])).2 = true := by
    rw [List.append_nil]
    exact hwell.2
  exact (h.same_names hall).1

end Markup

end Kinetics
