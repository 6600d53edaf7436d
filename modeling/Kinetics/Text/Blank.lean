import Kinetics.Text.Class

/-!
# Kinetics.Text.Blank

The characters with the property White_Space, and what trimming takes off a text. Trimming loses
blanks only, so a text is its indentation, its body and its trailing blanks in that order.
-/

namespace Kinetics

namespace Text

/-- Characters with the property White_Space. -/
def blankRanges : List (Nat × Nat) := [
  (0x9, 0xD), (0x20, 0x20), (0x85, 0x85), (0xA0, 0xA0), (0x1680, 0x1680), (0x2000, 0x200A),
  (0x2028, 0x2029), (0x202F, 0x202F), (0x205F, 0x205F), (0x3000, 0x3000)]

def isBlank (c : Char) : Bool :=
  inRanges blankRanges c

def trimStart (cs : List Char) : List Char :=
  cs.dropWhile isBlank

/-- The leading blanks of a text. -/
def indentation (cs : List Char) : List Char :=
  cs.takeWhile isBlank

def trimEnd (cs : List Char) : List Char :=
  (cs.reverse.dropWhile isBlank).reverse

def trim (cs : List Char) : List Char :=
  trimEnd (trimStart cs)

def allBlank (cs : List Char) : Bool :=
  cs.all isBlank

theorem indentation_append_trimStart (cs : List Char) :
    indentation cs ++ trimStart cs = cs := by
  simp [indentation, trimStart]

theorem trimEnd_append_blanks (cs : List Char) :
    ∃ blanks, (∀ c ∈ blanks, isBlank c = true) ∧ trimEnd cs ++ blanks = cs := by
  refine ⟨(cs.reverse.takeWhile isBlank).reverse, ?_, ?_⟩
  · intro c h
    exact List.all_eq_true.1 List.all_takeWhile c (List.mem_reverse.1 h)
  · rw [trimEnd, ← List.reverse_append, List.takeWhile_append_dropWhile, List.reverse_reverse]

/-- A name without the blanks around it. -/
def trimString (s : String) : String :=
  String.ofList (trim s.toList)

end Text

end Kinetics
