/-!
# Kinetics.Text.Class

Classes of characters given by a table of inclusive code point ranges, in ascending order. The
tables of the identifier, digit and blank classes are data of the Unicode standard, version 16.
-/

namespace Kinetics

namespace Text

/-- Whether a character lies in one of the ranges. -/
def inRanges (ranges : List (Nat × Nat)) (c : Char) : Bool :=
  ranges.any fun r => r.1 ≤ c.toNat && c.toNat ≤ r.2

theorem inRanges_iff {ranges : List (Nat × Nat)} {c : Char} :
    inRanges ranges c = true ↔ ∃ r ∈ ranges, r.1 ≤ c.toNat ∧ c.toNat ≤ r.2 := by
  simp [inRanges]

end Text

end Kinetics
