import Kinetics.Text.IdentifierTable

/-!
# Kinetics.Text.Identifier

Which characters start and continue an identifier, by the Unicode properties XID_Start and
XID_Continue. The low line continues an identifier but does not start one here; a reader that
lets it start a name says so itself.
-/

namespace Kinetics

namespace Text

def isIdentifierStart (c : Char) : Bool :=
  inRanges startRanges c

def isIdentifierContinue (c : Char) : Bool :=
  inRanges startRanges c || inRanges continueRanges c

theorem isIdentifierContinue_of_start {c : Char} (h : isIdentifierStart c = true) :
    isIdentifierContinue c = true := by
  simp [isIdentifierContinue, show inRanges startRanges c = true from h]

end Text

end Kinetics
