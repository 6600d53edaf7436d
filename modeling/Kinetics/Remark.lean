import Kinetics.Parameter.Index

/-!
# Kinetics.Remark

What a user should hear about a computation that succeeds.
-/

namespace Kinetics

inductive Remark where
  /-- an element of a formula is unknown and was left out -/
  | skippedElement (tag : String)
  /-- no law belongs to a selected phenomenon -/
  | unmatchedPhenomenon (name : String)
  /-- a known value is for nothing that the model reads -/
  | ignoredValue (index : ParameterIndex)
  deriving DecidableEq

namespace Remark

def text : Remark → String
  | skippedElement tag => s!"skipping unsupported MathML element <{tag}>"
  | unmatchedPhenomenon name => s!"no law describes selected phenomenon '{name}'"
  | ignoredValue index => "ignoring known value for " ++ index.text ++ ": not a model input"

end Remark

end Kinetics
