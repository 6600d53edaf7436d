import Kinetics.Parameter.Index
import Kinetics.Space.Dimension
import Kinetics.Text.Lines

/-!
# Kinetics.Fault

Everything that can go wrong, as causes, and the report a cause is shown by. A report has a coarse
kind, on which callers branch, a code, and details where there is more to say. Only reports are
worded; every function of the library fails with a cause.
-/

namespace Kinetics

inductive FaultKind where
  | shape
  | configuration
  | numerical
  | importing
  deriving DecidableEq

inductive FaultCode where
  | noError
  | malformedMarkup
  | unknownNodeShape
  | badCallFormArgs
  | emptyFormula
  | unknownVariable
  | unknownLaw
  | unknownSymbol
  | duplicateSymbol
  | conflictingAssociatedLaw
  | conflictingLawTarget
  | ambiguousLaw
  | circularDependency
  | missingValue
  | badReaction
  | unknownSpecies
  | unsupportedDimensions
  | unsupportedAccumulation
  | unsupportedOperation
  | numericalFailure
  | json
  | io
  deriving DecidableEq

namespace FaultKind

def word : FaultKind → String
  | .shape => "ShapeError"
  | .configuration => "ConfigurationError"
  | .numerical => "NumericalError"
  | .importing => "ImportError"

end FaultKind

namespace FaultCode

def word : FaultCode → String
  | .noError => "no_error"
  | .malformedMarkup => "malformed_markup"
  | .unknownNodeShape => "unknown_node_shape"
  | .badCallFormArgs => "bad_call_form_args"
  | .emptyFormula => "empty_formula"
  | .unknownVariable => "unknown_variable"
  | .unknownLaw => "unknown_law"
  | .unknownSymbol => "unknown_symbol"
  | .duplicateSymbol => "duplicate_symbol"
  | .conflictingAssociatedLaw => "conflicting_associated_law"
  | .conflictingLawTarget => "conflicting_law_target"
  | .ambiguousLaw => "ambiguous_law"
  | .circularDependency => "circular_dependency"
  | .missingValue => "missing_value"
  | .badReaction => "bad_reaction"
  | .unknownSpecies => "unknown_species"
  | .unsupportedDimensions => "unsupported_dimensions"
  | .unsupportedAccumulation => "unsupported_accumulation"
  | .unsupportedOperation => "unsupported_operation"
  | .numericalFailure => "numerical_failure"
  | .json => "json"
  | .io => "io"

end FaultCode

structure Report where
  kind : FaultKind
  code : FaultCode
  details : Option String
  deriving DecidableEq

namespace Report

/-- The kind, and in braces the code with the details if there are any. -/
def text (r : Report) : String :=
  match r.details with
  | some details => r.kind.word ++ "\x7b" ++ r.code.word ++ ": " ++ details ++ "\x7d"
  | none => r.kind.word ++ "\x7b" ++ r.code.word ++ "\x7d"

def isShape (r : Report) : Bool :=
  r.kind == .shape

def isConfiguration (r : Report) : Bool :=
  r.kind == .configuration

end Report

inductive Fault where
  /-- the document is no well-formed markup -/
  | illFormedMarkup
  | elementsInLeaf (tag : String)
  | strayText (text tag : String)
  | textOutside (text : String)
  | closesNothing (tag : String)
  | closedBy (tag other : String)
  | neverClosed (tag : String)
  | notTwoChildren (tag : String)
  | noRoot
  | unclosedIndex
  | argumentCount (keyword : String) (expected found : Nat)
  | noOperand (keyword : String)
  /-- the document is no JSON text of the form asked for -/
  | badDocument
  | inputOutput (what : String)
  | unknownVariable (name : String)
  | unknownLaw (name : String)
  | undeclaredMember (group name species : String)
  | undeclaredReaction (reaction : String)
  | unreadableTerm (term reaction : String)
  | unreadableSides (reaction : String)
  | undeclaredParticipant (reaction species : String)
  | noLayout (dimensions : List Dimension)
  | noAccumulation (name : String)
  | severalAccumulations (name : String)
  | nothingIntegrated (law : String)
  | severalJointLaws
  | claimedTwice (law first second : String)
  | severalAssociated (phase : Phase) (laws : List String)
  | definesNothing (law : String)
  | foreignOverride (law name : String)
  | severalForReaction (name : String) (reaction : Nat)
  | reactionsDisagree (name : String)
  | severalActive (name : String)
  | severalDefinitional (name : String) (laws : List String)
  | ownDependency (name : String)
  | mutualDependency (name other : String)
  | ownFormula (law name : String)
  | noValue (index : ParameterIndex)
  | noConstantValue (name : String)
  | symbolTaken (name symbol : String)
  | notInModel (symbol law : String)
  | dynamicBoundaryValues
  /-- a name that an earlier step should have listed; no input leads here -/
  | unlisted (name : String)
  deriving DecidableEq

namespace Fault

open Text

/-- The report of a cause. -/
def report : Fault → Report
  | illFormedMarkup => ⟨.shape, .malformedMarkup, none⟩
  | elementsInLeaf tag => ⟨.shape, .malformedMarkup, some s!"<{tag}> must only contain text"⟩
  | strayText text tag => ⟨.shape, .malformedMarkup, some s!"stray text '{text}' inside <{tag}>"⟩
  | textOutside text => ⟨.shape, .malformedMarkup, some s!"text '{text}' outside any element"⟩
  | closesNothing tag => ⟨.shape, .malformedMarkup, some s!"unexpected </{tag}>"⟩
  | closedBy tag other => ⟨.shape, .malformedMarkup, some s!"<{tag}> closed by </{other}>"⟩
  | neverClosed tag => ⟨.shape, .malformedMarkup, some s!"<{tag}> is never closed"⟩
  | notTwoChildren tag => ⟨.shape, .unknownNodeShape, some s!"<{tag}> needs exactly 2 children"⟩
  | noRoot => ⟨.shape, .emptyFormula, some "no root element"⟩
  | unclosedIndex =>
    ⟨.shape, .badCallFormArgs, some "index construction needs content and a closing ']'"⟩
  | argumentCount keyword expected found =>
    ⟨.shape, .badCallFormArgs, some s!"'{keyword}' takes {expected} argument(s), found {found}"⟩
  | noOperand keyword => ⟨.shape, .badCallFormArgs, some s!"'{keyword}' needs an operand"⟩
  | badDocument => ⟨.importing, .json, none⟩
  | inputOutput what => ⟨.importing, .io, some what⟩
  | unknownVariable name => ⟨.configuration, .unknownVariable, some name⟩
  | unknownLaw name => ⟨.configuration, .unknownLaw, some name⟩
  | undeclaredMember group name species =>
    ⟨.configuration, .unknownSpecies, some s!"{group} '{name}' references species '{species}'"⟩
  | undeclaredReaction reaction =>
    ⟨.configuration, .badReaction,
      some s!"phenomena selected for undeclared reaction '{reaction}'"⟩
  | unreadableTerm term reaction =>
    ⟨.configuration, .badReaction, some s!"can't read term '{term}' of reaction '{reaction}'"⟩
  | unreadableSides reaction =>
    ⟨.configuration, .badReaction, some s!"expected 'reactants > products', got '{reaction}'"⟩
  | undeclaredParticipant reaction species =>
    ⟨.configuration, .unknownSpecies,
      some s!"reaction '{reaction}' uses undeclared species '{species}'"⟩
  | noLayout dimensions =>
    ⟨.configuration, .unsupportedDimensions,
      some ("no layout for dimensions \x7b" ++ joinWith ", " (dimensions.map Dimension.word) ++
        "\x7d")⟩
  | noAccumulation name =>
    ⟨.configuration, .unsupportedAccumulation, some s!"no law for accumulation '{name}'"⟩
  | severalAccumulations name =>
    ⟨.configuration, .unsupportedAccumulation, some s!"several laws for accumulation '{name}'"⟩
  | nothingIntegrated law =>
    ⟨.configuration, .unsupportedAccumulation,
      some s!"accumulation law '{law}' does not declare what it integrates"⟩
  | severalJointLaws =>
    ⟨.configuration, .unsupportedAccumulation,
      some "several flow pattern laws integrate with accumulation"⟩
  | claimedTwice law first second =>
    ⟨.configuration, .conflictingLawTarget,
      some s!"law '{law}' is claimed by both '{first}' and '{second}'"⟩
  | severalAssociated phase laws =>
    ⟨.configuration, .conflictingAssociatedLaw,
      some (phase.word ++ " phase laws " ++ joinWith ", " laws ++ " are all associated")⟩
  | definesNothing law =>
    ⟨.configuration, .unknownVariable, some s!"active law '{law}' defines no variable"⟩
  | foreignOverride law name =>
    ⟨.configuration, .unknownLaw, some s!"override '{law}' is not a law of '{name}'"⟩
  | severalForReaction name reaction =>
    ⟨.configuration, .ambiguousLaw,
      some s!"several laws define '{name}' for reaction {reaction}"⟩
  | reactionsDisagree name =>
    ⟨.configuration, .ambiguousLaw, some s!"reactions disagree on the law defining '{name}'"⟩
  | severalActive name =>
    ⟨.configuration, .ambiguousLaw, some s!"several active laws define '{name}'"⟩
  | severalDefinitional name laws =>
    ⟨.configuration, .ambiguousLaw,
      some ("'" ++ name ++ "' has definitional laws " ++ joinWith ", " laws ++
        " and no override")⟩
  | ownDependency name =>
    ⟨.configuration, .circularDependency, some s!"'{name}' is defined in terms of itself"⟩
  | mutualDependency name other =>
    ⟨.configuration, .circularDependency,
      some s!"'{name}' and '{other}' depend on each other"⟩
  | ownFormula law name =>
    ⟨.configuration, .circularDependency,
      some s!"law '{law}' defines '{name}' in terms of itself"⟩
  | noValue index =>
    ⟨.configuration, .missingValue, some ("no value for " ++ index.text)⟩
  | noConstantValue name =>
    ⟨.configuration, .missingValue, some s!"constant '{name}' has no value"⟩
  | symbolTaken name symbol =>
    ⟨.configuration, .duplicateSymbol,
      some s!"'{name}' is written '{symbol}', which is already taken"⟩
  | notInModel symbol law =>
    ⟨.configuration, .unknownSymbol, some s!"'{symbol}' in law '{law}' is not a model variable"⟩
  | dynamicBoundaryValues =>
    ⟨.configuration, .unsupportedOperation,
      some "dynamic operation can't be combined with a boundary value flow pattern"⟩
  | unlisted name => ⟨.configuration, .noError, some name⟩

end Fault

end Kinetics
