/-!
# Kinetics.CommandLine.Arguments

The options and operands of a command. An option has its value behind it, as in `--name value` and
`-n value`, or attached, as in `--name=value`, `-nvalue` and `-n=value`. Flags take none, and
several letters can share a hyphen. No option is given twice, and whatever follows `--` is an
operand.
-/

namespace Kinetics

namespace CommandLine

inductive OptionKind where
  | flag
  | text
  /-- a text that is not empty -/
  | path
  deriving DecidableEq

structure OptionForm where
  name : String
  letter : Option Char
  kind : OptionKind
  deriving DecidableEq

structure Arguments where
  /-- the options given, by name, with their values -/
  options : List (String × String)
  operands : List String
  deriving DecidableEq

namespace Arguments

def value? (a : Arguments) (name : String) : Option String :=
  a.options.lookup name

def has (a : Arguments) (name : String) : Bool :=
  (a.value? name).isSome

end Arguments

/-- A lone hyphen is no option but an operand or a value. -/
def looksLikeOption (arg : String) : Bool :=
  arg.startsWith "-" && arg != "-"

/-- What has been read of a list of arguments. -/
structure Progress where
  given : Arguments
  /-- the option whose value comes next -/
  pending : Option OptionForm
  operandsOnly : Bool

namespace Progress

def start : Progress :=
  ⟨⟨[], []⟩, none, false⟩

/-- Gives an option a value. -/
def give (p : Progress) (o : OptionForm) (value : String) : Option Progress :=
  if p.given.has o.name || o.kind == .path && value.isEmpty then none
  else
    some
      { p with
        given := { p.given with options := p.given.options ++ [(o.name, value)] }
        pending := none }

/-- Reads an option by its name, with the value attached to it if there is one. -/
def readName (forms : List OptionForm) (p : Progress) (name : String) (value : Option String) :
    Option Progress :=
  match forms.find? fun o => o.name == name with
  | none => none
  | some o =>
    match o.kind, value with
    | .flag, none => p.give o ""
    | .flag, some _ => none
    | _, none => some { p with pending := some o }
    | _, some v => p.give o v

/-- Reads letters that share a hyphen; the first that takes a value has the others for it. -/
def readLetters (forms : List OptionForm) (p : Progress) : List Char → Option Progress
  | [] => some p
  | c :: cs =>
    match forms.find? fun o => o.letter == some c with
    | none => none
    | some o =>
      if o.kind = .flag then
        match p.give o "" with
        | none => none
        | some p => readLetters forms p cs
      else
        match cs with
        | [] => some { p with pending := some o }
        | '=' :: value => p.give o (String.ofList value)
        | value => p.give o (String.ofList value)

/-- Reads what begins with a hyphen. -/
def readOption (forms : List OptionForm) (p : Progress) (arg : String) : Option Progress :=
  match arg.toList with
  | ['-', '-'] => some { p with operandsOnly := true }
  | '-' :: '-' :: cs =>
    let name := String.ofList (cs.takeWhile (· != '='))
    match cs.dropWhile (· != '=') with
    | [] => p.readName forms name none
    | _ :: value => p.readName forms name (some (String.ofList value))
  | _ :: cs => p.readLetters forms cs
  | [] => none

/-- Reads one argument. -/
def readNext (forms : List OptionForm) (p : Progress) (arg : String) : Option Progress :=
  match p.pending with
  | some o => if looksLikeOption arg then none else p.give o arg
  | none =>
    if p.operandsOnly || !looksLikeOption arg then
      some { p with given := { p.given with operands := p.given.operands ++ [arg] } }
    else p.readOption forms arg

end Progress

/-- Reads a list of arguments, if all its options are known and complete. -/
def Arguments.read? (forms : List OptionForm) (args : List String) : Option Arguments :=
  match args.foldlM (Progress.readNext forms) Progress.start with
  | some p => if p.pending.isNone then some p.given else none
  | none => none

end CommandLine

end Kinetics
