import Kinetics.CommandLine.Arguments

/-!
# Kinetics.CommandLine.Command

The commands of the program: compile a formula, assemble the program of a context, list the
parameters of a context, assemble the programs of many contexts.
-/

namespace Kinetics

namespace CommandLine

/-- The files that every command about models reads. -/
structure Sources where
  ontology : String
  options : Option String
  deriving DecidableEq

inductive Command where
  | compile (file suffix : String) (json : Bool)
  | assemble (sources : Sources) (context : String) (output table : Option String)
  | params (sources : Sources) (context : String)
  | batch (sources : Sources) (contexts directory : String)
  deriving DecidableEq

namespace Command

/-- The option that every command takes, before its name or behind it. -/
def verbose : OptionForm :=
  ⟨"verbose", some 'v', .flag⟩

def sourceForms : List OptionForm :=
  [verbose, ⟨"ontology", none, .path⟩, ⟨"options", none, .path⟩]

def compileForms : List OptionForm :=
  [verbose, ⟨"suffix", some 's', .text⟩, ⟨"json", none, .flag⟩]

def assembleForms : List OptionForm :=
  sourceForms ++
    [⟨"context", some 'c', .path⟩, ⟨"output", some 'o', .path⟩, ⟨"table", none, .path⟩]

def paramsForms : List OptionForm :=
  sourceForms ++ [⟨"context", some 'c', .path⟩]

def batchForms : List OptionForm :=
  sourceForms ++ [⟨"contexts", some 'c', .path⟩, ⟨"out-dir", none, .path⟩]

def sources? (a : Arguments) : Option Sources :=
  (a.value? "ontology").map fun ontology => ⟨ontology, a.value? "options"⟩

def compile? (args : List String) : Option Command := do
  let a ← Arguments.read? compileForms args
  match a.operands with
  | [file] =>
    if file.isEmpty then none
    else some (.compile file ((a.value? "suffix").getD "") (a.has "json"))
  | _ => none

/-- The arguments of a command that has no operands. -/
def plain? (forms : List OptionForm) (args : List String) : Option Arguments := do
  let a ← Arguments.read? forms args
  if a.operands.isEmpty then some a else none

def assemble? (args : List String) : Option Command := do
  let a ← plain? assembleForms args
  return .assemble (← sources? a) (← a.value? "context") (a.value? "output") (a.value? "table")

def params? (args : List String) : Option Command := do
  let a ← plain? paramsForms args
  return .params (← sources? a) (← a.value? "context")

def batch? (args : List String) : Option Command := do
  let a ← plain? batchForms args
  return .batch (← sources? a) (← a.value? "contexts") (← a.value? "out-dir")

/-- Reads the name of a command and what belongs to it. -/
def named? (name : String) (args : List String) : Option Command :=
  match name with
  | "compile" => compile? args
  | "assemble" => assemble? args
  | "params" => params? args
  | "batch" => batch? args
  | _ => none

/-- Reads a command line. Only options that every command takes stand before its name. -/
def ofArguments? (args : List String) : Option Command := do
  let before := args.takeWhile looksLikeOption
  let _ ← plain? [verbose] before
  match args.drop before.length with
  | name :: rest => if before.contains "--" then none else named? name rest
  | [] => none

end Command

end CommandLine

end Kinetics
