import Kinetics.CommandLine.Command
import Kinetics.CommandLine.Path
import Kinetics.Context.Document
import Kinetics.Json.Printer
import Kinetics.Ontology.Document
import Kinetics.Simulation

/-!
# Kinetics.CommandLine.Session

What a command does, step by step. A session asks its surroundings to read, write and print, and
goes on with their answers, so that it can be run in a directory of files as well as in a model of
one. A command that fails says why and stops with code one, a command line that cannot be read
stops with code two.
-/

namespace Kinetics

namespace CommandLine

inductive Session where
  | stop (code : UInt8)
  /-- reads a file, or the standard input under the name of a hyphen -/
  | read (path : String) (next : Option String → Session)
  /-- writes a file, and tells whether that worked -/
  | write (path text : String) (next : Bool → Session)
  /-- makes a directory if it is not there yet, or tells why not -/
  | makeDirectory (path : String) (next : Option PathFault → Session)
  | print (text : String) (next : Session)
  /-- prints a text and a line feed to the error output -/
  | complain (text : String) (next : Session)

namespace Session

/-- Says what went wrong and stops. -/
def fail (message : String) : Session :=
  complain ("Error: " ++ message) (stop 1)

def readText (path : String) (next : String → Session) : Session :=
  read path fun text =>
    match text with
    | some text => next text
    | none => fail ("can't read " ++ path)

/-- Reads a document from a file; the family tells what it should be. -/
def readDocument {α : Type} (family path : String) (ofJson? : Json → Option α)
    (next : α → Session) : Session :=
  readText path fun text =>
    match (Json.parse? text).bind ofJson? with
    | some a => next a
    | none => fail ("reading " ++ family ++ " " ++ path)

def writeText (path text : String) (next : Session) : Session :=
  write path text fun written => if written then next else fail ("can't write " ++ path)

/-- Goes on with the value of a computation, or reports its fault. -/
def orFail {α : Type} (r : Except Fault α) (next : α → Session) : Session :=
  match r with
  | .ok a => next a
  | .error f => fail f.report.text

/-- Reads an ontology, and options if a file is named for them. -/
def readSources (s : Sources) (next : Ontology → SolverOptions → Session) : Session :=
  readDocument "ontology" s.ontology Ontology.ofJson? fun o =>
    match s.options with
    | none => next o .standard
    | some path => readDocument "options" path SolverOptions.ofJson? (next o)

/-- Reads all that one program is assembled from, and assembles it. -/
def assembleFrom (s : Sources) (context : String) (next : Simulation → Session) : Session :=
  readSources s fun o options =>
    readDocument "context" context ModelContext.ofJson? fun c =>
      orFail (Simulation.assemble o c options) next

/-- Writes a text to a file, or prints it where none is named. -/
def writeOrPrint (path : Option String) (text : String) (next : Session) : Session :=
  match path with
  | some path => writeText path text next
  | none => print text next

/-- A compiled expression as a document. -/
def expressionJson (e : Formula.Expression) : Json :=
  .record
    [("code", .ofString e.code), ("free_symbols", .ofList .ofString e.freeSymbols.toList)]

/-- Makes a directory. If one on the way to it is missing, those above it are made in the same way,
and then it is tried once more. -/
def makeAll (path : String) : List String → (Option PathFault → Session) → Session
  | [], next => makeDirectory path next
  | above :: ancestors, next =>
    makeDirectory path fun trouble =>
      if trouble = some .missing then
        makeAll above ancestors fun trouble =>
          if trouble.isNone then makeDirectory path next else next trouble
      else next trouble

/-- Writes the programs and tables of a list of results, numbered, and goes on with the number of
failures. -/
def writeAll (directory : String) (failures i : Nat) :
    List (Except Fault Simulation) → (Nat → Session) → Session
  | [], next => next failures
  | .ok s :: rs, next =>
    writeText (Path.join directory s!"{i}.py") s.source <|
      writeText (Path.join directory s!"{i}.params.json") s.table.toJson.pretty <|
        writeAll directory failures (i + 1) rs next
  | .error f :: rs, next =>
    complain (s!"context {i}: " ++ f.report.text) <|
      writeAll directory (failures + 1) (i + 1) rs next

/-- What a command does. -/
def ofCommand : Command → Session
  | .compile file suffix json =>
    readText file fun text =>
      orFail ((Formula.parse text).bind (Formula.Node.compile suffix)) fun e =>
        print ((if json then (expressionJson e).pretty else e.code) ++ "\n") (stop 0)
  | .assemble sources context output table =>
    assembleFrom sources context fun s =>
      writeOrPrint output s.source <|
        match table with
        | some path => writeText path s.table.toJson.pretty (stop 0)
        | none => stop 0
  | .params sources context =>
    assembleFrom sources context fun s => print (s.table.toJson.pretty ++ "\n") (stop 0)
  | .batch sources contexts directory =>
    readSources sources fun o options =>
      readDocument "contexts" contexts (Json.asList ModelContext.ofJson?) fun cs =>
        makeAll directory (Path.ancestors directory) fun trouble =>
          match trouble with
          | some f => fail f.text
          | none =>
            writeAll directory 0 0 (Simulation.assembleAll o cs options) fun failures =>
              if failures = 0 then stop 0
              else fail s!"{failures} of {cs.length} contexts failed"

/-- What a command line does. -/
def ofArguments (args : List String) : Session :=
  match Command.ofArguments? args with
  | some c => ofCommand c
  | none => stop 2

end Session

end CommandLine

end Kinetics
