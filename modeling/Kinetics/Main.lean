import Kinetics.CommandLine.Session

/-!
# Kinetics.Main

The program: runs the session of its command line in the working directory.
-/

namespace Kinetics

namespace CommandLine

/-- The rest of a stream. -/
partial def readRest (stream : IO.FS.Stream) (text : String) : IO String := do
  let line ← stream.getLine
  if line.isEmpty then return text
  readRest stream (text ++ line)

/-- The text of a file, or of the standard input. -/
def readInput (path : String) : IO (Option String) := do
  try
    if path = "-" then
      return some (← readRest (← IO.getStdin) "")
    else
      return some (← IO.FS.readFile path)
  catch _ => return none

def writeOutput (path text : String) : IO Bool := do
  try
    IO.FS.writeFile path text
    return true
  catch _ => return false

/-- What the system says of a path. -/
def PathFault.ofError : IO.Error → PathFault
  | .noFileOrDirectory .. => .missing
  | .permissionDenied .. => .denied
  | .alreadyExists .. => .occupied
  | .inappropriateType .. => .notDirectory
  | .invalidArgument _ 36 _ => .tooLong
  | e => .other (toString e)

/-- Makes a directory if it is not there yet. -/
def createDirectory (path : String) : IO (Option PathFault) := do
  try
    IO.FS.createDir path
    return none
  catch e =>
    match PathFault.ofError e with
    | .occupied =>
      try
        -- makes nothing where all is there, and fails if that is a file
        IO.FS.createDirAll path
        return none
      catch _ => return some .occupied
    | f => return some f

/-- Runs a session. -/
def Session.perform : Session → IO UInt32
  | .stop code => return code.toUInt32
  | .read path next => do
    let text ← readInput path
    (next text).perform
  | .write path text next => do
    let written ← writeOutput path text
    (next written).perform
  | .makeDirectory path next => do
    let trouble ← createDirectory path
    (next trouble).perform
  | .print text next => do
    IO.print text
    next.perform
  | .complain text next => do
    IO.eprintln text
    next.perform

end CommandLine

end Kinetics

def main (args : List String) : IO UInt32 :=
  (Kinetics.CommandLine.Session.ofArguments args).perform
