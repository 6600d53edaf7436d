import Kinetics.CommandLine.FileTree
import Kinetics.CommandLine.Session

/-!
# Kinetics.CommandLine.Outcome

What comes of a session in a tree of files: its exit code, what it prints, and the tree it leaves.
Whatever was written before a failure stays written.
-/

namespace Kinetics

namespace CommandLine

/-- What a session finds: a tree of files, and what is still to come on the standard input. -/
structure Surroundings where
  tree : FileTree
  input : String

structure Outcome where
  exit : UInt8
  output : String
  complaints : List String
  tree : FileTree

namespace Outcome

/-- The lines of the error output, in which every complaint ends with a line feed. -/
def errorLines (o : Outcome) : List String :=
  o.complaints.flatMap fun c => (Text.lines (c.push '\n').toList).map String.ofList

end Outcome

namespace Session

/-- The outcome of a session. The standard input is read to its end at once. -/
def outcome (w : Surroundings) : Session → Outcome
  | stop code => ⟨code, "", [], w.tree⟩
  | read path next =>
    if path = "-" then outcome { w with input := "" } (next (some w.input))
    else outcome w (next (w.tree.read? path))
  | write path text next =>
    match w.tree.write? path text with
    | some t => outcome { w with tree := t } (next true)
    | none => outcome w (next false)
  | makeDirectory path next =>
    match w.tree.makeDirectory path with
    | .ok t => outcome { w with tree := t } (next none)
    | .error f => outcome w (next (some f))
  | print text next =>
    let o := outcome w next
    { o with output := text ++ o.output }
  | complain text next =>
    let o := outcome w next
    { o with complaints := text :: o.complaints }

end Session

end CommandLine

end Kinetics
