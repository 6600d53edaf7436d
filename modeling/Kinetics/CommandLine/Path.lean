import Kinetics.Text.Lines

/-!
# Kinetics.CommandLine.Path

Paths as texts, and what can be wrong with one. A path is a row of names with slashes between them;
empty names count for nothing, a point stays where it is and two points go one step up.
-/

namespace Kinetics

namespace CommandLine

/-- Why a path does not lead to a directory. -/
inductive PathFault where
  /-- a name on the way is not there -/
  | missing
  | denied
  /-- a file stands in the place of the directory -/
  | occupied
  /-- a name on the way is that of a file -/
  | notDirectory
  | tooLong
  /-- anything else, in the words of the system -/
  | other (text : String)
  deriving DecidableEq

def PathFault.text : PathFault → String
  | missing => "No such file or directory (os error 2)"
  | denied => "Permission denied (os error 13)"
  | occupied => "File exists (os error 17)"
  | notDirectory => "Not a directory (os error 20)"
  | tooLong => "File name too long (os error 36)"
  | other text => text

namespace Path

/-- The most bytes that a name can have. -/
def nameLimit : Nat := 255

/-- The most bytes that a path can have. -/
def lengthLimit : Nat := 4095

def isRooted (path : String) : Bool :=
  path.startsWith "/"

def names (path : String) : List String :=
  (path.splitOn "/").filter fun name => !name.isEmpty

/-- The path of a file in a directory. -/
def join (directory file : String) : String :=
  if directory.endsWith "/" then directory ++ file else directory ++ "/" ++ file

/-- The rows of names that begin a row, without itself and the empty one, from the longest on. The
names come from the last to the first. -/
def properBeginnings : List String → List (List String)
  | _ :: name :: names => (name :: names).reverse :: properBeginnings (name :: names)
  | _ => []

/-- The paths of the directories above a path, from the nearest on. Points count for nothing here,
so there is nothing above a point but what is above the name before it. -/
def ancestors (path : String) : List String :=
  (properBeginnings ((names path).filter (· != ".")).reverse).map fun names =>
    (if isRooted path then "/" else "") ++ Text.joinWith "/" names

end Path

end CommandLine

end Kinetics
