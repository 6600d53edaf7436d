import Kinetics.CommandLine.Path
import Kinetics.Dict

/-!
# Kinetics.CommandLine.FileTree

A model of the files and directories that a session finds and leaves. A place is the row of names
on the way to it from the directory of the session, with the steps up in front. The directories
above that of the session are there, and nothing else is in them; what is found from the root on is
out of reach.
-/

namespace Kinetics

namespace CommandLine

inductive Entry where
  | directory
  | file (text : String)
  deriving DecidableEq

structure FileTree where
  /-- what is below the directory of the session, by place -/
  entries : Dict String Entry

namespace FileTree

def empty : FileTree :=
  ⟨Dict.empty⟩

/-- A place as one text. -/
def placeText (place : List String) : String :=
  Text.joinWith "/" place

/-- The place of the session's directory or of one above it. -/
def isAbove (place : List String) : Bool :=
  place.all (· == "..")

def find? (t : FileTree) (place : List String) : Option Entry :=
  if isAbove place then some .directory else t.entries.find? (placeText place)

def insert (t : FileTree) (place : List String) (e : Entry) : FileTree :=
  ⟨t.entries.insert (placeText place) e⟩

/-- The place that a name leads to from a directory. -/
def step (place : List String) (name : String) : Except PathFault (List String) :=
  if name == "." then .ok place
  else if name == ".." then .ok (if isAbove place then place ++ [".."] else place.dropLast)
  else if Path.nameLimit < name.utf8ByteSize then .error .tooLong
  else .ok (place ++ [name])

/-- The directory that a row of names leads to from another one. -/
def enter (t : FileTree) (place : List String) : List String → Except PathFault (List String)
  | [] => .ok place
  | name :: names =>
    match step place name with
    | .error f => .error f
    | .ok next =>
      match t.find? next with
      | some .directory => enter t next names
      | some (.file _) => .error .notDirectory
      | none => .error .missing

/-- The place of a path, which need not be there itself. All names but the last have to be those of
directories. -/
def locate (t : FileTree) (path : String) : Except PathFault (List String) :=
  if Path.isRooted path then .error .denied
  else if Path.lengthLimit < path.utf8ByteSize then .error .tooLong
  else
    match t.enter [] (Path.names path).dropLast, (Path.names path).getLast? with
    | .ok place, some name => step place name
    | r, _ => r

/-- The place of a file; a path that ends in a slash has none. -/
def locateFile? (t : FileTree) (path : String) : Option (List String) :=
  if path.endsWith "/" then none else (t.locate path).toOption

def read? (t : FileTree) (path : String) : Option String :=
  (t.locateFile? path).bind fun place =>
    match t.find? place with
    | some (.file text) => some text
    | _ => none

/-- The tree with a file written, if it can be. -/
def write? (t : FileTree) (path text : String) : Option FileTree :=
  (t.locateFile? path).bind fun place =>
    match t.find? place with
    | some .directory => none
    | _ => some (t.insert place (.file text))

/-- The tree with a directory, whether it was there already or not. -/
def makeDirectory (t : FileTree) (path : String) : Except PathFault FileTree :=
  (t.locate path).bind fun place =>
    match t.find? place with
    | some .directory => .ok t
    | some (.file _) => .error .occupied
    | none => .ok (t.insert place .directory)

/-- The tree with a file and the directories above it. -/
def addFile (t : FileTree) (path text : String) : FileTree :=
  let t := (Path.ancestors path).foldr (fun p t => (t.makeDirectory p).toOption.getD t) t
  (t.write? path text).getD t

/-- The tree of a list of files. -/
def ofFiles (files : List (String × String)) : FileTree :=
  files.foldl (fun t file => t.addFile file.1 file.2) empty

/-- The files below the directory of the session that another tree does not have with the same
text. -/
def filesBeyond (t before : FileTree) : List (String × String) :=
  t.entries.entries.filterMap fun e =>
    match e.2 with
    | .directory => none
    | .file text =>
      if e.1.startsWith "../" || before.entries.find? e.1 == some e.2 then none
      else some (e.1, text)

end FileTree

end CommandLine

end Kinetics
