import WordAutomata.Fields
import WordAutomata.Files.Path
import WordAutomata.Text.Quoted

/-!
# Files in directories

A tree holds files and directories by their locations. A path is followed name by name from the
working directory, and everything but its last name must be a directory that is there, even if a
double dot leads out of it again: so two paths may denote one file, and a path may fail although the
file that it seems to denote is there. Writing a file first makes the directories above it.
-/
namespace WordAutomata.Files

/-- The names that lead to a file or directory from the working directory. Double dots stand only at
the beginning, where they lead above it; a slash at the beginning stands for the outermost
directory. -/
abbrev Location := List String

/-- What is at a location. -/
inductive Node where
  | directory
  | file (content : String)
deriving DecidableEq

/-- Files and directories by their locations. -/
structure Tree where
  nodes : Fields Location Node
deriving DecidableEq

/-- Why a path does not lead to what is wanted. -/
inductive Fault where
  | missing
  /-- There is something else where a directory is to be made. -/
  | occupied
  | notDirectory
  | isDirectory
  | nameTooLong
  /-- The path contains the null character. -/
  | nullCharacter
deriving DecidableEq

def Fault.message (path : Path) : Fault → String
  | .missing => "[Errno 2] No such file or directory: " ++ Text.quoted path.text
  | .occupied => "[Errno 17] File exists: " ++ Text.quoted path.text
  | .notDirectory => "[Errno 20] Not a directory: " ++ Text.quoted path.text
  | .isDirectory => "[Errno 21] Is a directory: " ++ Text.quoted path.text
  | .nameTooLong => "[Errno 36] File name too long: " ++ Text.quoted path.text
  | .nullCharacter => "embedded null byte"

structure PathError where
  fault : Fault
  path : Path
deriving DecidableEq

def PathError.message (e : PathError) : String := e.fault.message e.path

namespace Location

/-- The outermost directory. -/
def outermost : Location := ["/"]

/-- Whether a location is the working directory or a directory around it. -/
def isAround (place : Location) : Bool := place.all (· = "..") || place = outermost

/-- Where a name leads from a directory. -/
def step (place : Location) (name : String) : Location :=
  if name = ".." then
    if place = outermost then outermost
    else if place.isAround then ".." :: place
    else place.dropLast
  else place ++ [name]

/-- A path that leads to a location. -/
def path (place : Location) : Path :=
  match place with
  | "/" :: names => ⟨1, names⟩
  | names => ⟨0, names⟩

end Location

namespace Tree

def empty : Tree := ⟨[]⟩

/-- What is at a location. The directories around the working directory are always there. -/
def node? (t : Tree) (place : Location) : Option Node :=
  if place.isAround then some .directory else t.nodes.get? place

/-- The greatest number of bytes in a name. -/
def maxNameBytes : Nat := 255

/-- The number of bytes that a path must not reach. -/
def maxPathBytes : Nat := 4096

/-- Where a path's names lead from a directory. Of the last name it does not matter whether anything
is there. -/
def follow (t : Tree) (place : Location) : List String → Except Fault Location
  | [] => .ok place
  | name :: rest =>
    if name.utf8ByteSize > maxNameBytes then .error .nameTooLong
    else if rest = [] then .ok (place.step name)
    else match t.node? (place.step name) with
      | some .directory => t.follow (place.step name) rest
      | some (.file _) => .error .notDirectory
      | none => .error .missing

/-- The location that a path denotes. -/
def locate (t : Tree) (p : Path) : Except Fault Location :=
  if p.text.toList.contains '\x00' then .error .nullCharacter
  else if p.text.utf8ByteSize ≥ maxPathBytes then .error .nameTooLong
  else t.follow (if p.slashes = 0 then [] else Location.outermost) p.names

/-- The content of the file that a path denotes. -/
def read (t : Tree) (p : Path) : Except PathError String :=
  match t.locate p with
  | .error fault => .error ⟨fault, p⟩
  | .ok place =>
    match t.node? place with
    | some (.file content) => .ok content
    | some .directory => .error ⟨.isDirectory, p⟩
    | none => .error ⟨.missing, p⟩

def put (t : Tree) (place : Location) (node : Node) : Tree := ⟨t.nodes.put place node⟩

/-- The tree with a directory where a path leads; what it stands in must be there. -/
def makeDirectory (t : Tree) (p : Path) : Except Fault Tree :=
  match t.locate p with
  | .error fault => .error fault
  | .ok place =>
    match t.node? place with
    | some .directory => .ok t
    | some (.file _) => .error .occupied
    | none => .ok (t.put place .directory)

/-- The tree with the directory of some names, given from the last to the first, and with the
directories that it stands in, as far as they are missing. -/
def makeDirectoriesUp (t : Tree) (slashes : Nat) : List String → Except PathError Tree
  | [] => .ok t
  | name :: above =>
    let p : Path := ⟨slashes, (name :: above).reverse⟩
    match t.makeDirectory p with
    | .ok t => .ok t
    | .error .missing =>
      match t.makeDirectoriesUp slashes above with
      | .error e => .error e
      | .ok t => (t.makeDirectory p).mapError fun fault => ⟨fault, p⟩
    | .error fault => .error ⟨fault, p⟩

/-- The tree with the directory that a path denotes and those that it stands in. -/
def makeDirectories (t : Tree) (p : Path) : Except PathError Tree :=
  t.makeDirectoriesUp p.slashes p.names.reverse

/-- The tree in which the file that a path denotes is there and empty, with the file's location. -/
def emptyFile (t : Tree) (p : Path) : Except PathError (Location × Tree) :=
  match t.makeDirectories p.parent with
  | .error e => .error e
  | .ok t =>
    match t.locate p with
    | .error fault => .error ⟨fault, p⟩
    | .ok place =>
      if t.node? place = some .directory then .error ⟨.isDirectory, p⟩
      else .ok (place, t.put place (.file ""))

/-- The locations and contents of the files. -/
def files (t : Tree) : List (Location × String) :=
  t.nodes.filterMap fun (place, node) =>
    match node with
    | .file content => some (place, content)
    | .directory => none

/-- Putting something at a location changes what is there and nothing else. -/
theorem node?_put (t : Tree) (place other : Location) (node : Node) :
    (t.put place node).node? other =
      if place = other ∧ other.isAround = false then some node else t.node? other := by
  unfold node? put
  cases h : Location.isAround other with
  | true => simp
  | false => simp [Fields.get?_put]

end Tree
end WordAutomata.Files
