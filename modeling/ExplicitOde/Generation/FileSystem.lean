import ExplicitOde.Generation.Path

/-!
# File systems

A file system maps places to directories and files. A place is a list of names from the root; a path
is a text that leads to a place, past other places that must be directories.

Whether something can be made is decided by what is there, by the names and by the length of the
path alone. Failures that come from elsewhere have no counterpart: permissions that are missing, a
full disk, a write that breaks off and leaves a part of its text. So a file that cannot be written
is left as it was, where a real system may leave anything of it.
-/

namespace ExplicitOde

/-- A place in a file system, the names that lead there from the root. -/
abbrev Place := List String

/-- What can be at a place. -/
inductive Entry where
  | directory
  | file (text : String)
  deriving DecidableEq, Repr

/-- Entries by place. The root is a directory without an entry of its own. -/
structure FileSystem where
  entries : List (Place × Entry)
  /-- The most bytes that a path may have. It is set from outside, and nothing changes it. -/
  longestPath : Nat := 4095
  deriving DecidableEq, Repr

namespace FileSystem

/-- Nothing but the root. -/
def empty : FileSystem := { entries := [] }

/-- What is at a place. -/
def get? (files : FileSystem) (place : Place) : Option Entry :=
  if place = [] then some .directory else files.entries.lookup place

/-- Puts an entry at a place, instead of what was there. -/
def set (files : FileSystem) (place : Place) (entry : Entry) : FileSystem :=
  { files with entries := (place, entry) :: files.entries.filter fun e => e.1 ≠ place }

/-- The place is a directory. -/
def isDirectory (files : FileSystem) (place : Place) : Bool :=
  files.get? place == some .directory

/-! ## Paths -/

/-- The place one name away from a place: the place itself for no name or a point, the place above
for two points. -/
def step (place : Place) (name : String) : Place :=
  if !isStep name then place
  else if name = ".." then place.dropLast
  else place ++ [name]

/-- The places that names lead past, the last of them where they lead. -/
def trail (place : Place) : List String → List Place
  | [] => []
  | name :: names => step place name :: trail (step place name) names

/-- Where names lead. -/
def destination (place : Place) (names : List String) : Place :=
  names.foldl step place

/-- Names are at most 255 bytes long. -/
def isPossibleName (name : String) : Bool := name.utf8ByteSize ≤ 255

/-- Paths are not longer than they may be and have no character zero. -/
def isPossiblePath (files : FileSystem) (path : String) : Bool :=
  path.utf8ByteSize ≤ files.longestPath && !path.toList.contains '\x00'

/-! ## Changes -/

/-- Makes sure that a place below a directory is a directory. -/
def makeDirectory (files : FileSystem) (place : Place) : Option FileSystem :=
  match files.get? place with
  | some .directory => some files
  | some (.file _) => none
  | none =>
    if place.all isPossibleName then some (files.set place .directory) else none

/-- Makes sure that all places on the way are directories, as far as that is possible; also whether
it was. -/
def makeDirectories (files : FileSystem) : List Place → FileSystem × Bool
  | [] => (files, true)
  | place :: places =>
    match files.makeDirectory place with
    | some files => makeDirectories files places
    | none => (files, false)

/-- Makes sure that a path leads to a directory. A directory is made by its own name only, not by a
point after it. -/
def ensurePath (files : FileSystem) (path : String) : FileSystem × Bool :=
  let steps := pathSteps path
  if !files.isPossiblePath path then (files, false)
  else if endsHere path then
    let (files, done) := files.makeDirectories (trail [] steps.dropLast)
    (files, done && files.isDirectory (destination [] steps))
  else files.makeDirectories (trail [] steps)

/-- The place of a file that a path names, if the way there leads past directories only. -/
def filePlace? (files : FileSystem) (path : String) : Option Place :=
  let names := pathNames path
  let way := names.dropLast
  match names.getLast? with
  | none => none
  | some name =>
    if files.isPossiblePath path && (trail [] way).all files.isDirectory && isStep name &&
        name ≠ ".." && isPossibleName name then
      some (destination [] way ++ [name])
    else none

/-- Writes a file, over what it held before. -/
def store? (files : FileSystem) (path text : String) : Option FileSystem :=
  match files.filePlace? path with
  | none => none
  | some place => if files.isDirectory place then none else some (files.set place (.file text))

/-- The text of a file. -/
def contents? (files : FileSystem) (path : String) : Option String :=
  match (files.filePlace? path).bind files.get? with
  | some (.file text) => some text
  | _ => none

end FileSystem

end ExplicitOde
