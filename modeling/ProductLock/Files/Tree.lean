import ProductLock.Catalog
import ProductLock.Files.Path

/-!
# File trees

A file tree says for each location whether there is a file, with its bytes, or a directory. The
root is always a directory. A path is followed from a location one segment at a time, and whatever
comes after a segment, be it only a slash, asks that it names a directory.

A path that leads nowhere yet is followed up to its last segment (`approach`). That segment is what
a change makes or replaces, and a dot or two dots there name nothing that could be made.
-/

namespace ProductLock

/-- The names on the way to a place, the innermost first. -/
abbrev Location := List String

/-- The absolute path of a location. -/
def Location.path (l : Location) : String := "/" ++ "/".intercalate l.reverse

inductive Content
  | file (bytes : ByteArray)
  | directory

instance : DecidableEq Content
  | .file a, .file b => decidable_of_iff (a.data = b.data) (by cases a; cases b; simp)
  | .file _, .directory | .directory, .file _ => isFalse nofun
  | .directory, .directory => isTrue rfl

inductive FileError
  | notFound
  | alreadyExists
  | notDirectory
  | isDirectory
  | busy
  | tooLong
  | nulByte
  | notText
deriving DecidableEq

def FileError.message : FileError → String
  | .notFound => "No such file or directory (os error 2)"
  | .busy => "Device or resource busy (os error 16)"
  | .alreadyExists => "File exists (os error 17)"
  | .notDirectory => "Not a directory (os error 20)"
  | .isDirectory => "Is a directory (os error 21)"
  | .tooLong => "File name too long (os error 36)"
  | .nulByte => "file name contained an unexpected NUL byte"
  | .notText => "stream did not contain valid UTF-8"

structure FileTree where
  nodes : Catalog (Prod.fst : Location × Content → Location) := .empty
deriving DecidableEq

namespace FileTree

def content? (t : FileTree) : Location → Option Content
  | [] => some .directory
  | l => (t.nodes.find? l).map Prod.snd

def isDirectory (t : FileTree) (l : Location) : Bool := t.content? l = some .directory

def put (t : FileTree) (l : Location) (c : Content) : FileTree := ⟨t.nodes.insert (l, c)⟩

/-- Takes out a location and all that lies below it. -/
def remove (t : FileTree) (l : Location) : FileTree :=
  ⟨t.nodes.filter fun (m, _) => !l.isSuffixOf m⟩

/-- The names in a directory, in ascending order. -/
def names (t : FileTree) (l : Location) : List String :=
  t.nodes.toList.filterMap fun
    | (name :: m, _) => if m = l then some name else none
    | ([], _) => none

/-- What a tree holds that another, an earlier one, does not hold in the same place. -/
def changes (t earlier : FileTree) : List (Location × Content) :=
  t.nodes.toList.filter fun (l, c) => earlier.content? l ≠ some c

/-! ## Following paths -/

/-- What is wrong with a path wherever it starts. -/
def pathError? (path : String) : Option FileError :=
  if path.toList.contains '\x00' then some .nulByte
  else if path.isEmpty then some .notFound
  else if 4095 < path.utf8ByteSize then some .tooLong
  else none

def isTooLong (name : String) : Bool := 255 < name.utf8ByteSize

/-- Follows segments from a location to something that exists. -/
def follow (t : FileTree) (l : Location) : List String → Except FileError Location
  | [] => .ok l
  | s :: rest =>
      if !t.isDirectory l then .error .notDirectory
      else if s = "" ∨ s = "." then t.follow l rest
      else if s = ".." then t.follow l.tail rest
      else if isTooLong s then .error .tooLong
      else if (t.content? (s :: l)).isSome then t.follow (s :: l) rest
      else .error .notFound

/-- Where a path starts. -/
def start (here : Location) (path : String) : Location :=
  if Path.isAbsolute path then [] else here

def locate (t : FileTree) (here : Location) (path : String) : Except FileError Location :=
  match pathError? path with
  | some e => .error e
  | none => t.follow (start here path) (Path.segments path)

/-- The directory in which the last segment of a path lies, and that segment. Slashes after it do
not count, and a path of nothing but slashes has none. -/
def approach (t : FileTree) (here : Location) (path : String) :
    Except FileError (Location × String) :=
  match pathError? path, (Path.segments path).reverse.dropWhile (·.isEmpty) with
  | some e, _ => .error e
  | none, [] => .ok ([], "")
  | none, name :: way => do
      let l ← t.follow (start here path) way.reverse
      if !t.isDirectory l then throw .notDirectory
      if isTooLong name then throw .tooLong
      return (l, name)

/-- A last segment that cannot be made: it stands for a directory on the way to it. -/
def isReserved (name : String) : Bool := name = "" || name = "." || name = ".."

/-- A directory can be seen at the path. -/
def isDirectoryAt (t : FileTree) (here : Location) (path : String) : Bool :=
  (t.locate here path).toOption.any t.isDirectory

/-! ## Files -/

def isFile (t : FileTree) (here : Location) (path : String) : Bool :=
  match (t.locate here path).toOption.bind t.content? with
  | some (.file _) => true
  | _ => false

def read (t : FileTree) (here : Location) (path : String) : Except FileError String := do
  match t.content? (← t.locate here path) with
  | some (.file bytes) =>
      match String.fromUTF8? bytes with
      | some text => return text
      | none => throw .notText
  | some .directory => throw .isDirectory
  | none => throw .notFound

/-- The text of a file, or nothing if there is no such file. -/
def readOptional (t : FileTree) (here : Location) (path : String) :
    Except FileError (Option String) :=
  match t.read here path with
  | .ok text => .ok (some text)
  | .error .notFound => .ok none
  | .error e => .error e

/-- The names in the directory at a path. -/
def list (t : FileTree) (here : Location) (path : String) : Except FileError (List String) := do
  let l ← t.locate here path
  if t.isDirectory l then return t.names l else throw .notDirectory

/-- The nearest directory, from a path upwards, from where a file can be seen. -/
def findAncestorWith? (t : FileTree) (here : Location) (path file : String) : Option String :=
  (Path.ancestors path).find? fun dir => t.isFile here (Path.join dir file)

end FileTree

end ProductLock
