import ProductLock.Files.Tree

/-!
# Changing a file tree

A change gives the tree it leaves behind, whether it succeeds or fails: one that fails may have made
directories before it did, and they stay. A single step is made whole or not at all.

A file is written by putting a new one in the place of what was there. The directories that lead to
it are made first, so that it is the place itself that decides whether this is possible: no file
takes the place of a directory, and none is put where a slash asks for a directory.
-/

namespace ProductLock

/-- How a change ended, and the tree after it. -/
structure Change (ε α : Type) where
  tree : FileTree
  result : Except ε α

namespace Change

variable {ε ε' α β : Type}

/-- A change that is made whole or not at all. -/
def step (t : FileTree) : Except ε FileTree → Change ε Unit
  | .ok u => ⟨u, .ok ()⟩
  | .error e => ⟨t, .error e⟩

def map (f : α → β) (c : Change ε α) : Change ε β := ⟨c.tree, c.result.map f⟩

def mapError (f : ε → ε') (c : Change ε α) : Change ε' α := ⟨c.tree, c.result.mapError f⟩

/-- Goes on with the tree that a change leaves, if it succeeds. -/
def andThen (c : Change ε α) (next : FileTree → Change ε β) : Change ε β :=
  match c.result with
  | .ok _ => next c.tree
  | .error e => ⟨c.tree, .error e⟩

end Change

namespace FileTree

/-! ## Directories -/

def makeDirectory (t : FileTree) (here : Location) (path : String) :
    Except FileError FileTree := do
  let (l, name) ← t.approach here path
  if isReserved name || (t.content? (name :: l)).isSome then throw .alreadyExists
  return t.put (name :: l) .directory

/-- Makes a directory unless it is there. -/
def ensureDirectory (t : FileTree) (here : Location) (path : String) :
    Except FileError FileTree :=
  match t.makeDirectory here path with
  | .ok u => .ok u
  | .error e => if t.isDirectoryAt here path then .ok t else .error e

/-- Makes the first of some directories, each of which lies in the next; those that it lies in are
made before it where they are missing. -/
def ensureDirectories (t : FileTree) (here : Location) : List String → Change FileError Unit
  | [] => ⟨t, .ok ()⟩
  | path :: above =>
      if path.isEmpty then ⟨t, .ok ()⟩
      else
        match t.ensureDirectory here path with
        | .error .notFound =>
            (t.ensureDirectories here above).andThen fun u => .step u (u.ensureDirectory here path)
        | done => .step t done

/-- Makes a directory and all that lead to it. -/
def makeDirectories (t : FileTree) (here : Location) (path : String) : Change FileError Unit :=
  t.ensureDirectories here (Path.ancestors path)

/-! ## Files -/

/-- Puts a new file in the place of what is at a path. -/
def replace (t : FileTree) (here : Location) (path : String) (bytes : ByteArray) :
    Except FileError FileTree := do
  let (l, name) ← t.approach here path
  if isReserved name then throw .busy
  if Path.endsInSlash path then throw .notDirectory
  if t.isDirectory (name :: l) then throw .isDirectory
  return t.put (name :: l) (.file bytes)

/-- Puts a new file at a path, making the directories that lead there. -/
def write (t : FileTree) (here : Location) (path : String) (bytes : ByteArray) :
    Change FileError Unit :=
  (t.makeDirectories here (Path.directory path)).andThen fun u =>
    .step u (u.replace here path bytes)

/-- Writes a text unless the file holds just that, and says whether it was written. -/
def writeIfChanged (t : FileTree) (here : Location) (path text : String) :
    Change FileError Bool :=
  match t.readOptional here path with
  | .error e => ⟨t, .error e⟩
  | .ok old =>
      if old = some text then ⟨t, .ok false⟩
      else (t.write here path text.toUTF8).map fun _ => true

end FileTree

end ProductLock
