/-!
# Paths

A path is a text whose segments have slashes between them. It is kept as it was written: joining
two paths normalises nothing, and neither does going up. An empty segment, and a dot after the first
segment, name nothing of their own, so going up passes over them.
-/

namespace ProductLock.Path

def isAbsolute (path : String) : Bool := path.toList.head? == some '/'

def endsInSlash (path : String) : Bool := path.toList.getLast? == some '/'

def segments (path : String) : List String := (path.toList.splitOn '/').map String.ofList

/-- The second path as seen from the first; an absolute one stands for itself. -/
def join (base path : String) : String :=
  if isAbsolute path then path
  else if base.isEmpty || endsInSlash base then base ++ path
  else base ++ "/" ++ path

/-- Drops the segments that name nothing from the end of a path given backwards. -/
def dropVoid : List String → List String
  | [] => []
  | s :: rest => if s = "" ∨ (s = "." ∧ rest ≠ []) then dropVoid rest else s :: rest

/-- The path without its last segment. The root has no parent, and neither does the empty path. -/
def parent? (path : String) : Option String :=
  match dropVoid (segments path).reverse with
  | [] => none
  | _ :: rest =>
      match dropVoid rest with
      | [] => some (if isAbsolute path then "/" else "")
      | rest => some ("/".intercalate rest.reverse)

/-- The path of the directory in which the last segment of a path is looked for. -/
def directory (path : String) : String :=
  match parent? path with
  | none | some "" => "."
  | some parent => parent

/-- The path, its parent, the parent of that, and so on. -/
def ancestors (path : String) : List String :=
  match parent? path with
  | none => [path]
  | some parent => path :: if parent.length < path.length then ancestors parent else []
termination_by path.length

end ProductLock.Path
