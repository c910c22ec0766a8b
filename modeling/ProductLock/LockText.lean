import ProductLock.DependencySet
import ProductLock.Dependency.Reading

/-!
# The text of a lock file

A lock file has a fixed header and one line per dependency, `group:name (minimum, maximum)` with
` optional` after it where it applies; the lines are sorted by their text. A product of the same
build, a workspace product, has its minimum written as `$projectVersion` when it equals the version
of the build, so that the file does not change whenever that version does.

Reading takes lines in any order. Blank ends of lines, blank lines and lines that start with `#`
mean nothing; every other line is an entry, and no two entries may be for the same product.

Two lock texts are compared by their sets of entry lines; the order of the lines, comments and
blank lines make no difference.
-/

namespace ProductLock

/-- The build that a lock file belongs to: the text of its version, and the products that it
publishes. -/
structure Build where
  version : String
  workspace : IdSet := .empty

namespace LockText

def header : String := "# Run `slsdep lock` to regenerate this file"

/-- Stands for the version of the build. -/
def placeholder : String := "$projectVersion"

/-! ## Writing -/

def minimumText (b : Build) (d : Dependency) : String :=
  if b.workspace.contains d.id ∧ d.minimum.text = b.version then placeholder else d.minimum.text

def lineOf (b : Build) (d : Dependency) : String :=
  d.id.text ++ " (" ++ minimumText b d ++ ", " ++ d.maximum.text ++ ")"
    ++ (if d.isOptional then " optional" else "")

def encode (b : Build) (s : DependencySet) : String :=
  let lines := (s.toList.map (lineOf b)).mergeSort fun x y => compare x y != .gt
  String.join ((header :: lines).map (· ++ "\n"))

/-! ## Reading -/

/-- The pieces of an entry line. -/
structure Entry where
  group : String
  name : String
  minimum : String
  maximum : String
  isOptional : Bool
deriving DecidableEq

/-- The characters up to the first that fails `p`, at least one, and what follows them. -/
def run? (p : Char → Bool) (cs : List Char) : Option (String × List Char) :=
  match cs.takeWhile p with
  | [] => none
  | taken => some (String.ofList taken, cs.dropWhile p)

/-- What follows the given text, if that is how the line goes on. -/
def after? (s : String) (cs : List Char) : Option (List Char) :=
  if s.toList.isPrefixOf cs then some (cs.drop s.toList.length) else none

/-- Takes a line apart. No piece holds a blank character or the mark that ends it, so there is only
one way to do so. -/
def Entry.ofLine? (line : List Char) : Option Entry := do
  let (group, cs) ← run? (fun c => c != ':' && !Text.isBlank c) line
  let cs ← after? ":" cs
  let (name, cs) ← run? (fun c => !Text.isBlank c) cs
  let cs ← after? " (" cs
  let (minimum, cs) ← run? (fun c => c != ',' && !Text.isBlank c) cs
  let cs ← after? ", " cs
  let (maximum, cs) ← run? (fun c => c != ')' && !Text.isBlank c) cs
  let cs ← after? ")" cs
  if cs = [] then return ⟨group, name, minimum, maximum, false⟩
  else if cs = " optional".toList then return ⟨group, name, minimum, maximum, true⟩
  else none

def Entry.dependency (b : Build) (e : Entry) : Except Invalid Dependency := do
  let minimum ← Version.read (if e.minimum = placeholder then b.version else e.minimum)
  let maximum ← Bound.read e.maximum
  let d ← Dependency.checked ⟨⟨e.group, e.name⟩, minimum, maximum, none, false⟩
  return d.withOptional e.isOptional

def readLine (b : Build) (line : List Char) : Except LineFault Dependency :=
  match Entry.ofLine? line with
  | none => .error .form
  | some e => (e.dependency b).mapError .entry

/-- A line that stands for a dependency. -/
def isEntryLine (line : List Char) : Bool := line ≠ [] && line.head? != some '#'

/-- The lines of a text without their blank ends. -/
def trimmedLines (s : String) : List (List Char) := (Text.lines s).map Text.trimRight

/-- The entry lines with their numbers, counted from one over all lines. -/
def entryLines (s : String) : List (Nat × List Char) :=
  ((trimmedLines s).zipIdx 1).filterMap fun (line, n) =>
    if isEntryLine line then some (n, line) else none

/-- Files the dependency of one line. -/
def addLine (b : Build) (s : DependencySet) (entry : Nat × List Char) :
    Except ConstraintError DependencySet :=
  let fail (fault : LineFault) := .error (.malformedLine entry.1 (String.ofList entry.2) fault)
  match readLine b entry.2 with
  | .error fault => fail fault
  | .ok d => if s.contains d.id then fail (.duplicate d.id) else .ok (s.insert d)

def decode (b : Build) (text : String) : Except ConstraintError DependencySet :=
  (entryLines text).foldlM (addLine b) {}

/-! ## Comparing -/

/-- The entry lines of a text, each once, in ascending order. -/
def lineSet (text : String) : Catalog fun s : String => s :=
  .ofList (((trimmedLines text).filter isEntryLine).map String.ofList)

/-- The lines to take out and those to put in, each in ascending order. -/
structure Drift where
  removed : List String
  added : List String
deriving DecidableEq

namespace Drift

def between (actual expected : String) : Drift :=
  let old := lineSet actual
  let new := lineSet expected
  ⟨old.toList.filter (!new.contains ·), new.toList.filter (!old.contains ·)⟩

def text (d : Drift) : String :=
  "\n".intercalate (d.removed.map ("  - " ++ ·) ++ d.added.map ("  + " ++ ·))

end Drift

end LockText

end ProductLock
