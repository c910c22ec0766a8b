import ProductLock.Toml.Table
import ProductLock.Toml.Text
import ProductLock.Toml.Word

/-!
# Keys and values in TOML

A value is a text, a word, a list in brackets or a table in braces. Lists and braces may nest, but
only so deep: that limit is part of the format as it is read here, and it is also what the reading
of a value recurses on. Within one list or one pair of braces each turn of the loop takes at least a
character.
-/

namespace ProductLock.Toml

/-- How deep lists and braces may nest, and how many parts a dotted key may have. -/
def nestingLimit : Nat := 79

/-! ## Keys -/

def isKeyChar (c : Char) : Bool := c.isAlphanum || c == '-' || c == '_'

/-- One part of a key: bare, or a text on one line. -/
def keyPart? (cs : List Char) : Option (String × List Char) :=
  match cs.takeWhile isKeyChar with
  | [] => (textLine? cs).map fun (key, rest) => (String.ofList key, rest)
  | key => some (String.ofList key, cs.dropWhile isKeyChar)

/-- The parts of a key with dots between them, and what follows the blanks after it. -/
def keyParts? (cs : List Char) : Option (List String × List Char) := do
  let (part, rest) ← keyPart? (skipBlanks cs)
  match skipBlanks rest with
  | '.' :: more =>
      if more.length < cs.length then
        let (parts, rest) ← keyParts? more
        return (part :: parts, rest)
      else none
  | rest => return ([part], rest)
termination_by cs.length

def key? (cs : List Char) : Option (List String × List Char) := do
  let (parts, rest) ← keyParts? cs
  if parts.length ≤ nestingLimit then return (parts, rest) else none

/-! ## What stands between values -/

/-- Drops blanks, line feeds and comments. -/
def skipGaps (inComment : Bool) : List Char → List Char
  | [] => []
  | '\r' :: '\n' :: cs => skipGaps false cs
  | c :: cs =>
      if c = '\n' then skipGaps false cs
      else if inComment then if isPlain c then skipGaps true cs else c :: cs
      else if isBlank c then skipGaps false cs
      else if c = '#' then skipGaps true cs
      else c :: cs

/-! ## Values -/

/-- Reads something from the front of a text. -/
abbrev Reader (α : Type) := List Char → Option (α × List Char)

/-- The items of a list after its opening bracket, a comma after each but perhaps the last. -/
def items? (item : Reader Document) (cs : List Char) : Option (List Document × List Char) :=
  match skipGaps false cs with
  | ']' :: rest => some ([], rest)
  | start => do
      let (d, rest) ← item start
      match skipGaps false rest with
      | ']' :: rest => return ([d], rest)
      | ',' :: more =>
          if more.length < cs.length then
            let (ds, rest) ← items? item more
            return (d :: ds, rest)
          else none
      | _ => none
termination_by cs.length

/-- A key, split into the path to a table and the last part, and its value. -/
structure Pair where
  path : List String
  key : String
  value : Document

def pair? (value : Reader Document) : Reader Pair := fun cs => do
  let (parts, rest) ← key? cs
  match parts.getLast?, rest with
  | some key, '=' :: rest =>
      let (d, rest) ← value (skipBlanks rest)
      return (⟨parts.dropLast, key, d⟩, rest)
  | _, _ => none

/-- The pairs in braces after a first one, with commas between them and none after the last. -/
def pairs? (pair : Reader Pair) (cs : List Char) : Option (List Pair × List Char) := do
  let (p, rest) ← pair cs
  match skipBlanks rest with
  | '\x7d' :: rest => return ([p], rest)
  | ',' :: more =>
      if more.length < cs.length then
        let (ps, rest) ← pairs? pair more
        return (p :: ps, rest)
      else none
  | _ => none
termination_by cs.length

def ofPairs? (pairs : List Pair) : Option Document := do
  let members ← pairs.foldlM (fun m p => Members.assign p.path p.key p.value m) []
  return .record (documents members)

def value? : Nat → Reader Document
  | _, [] => none
  | 0, '[' :: _ | 0, '\x7b' :: _ => none
  | depth + 1, '[' :: cs => (items? (value? depth) cs).map fun (ds, rest) => (.list ds, rest)
  | depth + 1, '\x7b' :: cs =>
      match skipBlanks cs with
      | '\x7d' :: rest => some (.record [], rest)
      | _ => do
          let (ps, rest) ← pairs? (pair? (value? depth)) cs
          return (← ofPairs? ps, rest)
  | _, c :: cs =>
      if c = '\x22' ∨ c = '\x27' then
        (text? (c :: cs)).map fun (t, rest) => (.text (String.ofList t), rest)
      else word? (c :: cs)

end ProductLock.Toml
