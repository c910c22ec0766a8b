import ProductLock.Toml.Value

/-!
# Reading TOML

A TOML text is a sequence of statements, one to a line: a key with its value, or the header of a
table or of the next table of a list. Statements are read first and then applied one after another.
While a header is in force its table is kept apart and joined to the document when the next header
comes, or the end.
-/

namespace ProductLock.Toml

inductive Statement
  | pair (pair : Pair)
  | table (path : List String)
  | element (path : List String)

/-! ## Reading statements -/

/-- What follows the end of a line, before which there may be blanks and a comment. -/
def lineEnd? (cs : List Char) : Option (List Char) :=
  let rest := match skipBlanks cs with
    | '#' :: cs => cs.dropWhile isPlain
    | cs => cs
  if rest = [] then some [] else lineFeed? rest

def statement? : Reader Statement
  | '[' :: '[' :: cs => do
      match ← key? cs with
      | (path, ']' :: ']' :: rest) => return (.element path, rest)
      | _ => none
  | '[' :: cs => do
      match ← key? cs with
      | (path, ']' :: rest) => return (.table path, rest)
      | _ => none
  | cs => do
      let (p, rest) ← pair? (value? nestingLimit) cs
      return (.pair p, rest)

/-- A line that says nothing. -/
def isEmptyLine : List Char → Bool
  | '#' :: _ | '\n' :: _ | '\r' :: _ => true
  | _ => false

def statements? (cs : List Char) : Option (List Statement) :=
  match skipBlanks cs with
  | [] => some []
  | start => do
      let (found, rest) ←
        if isEmptyLine start then some ([], start)
        else (statement? start).map fun (s, rest) => ([s], rest)
      let next ← lineEnd? rest
      if next.length < cs.length then return found ++ (← statements? next) else none
termination_by cs.length

/-! ## Applying statements -/

/-- The header in force. -/
inductive Header
  | none
  | table (path : List String)
  | element (path : List String)

/-- A document with the table of the header in force kept apart. -/
structure Draft where
  root : Members := []
  header : Header := .none
  current : Members := []

namespace Draft

/-- Changes what stands under the last part of a path. -/
def place (root : Members) (path : List String) (node : Option Node → Option Node) :
    Option Members := do
  let key ← path.getLast?
  let change (_ : Origin) (members : Members) : Option Members := do
    return members.set key (← node (members.lookup key))
  root.update .implied change path.dropLast .header

/-- Joins the table of the header in force to the document. -/
def close (d : Draft) : Option Members :=
  match d.header with
  | .none => some d.current
  | .table path => place d.root path fun _ => some (.table .header d.current)
  | .element path => place d.root path fun
    | none => some (.tables [d.current])
    | some (.tables elements) => some (.tables (elements ++ [d.current]))
    | some _ => none

def apply (d : Draft) : Statement → Option Draft
  | .pair p => do return { d with current := ← d.current.assign p.path p.key p.value }
  | .table path => do
      let root ← d.close
      match ← root.nodeAt? path with
      | none => return ⟨root, .table path, []⟩
      | some (.table .implied members) => return ⟨root, .table path, members⟩
      | some _ => none
  | .element path => do
      let root ← d.close
      match ← root.nodeAt? path with
      | none | some (.tables _) => return ⟨root, .element path, []⟩
      | some _ => none

end Draft

def ofStatements? (statements : List Statement) : Option Document := do
  let draft ← statements.foldlM Draft.apply {}
  return .record (documents (← draft.close))

/-- A byte order mark may stand before the text. -/
def read? (s : String) : Option Document :=
  let cs := match s.toList with
    | '\uFEFF' :: cs => cs
    | cs => cs
  (statements? cs).bind ofStatements?

end ProductLock.Toml
