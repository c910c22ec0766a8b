import ProductLock.Document

/-!
# Tables while they are being written

A TOML document defines its tables piece by piece. A table may be opened by a header, implied by the
header of a table inside it, or made by a dotted key; and a list of tables grows by one at each of
its headers. What may still be added to a table depends on how it came about: a header may open a
table that was only implied, a dotted key may extend what dotted keys made, and nothing may define
the same key twice. A value, be it a list or a table in braces, is closed as it stands.
-/

namespace ProductLock.Toml

/-- How a table came about. -/
inductive Origin
  | header
  | implied
  | dotted
deriving DecidableEq

inductive Node
  | value (d : Document)
  | table (origin : Origin) (members : List (String × Node))
  /-- The tables of a list, in order. -/
  | tables (elements : List (List (String × Node)))

abbrev Members := List (String × Node)

mutual

def Node.document : Node → Document
  | .value d => d
  | .table _ members => .record (documents members)
  | .tables elements => .list (records elements)

/-- The members of a table with their values. -/
def documents : List (String × Node) → List (Option String × Document)
  | [] => []
  | (name, node) :: members => (some name, node.document) :: documents members

def records : List (List (String × Node)) → List Document
  | [] => []
  | members :: elements => .record (documents members) :: records elements

end

namespace Members

/-- Puts a node under a key, in place of what is there. -/
def set (key : String) (node : Node) : Members → Members
  | [] => [(key, node)]
  | (k, n) :: rest => if k = key then (key, node) :: rest else (k, n) :: set key node rest

/-- The node at the end of a path, if the way to it leads through tables. A list of tables is
entered at its last one. -/
def nodeAt? : List String → Members → Option (Option Node)
  | [], _ => some none
  | [key], members => some (members.lookup key)
  | key :: path, members =>
      match members.lookup key with
      | none => some none
      | some (.table _ inner) => nodeAt? path inner
      | some (.tables elements) => nodeAt? path (elements.getLast?.getD [])
      | some (.value _) => none

/-- Changes the table at the end of a path. Tables missing on the way come about as `origin` says;
a dotted key enters no table that has a header. -/
def update (origin : Origin) (change : Origin → Members → Option Members) :
    List String → Origin → Members → Option Members
  | [], here, members => change here members
  | key :: path, _, members =>
      match members.lookup key with
      | none => do
          return members.set key (.table origin (← update origin change path origin []))
      | some (.table o inner) =>
          if origin = .dotted ∧ o = .header then none
          else do return members.set key (.table o (← update origin change path o inner))
      | some (.tables elements) => do
          let last ← update origin change path .header (elements.getLast?.getD [])
          return members.set key (.tables (elements.dropLast ++ [last]))
      | some (.value _) => none

/-- Gives a key a value. A dotted key ends in a table that dotted keys made. -/
def assign (path : List String) (key : String) (d : Document) (members : Members) :
    Option Members :=
  let change (here : Origin) (inner : Members) : Option Members :=
    if (path ≠ [] ∧ here ≠ .dotted) ∨ (inner.lookup key).isSome then none
    else some (inner.set key (.value d))
  members.update .dotted change path .header

end Members

end ProductLock.Toml
