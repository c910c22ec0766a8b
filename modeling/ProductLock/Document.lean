/-!
# Structured values

What a structured text says, whatever format it is written in: texts, flags, lists, and records
with named members.

A record of a known kind is read by the names of its fields. It may also be given as a list of its
fields in their order. Members under other names are passed over, but a name that a known kind
looks for may be there only once.
-/

namespace ProductLock

inductive Document
  | null
  | flag (value : Bool)
  | text (value : String)
  /-- What nothing reads: a number, or a text that is not made of characters. -/
  | other
  | list (items : List Document)
  /-- A member whose name is not made of characters has none. -/
  | record (members : List (Option String × Document))

namespace Document

def text? : Document → Option String
  | .text s => some s
  | _ => none

def flag? : Document → Option Bool
  | .flag b => some b
  | _ => none

def list? : Document → Option (List Document)
  | .list l => some l
  | _ => none

def texts? (d : Document) : Option (List String) := do
  (← d.list?).mapM text?

/-- What a record holds under each of the names. Read as a list of fields, it may go on after the
last of them only where `more` allows it. -/
def fields? (more : Bool) (names : List String) : Document → Option (List (Option Document))
  | .record members =>
      if members.all (·.1.isSome) && names.all fun n => members.countP (·.1 == some n) ≤ 1 then
        some (names.map fun n => members.lookup (some n))
      else none
  | .list items =>
      if more || items.length ≤ names.length then
        some (names.zipIdx.map fun (_, i) => items[i]?)
      else none
  | _ => none

/-! ## Fields that may be missing -/

/-- A field that may be missing, where a null says the same. -/
def optionalText? : Option Document → Option (Option String)
  | none | some .null => some none
  | some d => d.text?.map some

/-- A field that takes a value of its own when it is missing. -/
def orElse? {α : Type} (default : α) (read : Document → Option α) : Option Document → Option α
  | none => some default
  | some d => read d

end Document

end ProductLock
