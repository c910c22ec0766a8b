import ProductLock.Document
import ProductLock.Json.Token

/-!
# Reading JSON

Tokens are taken from left to right by a machine that remembers what is still open: the lists and
records around the place it has reached, innermost first, each with what it holds so far. There is
no limit to how deep a text may nest.

The machine is a fold over the tokens, so it ends on every text, and what it has taken never has to
be looked at again.
-/

namespace ProductLock.Json

/-- A list or a record that is still open. A record waits for the value of its last name. -/
inductive Frame
  | list (items : List Document)
  | record (members : List (Option String × Document)) (name : Option String)

/-- What may come next. -/
inductive State
  /-- A value, or the end of a list just begun. -/
  | value (mayEnd : Bool) (outer : List Frame)
  /-- A name, or the end of a record just begun. -/
  | name (mayEnd : Bool) (members : List (Option String × Document)) (outer : List Frame)
  | colon (members : List (Option String × Document)) (name : Option String) (outer : List Frame)
  /-- A comma, or the end of what is open. -/
  | rest (frame : Frame) (outer : List Frame)
  | done (value : Document)

/-- Puts a whole value where it belongs. -/
def complete (d : Document) : List Frame → State
  | [] => .done d
  | .list items :: outer => .rest (.list (items ++ [d])) outer
  | .record members name :: outer => .rest (.record (members ++ [(name, d)]) none) outer

/-- A value that is one token. -/
def scalar? : Token → Option Document
  | .text (some s) => some (.text s)
  | .text none | .number => some .other
  | .null => some .null
  | .flag b => some (.flag b)
  | _ => none

def step : State → Token → Option State
  | .value mayEnd outer, t =>
      match t, outer with
      | .beginList, _ => some (.value true (.list [] :: outer))
      | .beginRecord, _ => some (.name true [] outer)
      | .endList, .list [] :: above => if mayEnd then some (complete (.list []) above) else none
      | t, _ => (scalar? t).map (complete · outer)
  | .name mayEnd members outer, t =>
      match t with
      | .text s => some (.colon members s outer)
      | .endRecord => if mayEnd then some (complete (.record members) outer) else none
      | _ => none
  | .colon members name outer, .colon => some (.value false (.record members name :: outer))
  | .rest (.list items) outer, .comma => some (.value false (.list items :: outer))
  | .rest (.list items) outer, .endList => some (complete (.list items) outer)
  | .rest (.record members _) outer, .comma => some (.name false members outer)
  | .rest (.record members _) outer, .endRecord => some (complete (.record members) outer)
  | _, _ => none

def read? (s : String) : Option Document := do
  match ← (← tokens? s.toList).foldlM step (.value false []) with
  | .done d => return d
  | _ => none

end ProductLock.Json
