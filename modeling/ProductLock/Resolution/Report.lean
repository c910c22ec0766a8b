import ProductLock.Dependency

/-!
# Suggestions

What a resolution noticed that is no error: a declaration that the discovered dependencies make
needless, and a product marked optional that nothing recommends.
-/

namespace ProductLock

inductive Note
  | redundant (declared discovered : Dependency)
  | unusedOptional (id : ProductId)
deriving DecidableEq

def Note.text : Note → String
  | .redundant declared discovered =>
      declared.id.text ++ ": declaration " ++ declared.text
        ++ " can be removed, discovered dependencies already require " ++ discovered.text
  | .unusedOptional id => id.text ++ ": marked optional but not recommended by any dependency"

structure Report where
  notes : List Note
deriving DecidableEq

namespace Report

def isEmpty (r : Report) : Bool := r.notes.isEmpty

/-- The declarations that can be removed. -/
def redundant (r : Report) : List Dependency :=
  r.notes.filterMap fun
    | .redundant declared _ => some declared
    | .unusedOptional _ => none

def text (r : Report) : String :=
  if r.isEmpty then "No suggestions."
  else "Suggestions (" ++ toString r.notes.length ++ "):\n"
    ++ String.join (r.notes.map fun n => "  " ++ n.text ++ "\n")

end Report

end ProductLock
