import ProductLock.Bound
import ProductLock.ConstraintError

/-!
# Building dependencies

A dependency is only ever built through `checked`, which refuses one that breaks a rule. From texts
it is built in one of three ways, which differ in what the maximum may be and in which of several
bad texts is reported: the versions are read in a fixed order and the first that cannot be read
ends the building.
-/

namespace ProductLock

def Version.read (s : String) : Except Invalid Version :=
  (Version.read? s).elim (.error (.version s)) .ok

def Bound.read (s : String) : Except Invalid Bound :=
  (Bound.read? s).elim (.error (.bound s)) .ok

def Bound.readWildcard (s : String) : Except Invalid Bound :=
  (Bound.readWildcard? s).elim (.error (.bound s)) .ok

def ProductId.read (s : String) : Except Invalid ProductId :=
  (ProductId.read? s).elim (.error (.productId s)) .ok

def Version.readOptional (s : Option String) : Except Invalid (Option Version) :=
  match s with
  | some s => (Version.read s).map some
  | none => .ok none

namespace Dependency

/-- The dependency itself, unless it breaks a rule. -/
def checked (d : Dependency) : Except Invalid Dependency :=
  match d.violation? with
  | some v => .error (.dependency d.id v)
  | none => .ok d

/-- The texts a dependency is built from. -/
structure Source where
  group : String
  name : String
  minimum : String
  maximum : Option String := none
  recommended : Option String := none

namespace Source

def id (s : Source) : ProductId := ⟨s.group, s.name⟩

/-- The dependency that the texts spell out, not checked yet. Without a maximum the minimum's major
number is pinned. -/
def parts (s : Source) : Except Invalid Dependency := do
  let minimum ← Version.read s.minimum
  let maximum ← match s.maximum with
    | some m => Bound.read m
    | none => pure (.major minimum.base.major)
  return ⟨s.id, minimum, maximum, ← Version.readOptional s.recommended, false⟩

def dependency (s : Source) : Except Invalid Dependency := s.parts.bind checked

end Source

end Dependency

end ProductLock
