import ProductLock.Catalog
import ProductLock.Dependency.Reading

/-!
# Merging dependencies on one product

Several dependencies on one product are merged into the intersection of their ranges: the highest
minimum, the tightest maximum, and the highest recommendation that fits both, or the minimum where
none does. All are merged in one pass. Merging two at a time could drop a recommendation that only
a later, tighter maximum lets through.

A minimum outside the order gives way to any that has a place in it. Where none has, all must be
the same text, because there is no saying which of two is higher.

Every choice is made by a total order: by version or bound first, then by the text of the
dependency, so that the outcome, error or not, does not depend on the order of the inputs.
-/

namespace ProductLock

/-- The first of the least items. -/
def leastBy {α : Type} (cmp : α → α → Ordering) (a : α) (l : List α) : α :=
  l.foldl (fun least b => if cmp b least = .lt then b else least) a

namespace Dependency

/-- Highest orderable minimum first, then by text. -/
def compareLower (a b : OrderableVersion × Dependency) : Ordering :=
  (compare b.1 a.1).then (compare a.2.text b.2.text)

/-- Tightest maximum first, then by text. -/
def compareUpper (a b : Dependency) : Ordering :=
  (compare a.maximum b.maximum).then (compare a.text b.text)

/-- The minimums that have a place in the order, with their dependencies, the last one first. -/
def orderableMinimums (ds : List Dependency) : List (OrderableVersion × Dependency) :=
  (ds.filterMap fun d => d.minimum.orderable?.map (·, d)).reverse

/-- The texts of the minimums, each once, in ascending order. -/
def minimumTexts (ds : List Dependency) : List String :=
  (Catalog.ofList (ds.map (·.minimum.text)) : Catalog fun s : String => s).toList

/-- The dependency whose minimum is the merged one. Of several that are level even in their text it
is the last. -/
def lower (first : Dependency) (rest : List Dependency) : Except ConstraintError Dependency :=
  match orderableMinimums (first :: rest) with
  | d :: ds => .ok (leastBy compareLower d ds).2
  | [] =>
      match minimumTexts (first :: rest) with
      | [_] => .ok first
      | texts => .error (.ambiguousMinimum first.id texts)

/-- The dependency whose maximum is the merged one. -/
def upper (first : Dependency) (rest : List Dependency) : Dependency :=
  leastBy compareUpper first rest

/-- The version lies in the range; a minimum outside the order excludes nothing. -/
def inRange (minimum : Version) (maximum : Bound) (v : OrderableVersion) : Bool :=
  (match minimum.orderable? with
    | some m => compare v m != .lt
    | none => true) && maximum.admits v.base

/-- The highest recommendation in the range, or else the minimum. -/
def recommendation (minimum : Version) (maximum : Bound) (ds : List Dependency) : Version :=
  let offers := ds.filterMap fun d => d.recommended.bind Version.orderable?
  match offers.filter (inRange minimum maximum) with
  | v :: vs => .orderable (leastBy (fun a b => compare b a) v vs)
  | [] => minimum

/-- The merged dependency, not checked yet. -/
def mergedParts (first : Dependency) (rest : List Dependency) :
    Except ConstraintError Dependency := do
  if let some other := rest.find? (·.id ≠ first.id) then
    throw (.mismatchedProduct first.id other.id)
  let lower ← lower first rest
  let upper := upper first rest
  if upper.maximum.admits lower.minimum.base then
    return ⟨first.id, lower.minimum, upper.maximum,
      some (recommendation lower.minimum upper.maximum (first :: rest)), false⟩
  else
    throw (.disjointRanges first.id lower upper lower.minimum upper.maximum)

def mergeAll (first : Dependency) (rest : List Dependency) : Except ConstraintError Dependency :=
  (mergedParts first rest).bind fun d => d.checked.mapError .invalid

def merge (a b : Dependency) : Except ConstraintError Dependency := mergeAll a [b]

/-- What checking the merged dependency leaves open. -/
def mergeWarnings (first : Dependency) (rest : List Dependency) : List Warning :=
  match mergedParts first rest with
  | .ok d => d.warnings
  | .error _ => []

end Dependency

end ProductLock
