import ProductLock.DependencySet
import ProductLock.Merge
import ProductLock.Resolution.Report

/-!
# Resolving the dependencies of a product

A product declares dependencies, and the artifacts that it consumes recommend further ones, the
discovered dependencies. Resolving brings them together into one dependency per product.

A candidate is a product that is declared, or that is recommended and marked optional. Candidates
are settled in order of product id, each by merging all that is declared and discovered for it; the
first that cannot be merged ends the resolution. What is recommended but neither declared, optional
nor ignored is an error, since it would be lost without anyone having decided so. A recommendation
of the product itself is dropped beforehand, but a declared dependency of the product on itself is
an error, and comes before all others.
-/

namespace ProductLock

structure Resolver where
  product : ProductId
  ignored : IdSet := .empty
  optional : IdSet := .empty

structure Resolution where
  dependencies : DependencySet
  report : Report
deriving DecidableEq

namespace Resolver

def ids (ds : List Dependency) : IdSet := .ofList (ds.map Dependency.id)

/-- The entries that concern one product, in the order in which they came. -/
def entriesFor (id : ProductId) (ds : List Dependency) : List Dependency :=
  ds.filter fun d => d.id = id

/-- What is recommended of other products. -/
def recommendations (r : Resolver) (discovered : List Dependency) : List Dependency :=
  discovered.filter fun d => d.id ≠ r.product

/-- The smallest product that the policy treats in two ways at once, and which two. -/
def policyConflict? (r : Resolver) (declared : List Dependency) :
    Option (ProductId × PolicyConflict) :=
  (((r.ignored.filter r.optional.contains).toList.head?).map (·, .ignoredAndOptional)).or <|
    (ids declared).toList.findSome? fun id =>
      if r.ignored.contains id then some (id, .declaredAndIgnored)
      else if r.optional.contains id then some (id, .declaredAndOptional)
      else none

/-- What must hold before anything is merged. -/
def checkPolicy (r : Resolver) (declared : List Dependency) : Except ConstraintError Unit := do
  if declared.any (·.id = r.product) then throw (.selfDependency r.product)
  if let some (id, conflict) := r.policyConflict? declared then
    throw (.conflictingPolicy id conflict)

/-- The products that need a dependency. -/
def candidates (r : Resolver) (declared discovered : List Dependency) : List ProductId :=
  let passed := (r.recommendations discovered).filter fun d =>
    r.optional.contains d.id && !r.ignored.contains d.id
  (ids (declared ++ passed)).toList

/-- A candidate's merged dependency, and the note that its declaration is redundant if the
discovered dependencies alone merge into the same. -/
def settle (r : Resolver) (declared discovered : List Dependency) (id : ProductId) :
    Except ConstraintError (Option (Dependency × Option Note)) := do
  let own := entriesFor id declared
  let others := entriesFor id (r.recommendations discovered)
  match own ++ others with
  | [] => return none
  | first :: rest =>
      let merged ← Dependency.mergeAll first rest
      let isOptional := r.optional.contains id || own.any (·.isOptional)
      let note ← match own, others with
        | declaration :: _, recommended :: more => do
            let alone ← Dependency.mergeAll recommended more
            pure (if merged = alone then some (.redundant declaration alone) else none)
        | _, _ => pure none
      return some (merged.withOptional isOptional, note)

/-- The smallest recommended product that is left without a decision. -/
def unaccounted? (r : Resolver) (discovered : List Dependency) (resolved : DependencySet) :
    Option ProductId :=
  (ids (r.recommendations discovered)).toList.find? fun id =>
    !r.ignored.contains id && !resolved.contains id

/-- The products marked optional that nothing recommends. -/
def unusedOptional (r : Resolver) (discovered : List Dependency) : List ProductId :=
  r.optional.toList.filter fun id => !(r.recommendations discovered).any (·.id = id)

def resolve (r : Resolver) (declared discovered : List Dependency) :
    Except ConstraintError Resolution := do
  r.checkPolicy declared
  let settled ← (r.candidates declared discovered).mapM (r.settle declared discovered)
  let settled := settled.filterMap id
  let resolved := DependencySet.ofList (settled.map Prod.fst)
  if let some id := r.unaccounted? discovered resolved then
    throw (.unaccountedRecommendation id)
  let unused := (r.unusedOptional discovered).map .unusedOptional
  return ⟨resolved.withPolicy r.optional r.ignored, ⟨settled.filterMap Prod.snd ++ unused⟩⟩

/-! ## The warnings of a resolution -/

/-- The warnings of settling one candidate. The discovered dependencies are merged on their own
only after the merge of all has succeeded. -/
def settleWarnings (r : Resolver) (declared discovered : List Dependency) (id : ProductId) :
    List Warning :=
  let own := entriesFor id declared
  let others := entriesFor id (r.recommendations discovered)
  match own ++ others with
  | [] => []
  | first :: rest =>
      Dependency.mergeWarnings first rest ++
        match Dependency.mergeAll first rest, own, others with
        | .ok _, _ :: _, recommended :: more => Dependency.mergeWarnings recommended more
        | _, _, _ => []

/-- The warnings of settling candidates one after another, up to the first that fails. -/
def candidateWarnings (r : Resolver) (declared discovered : List Dependency) :
    List ProductId → List Warning
  | [] => []
  | id :: ids =>
      r.settleWarnings declared discovered id ++
        match r.settle declared discovered id with
        | .ok _ => r.candidateWarnings declared discovered ids
        | .error _ => []

def warnings (r : Resolver) (declared discovered : List Dependency) : List Warning :=
  match r.checkPolicy declared with
  | .error _ => []
  | .ok _ =>
      r.candidateWarnings declared discovered (r.candidates declared discovered) ++
        match r.resolve declared discovered with
        | .ok _ => (r.unusedOptional discovered).map .unusedOptional
        | .error _ => []

end Resolver

end ProductLock
