import ProductLock.Catalog
import ProductLock.Dependency

/-!
# Sets of dependencies

One dependency per product, in order of product id, along with the products that the build ignores
and those it treats as optional. A lock file records less than a set holds: `lockView` is the part
that survives being written and read back.
-/

namespace ProductLock

abbrev IdSet := Catalog fun id : ProductId => id

structure DependencySet where
  dependencies : Catalog Dependency.id := .empty
  optional : IdSet := .empty
  ignored : IdSet := .empty
deriving DecidableEq

namespace DependencySet

def toList (s : DependencySet) : List Dependency := s.dependencies.toList

def size (s : DependencySet) : Nat := s.dependencies.size

def isEmpty (s : DependencySet) : Bool := s.dependencies.isEmpty

def find? (s : DependencySet) (id : ProductId) : Option Dependency := s.dependencies.find? id

def contains (s : DependencySet) (id : ProductId) : Bool := s.dependencies.contains id

def insert (s : DependencySet) (d : Dependency) : DependencySet :=
  { s with dependencies := s.dependencies.insert d }

/-- Of two dependencies on one product the later stays. -/
def ofList (ds : List Dependency) : DependencySet := { dependencies := .ofList ds }

def withPolicy (s : DependencySet) (optional ignored : IdSet) : DependencySet :=
  { s with optional, ignored }

/-- What a lock file records: no recommended versions and no policy. -/
def lockView (s : DependencySet) : DependencySet :=
  { dependencies := s.dependencies.map Dependency.withoutRecommended fun _ => rfl }

end DependencySet

end ProductLock
