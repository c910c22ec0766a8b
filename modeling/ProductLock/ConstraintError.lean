import ProductLock.Dependency

/-!
# What can go wrong with dependencies

Every way in which reading, checking, merging or resolving dependencies can fail. An error holds
the values that caused it; its wording is `message`, and `help` says what to do about it where there
is something to be done.
-/

namespace ProductLock

inductive PolicyConflict
  | ignoredAndOptional
  | declaredAndIgnored
  | declaredAndOptional
deriving DecidableEq

def PolicyConflict.message : PolicyConflict → String
  | .ignoredAndOptional => "marked both ignored and optional"
  | .declaredAndIgnored => "declared as a dependency but also ignored"
  | .declaredAndOptional => "declared as a dependency but also listed as optional; "
      ++ "mark the declaration itself optional instead"

/-- What is wrong with one value read from text. -/
inductive Invalid
  | version (text : String)
  | bound (text : String)
  | productId (text : String)
  | dependency (id : ProductId) (violation : Dependency.Violation)
deriving DecidableEq

def Invalid.message : Invalid → String
  | .version s => "Invalid version '" ++ s ++ "'"
  | .bound s => "Invalid version matcher '" ++ s ++ "'"
  | .productId s => "Invalid product id '" ++ s ++ "'"
  | .dependency id v => "Invalid product dependency on " ++ id.text ++ ": " ++ v.message

def Invalid.help? : Invalid → Option String
  | .version _ =>
      some "Versions take the form 1.2.3, 1.2.3-rc4, 1.2.3-5-gabc123 or 1.2.3-foo.dirty"
  | .bound _ => some "Matchers take the form 1.2.x, 1.x.x or x.x.x"
  | .productId _ => some "Product ids take the form group:name"
  | .dependency .. => none

/-- What is wrong with one line of a lock file. -/
inductive LineFault
  | form
  | entry (error : Invalid)
  | duplicate (id : ProductId)
deriving DecidableEq

def LineFault.message : LineFault → String
  | .form => "expected `group:name (minimum, maximum)[ optional]`"
  | .entry e => e.message
  | .duplicate id => "duplicate entry for " ++ id.text

inductive ConstraintError
  | invalid (error : Invalid)
  | mismatchedProduct (first second : ProductId)
  | disjointRanges (id : ProductId) (lower upper : Dependency) (minimum : Version)
      (maximum : Bound)
  | ambiguousMinimum (id : ProductId) (minimums : List String)
  | selfDependency (id : ProductId)
  | conflictingPolicy (id : ProductId) (conflict : PolicyConflict)
  | unaccountedRecommendation (id : ProductId)
  | malformedLine (number : Nat) (line : String) (fault : LineFault)
deriving DecidableEq

namespace ConstraintError

def message : ConstraintError → String
  | .invalid e => e.message
  | .mismatchedProduct a b =>
      "Cannot merge dependencies on different products: " ++ a.text ++ " and " ++ b.text
  | .disjointRanges id lower upper v b =>
      "Dependency on " ++ id.text ++ " has no version satisfying both " ++ lower.text ++ " and "
        ++ upper.text ++ " (computed minimum " ++ v.text ++ " is above computed maximum " ++ b.text
        ++ ")"
  | .ambiguousMinimum id vs =>
      "Cannot choose a minimum version of " ++ id.text ++ " among non-orderable versions "
        ++ ", ".intercalate vs
  | .selfDependency id => "Product " ++ id.text ++ " must not declare a dependency on itself"
  | .conflictingPolicy id c => "Conflicting policy for " ++ id.text ++ ": " ++ c.message
  | .unaccountedRecommendation id =>
      id.text ++ " is recommended by a dependency but neither declared, ignored nor marked optional"
  | .malformedLine n line fault =>
      "Malformed lock file line " ++ toString n ++ " '" ++ line ++ "': " ++ fault.message

def help? : ConstraintError → Option String
  | .invalid e => e.help?
  | .disjointRanges id .. =>
      some ("Two dependents require incompatible version ranges of " ++ id.text)
  | .ambiguousMinimum id _ => some ("Declare an orderable minimum version for " ++ id.text)
  | .unaccountedRecommendation id =>
      some ("Declare a product dependency on " ++ id.text
        ++ ", or add it to `policy.ignored` or `policy.optional`")
  | .malformedLine .. => some "Run `slsdep lock` to regenerate the lock file"
  | .mismatchedProduct .. | .selfDependency _ | .conflictingPolicy .. => none

end ConstraintError

end ProductLock
