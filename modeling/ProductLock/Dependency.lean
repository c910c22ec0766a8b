import ProductLock.Bound.Order
import ProductLock.ProductId
import ProductLock.Text

/-!
# Dependencies

A dependency asks for a product in a range of versions: at least the minimum, within the maximum,
and preferably the recommended version if there is one. It may be optional.

Not every such value makes sense. `violation?` names the first rule that a dependency breaks, in the
order in which the rules are checked: the names, then the range, then the recommendation. A version
outside the order is checked against the maximum by the release it builds on, and cannot be checked
against another version; each such gap is a warning. Optionality takes part in no rule.
-/

namespace ProductLock

structure Dependency where
  id : ProductId
  minimum : Version
  maximum : Bound
  recommended : Option Version
  isOptional : Bool
deriving DecidableEq

namespace Dependency

def text (d : Dependency) : String :=
  d.id.text ++ " (" ++ d.minimum.text ++ ", " ++ d.maximum.text ++ ")"
    ++ (match d.recommended with
      | some r => " recommended " ++ r.text
      | none => "")
    ++ (if d.isOptional then " optional" else "")

def withOptional (d : Dependency) (isOptional : Bool) : Dependency := { d with isOptional }

def withoutRecommended (d : Dependency) : Dependency := { d with recommended := none }

/-- The two names that make up a product id. -/
inductive Part
  | group
  | name
deriving DecidableEq

def Part.text : Part → String
  | .group => "group"
  | .name => "name"

/-- A rule that a dependency breaks. -/
inductive Violation
  | empty (part : Part)
  | blank (part : Part)
  | colonInGroup
  | lockstep (version : Version)
  | minimumAbove (minimum : Version) (maximum : Bound)
  | recommendedBelow (recommended minimum : Version)
  | recommendedAbove (recommended : Version) (maximum : Bound)
deriving DecidableEq

def Violation.message : Violation → String
  | .empty p => p.text ++ " must not be empty"
  | .blank p => p.text ++ " must not contain whitespace"
  | .colonInGroup => "group must not contain ':'"
  | .lockstep v => "minimum and maximum versions must differ (both " ++ v.text
      ++ "); lockstep dependencies are not supported"
  | .minimumAbove v b =>
      "minimum version " ++ v.text ++ " is greater than maximum version " ++ b.text
  | .recommendedBelow r v =>
      "recommended version " ++ r.text ++ " is lower than minimum version " ++ v.text
  | .recommendedAbove r b =>
      "recommended version " ++ r.text ++ " is greater than maximum version " ++ b.text

def partViolation? (part : Part) (s : String) : Option Violation :=
  if s.isEmpty then some (.empty part)
  else if s.toList.any Text.isBlank then some (.blank part)
  else none

def nameViolation? (id : ProductId) : Option Violation :=
  (partViolation? .group id.group).or <|
    (partViolation? .name id.name).or <|
      if ':' ∈ id.group.toList then some .colonInGroup else none

def rangeViolation? (d : Dependency) : Option Violation :=
  if d.minimum.text = d.maximum.text then some (.lockstep d.minimum)
  else if d.maximum.admits d.minimum.base then none
  else some (.minimumAbove d.minimum d.maximum)

def recommendedViolation? (d : Dependency) : Option Violation :=
  d.recommended.bind fun r =>
    if r.compare? d.minimum = some .lt then some (.recommendedBelow r d.minimum)
    else if d.maximum.admits r.base then none
    else some (.recommendedAbove r d.maximum)

/-- The first rule that the dependency breaks. -/
def violation? (d : Dependency) : Option Violation :=
  (nameViolation? d.id).or (d.rangeViolation?.or d.recommendedViolation?)

def isValid (d : Dependency) : Bool := d.violation?.isNone

end Dependency

/-! ## Warnings -/

inductive Warning
  | unorderedMinimum (id : ProductId) (minimum : Version)
  | unorderedRecommendation (id : ProductId) (recommended minimum : Version)
  | unusedOptional (id : ProductId)
deriving DecidableEq

def Warning.message : Warning → String
  | .unorderedMinimum id v => id.text ++ ": minimum version " ++ v.text
      ++ " is not orderable, checking major.minor.patch only"
  | .unorderedRecommendation id r v => id.text ++ ": cannot order recommended version " ++ r.text
      ++ " against minimum version " ++ v.text
  | .unusedOptional id => id.text ++ " is marked optional but no dependency recommends it"

/-- The gaps met while checking a dependency, up to the first rule it breaks. -/
def Dependency.warnings (d : Dependency) : List Warning :=
  if (nameViolation? d.id).isSome ∨ d.rangeViolation?.isSome then []
  else
    (if d.minimum.isOrderable then [] else [.unorderedMinimum d.id d.minimum])
      ++ (match d.recommended with
        | some r =>
            if (r.compare? d.minimum).isNone then [.unorderedRecommendation d.id r d.minimum]
            else []
        | none => [])

end ProductLock
