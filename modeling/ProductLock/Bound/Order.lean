import ProductLock.Bound
import ProductLock.Version.Order

/-!
# Bounds against releases, and against each other

A release is held against a bound number by number. The first number that differs decides, and a
bound that leaves a number open lies above whatever stands there. The suffix of a version never
matters here: a bound speaks of the release that the version builds on.

Two bounds are ordered by how tight they are, the tighter one first, an open number again counting
as infinity.
-/

namespace ProductLock.Bound

open Std (TransCmp TransOrd LawfulEqOrd)

/-- Where the bound lies, seen from a release: above it, level with it, or below it. -/
def against (b : Bound) (r : Release) : Ordering :=
  match b with
  | .any => .gt
  | .major a => (compare a r.major).then .gt
  | .minor a b => ((compare a r.major).then (compare b r.minor)).then .gt
  | .exact q => compare q r

/-- The release does not exceed the bound. -/
def admits (b : Bound) (r : Release) : Bool := b.against r != .lt

/-- Every pinned number is that of the release. -/
def accepts (b : Bound) (r : Release) : Bool :=
  b.major?.all (· == r.major) && b.minor?.all (· == r.minor) && b.patch?.all (· == r.patch)

/-- An open number stands above every pinned one. -/
instance : Ord Bound where
  compare := compareLex (compareLastOn major?)
    (compareLex (compareLastOn minor?) (compareLastOn patch?))

instance : LE Bound := leOfOrd

/-- The tighter of two bounds. -/
def tighter (b c : Bound) : Bound := if compare b c = .gt then c else b

instance : TransOrd Bound :=
  inferInstanceAs (TransCmp (compareLex (compareLastOn major?)
    (compareLex (compareLastOn minor?) (compareLastOn patch?))))

/-- The numbers of a bound, pinned or open, determine it. -/
theorem eq_of_parts {b c : Bound} (h₁ : b.major? = c.major?) (h₂ : b.minor? = c.minor?)
    (h₃ : b.patch? = c.patch?) : b = c := by
  cases b <;> cases c <;> simp_all [major?, minor?, patch?]
  next r s => cases r; cases s; simp_all

instance : LawfulEqOrd Bound where
  eq_of_compare h := by
    obtain ⟨h₁, h⟩ := compareLex_eq_eq.1 h
    obtain ⟨h₂, h₃⟩ := compareLex_eq_eq.1 h
    exact eq_of_parts (compareLast_eq_eq_iff.1 h₁) (compareLast_eq_eq_iff.1 h₂)
      (compareLast_eq_eq_iff.1 h₃)

end ProductLock.Bound
