import ProductLock.AbsentLast
import ProductLock.Version

/-!
# The order of versions

Orderable versions are compared by the release they build on, then by their suffix. At one release
a build past a tag comes first, then the release candidates, then the release itself; among
candidates of one number the builds past it come before the candidate. Freeform versions take no
part: comparing with one gives no answer.

Each order compares the parts of a value one after another, and the parts determine the value, so
all of them are linear orders.
-/

namespace ProductLock

open Std (TransCmp TransOrd LawfulEqOrd)

instance : Ord Release where
  compare := compareLex (compareOn Release.major)
    (compareLex (compareOn Release.minor) (compareOn Release.patch))

instance : Ord Revision where
  compare := compareLex (compareOn Revision.commits) (compareOn Revision.hash)

namespace Suffix

/-- The kinds of suffix in ascending order. -/
def rank : Suffix → Nat
  | .revision _ => 0
  | .candidate .. => 1
  | .release => 2

/-- The candidate number, where there is one. -/
def number : Suffix → UInt32
  | .candidate n _ => n
  | .revision _ | .release => 0

/-- What is not a build past a candidate stands above all that are. -/
instance : Ord Suffix where
  compare := compareLex (compareOn rank) (compareLex (compareOn number) (compareLastOn revision?))

end Suffix

instance : Ord OrderableVersion where
  compare := compareLex (compareOn OrderableVersion.base) (compareOn OrderableVersion.suffix)

instance : LE OrderableVersion := leOfOrd

/-- The order of two versions, if both have a place in it. -/
def Version.compare? : Version → Version → Option Ordering
  | .orderable v, .orderable w => some (compare v w)
  | _, _ => none

/-! ## These orders are linear -/

instance : TransOrd Release :=
  inferInstanceAs (TransCmp (compareLex (compareOn Release.major)
    (compareLex (compareOn Release.minor) (compareOn Release.patch))))

instance : TransOrd Revision :=
  inferInstanceAs (TransCmp (compareLex (compareOn Revision.commits) (compareOn Revision.hash)))

instance : TransOrd Suffix :=
  inferInstanceAs (TransCmp (compareLex (compareOn Suffix.rank)
    (compareLex (compareOn Suffix.number) (compareLastOn Suffix.revision?))))

instance : TransOrd OrderableVersion :=
  inferInstanceAs (TransCmp (compareLex (compareOn OrderableVersion.base)
    (compareOn OrderableVersion.suffix)))

instance : LawfulEqOrd Release where
  eq_of_compare {r s} h := by
    obtain ⟨h₁, h⟩ := compareLex_eq_eq.1 h
    obtain ⟨h₂, h₃⟩ := compareLex_eq_eq.1 h
    have h₁ : r.major = s.major := LawfulEqOrd.eq_of_compare h₁
    have h₂ : r.minor = s.minor := LawfulEqOrd.eq_of_compare h₂
    have h₃ : r.patch = s.patch := LawfulEqOrd.eq_of_compare h₃
    cases r; cases s; simp_all

instance : LawfulEqOrd Revision where
  eq_of_compare {r s} h := by
    obtain ⟨h₁, h₂⟩ := compareLex_eq_eq.1 h
    have h₁ : r.commits = s.commits := LawfulEqOrd.eq_of_compare h₁
    have h₂ : r.hash = s.hash := LawfulEqOrd.eq_of_compare h₂
    cases r; cases s; simp_all

instance : LawfulEqOrd Suffix where
  eq_of_compare {s t} h := by
    obtain ⟨h₁, h⟩ := compareLex_eq_eq.1 h
    obtain ⟨h₂, h₃⟩ := compareLex_eq_eq.1 h
    have h₁ : s.rank = t.rank := LawfulEqOrd.eq_of_compare h₁
    have h₂ : s.number = t.number := LawfulEqOrd.eq_of_compare h₂
    have h₃ : s.revision? = t.revision? := compareLast_eq_eq_iff.1 h₃
    cases s <;> cases t <;> simp_all [Suffix.rank, Suffix.number, Suffix.revision?]

instance : LawfulEqOrd OrderableVersion where
  eq_of_compare {v w} h := by
    obtain ⟨h₁, h₂⟩ := compareLex_eq_eq.1 h
    have h₁ : v.base = w.base := LawfulEqOrd.eq_of_compare h₁
    have h₂ : v.suffix = w.suffix := LawfulEqOrd.eq_of_compare h₂
    cases v; cases w; simp_all

end ProductLock
