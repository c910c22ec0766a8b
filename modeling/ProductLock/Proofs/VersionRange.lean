import ProductLock.Dependency

/-!
# Ranges of versions

A range has a lower end and an upper end of different kinds. The lower end is a version and is
compared with all of a version, its suffix included; the upper end is a bound and looks only at the
release that a version builds on. What makes ranges behave like intervals all the same is that
releases sit among the bounds: a release is the bound that pins it, and holding it against a bound
is comparing the two in the order of bounds (`compare_exact`). So a bound admits what lies at or
below it in one linear order (`admits_iff_le`), and a version that goes up never goes down in the
release it builds on (`base_le_base`).
-/

namespace ProductLock

open Std (LawfulOrderOrd IsLinearOrder)

instance : LawfulOrderOrd OrderableVersion where
  isLE_compare _ _ := Iff.rfl
  isGE_compare _ _ := Std.OrientedCmp.isGE_iff_isLE

instance : IsLinearOrder OrderableVersion := .of_ord

namespace Bound

instance : LawfulOrderOrd Bound where
  isLE_compare _ _ := Iff.rfl
  isGE_compare _ _ := Std.OrientedCmp.isGE_iff_isLE

instance : IsLinearOrder Bound := .of_ord

theorem compare_exact {b : Bound} {r : Release} : compare b (.exact r) = b.against r := by
  cases b with
  | any => rfl
  | major a => rfl
  | minor a c =>
      show (compare a r.major).then ((compare c r.minor).then .gt) = _
      rw [against, Ordering.then_assoc]
  | exact q => rfl

theorem admits_iff_le {b : Bound} {r : Release} : b.admits r = true ↔ exact r ≤ b := by
  rw [admits, ← compare_exact, ← LawfulOrderOrd.isGE_compare]
  cases compare b (exact r) <;> decide

/-- What a bound admits, a looser one admits too. -/
theorem admits_of_le {b c : Bound} {r : Release} (h : b ≤ c) (hb : b.admits r = true) :
    c.admits r = true :=
  admits_iff_le.2 (Std.le_trans (admits_iff_le.1 hb) h)

theorem exact_le_exact {r s : Release} : exact r ≤ exact s ↔ (compare r s).isLE = true := Iff.rfl

end Bound

/-- The higher version builds on the higher release. -/
theorem OrderableVersion.base_le_base {v w : OrderableVersion} (h : v ≤ w) :
    Bound.exact v.base ≤ .exact w.base := by
  have h : ((compare v.base w.base).then (compare v.suffix w.suffix)).isLE = true := h
  exact Bound.exact_le_exact.2 (Ordering.isLE_left_of_isLE_then h)

/-- What a bound admits of a version, it admits of every lower one. -/
theorem Bound.admits_base_of_le {b : Bound} {v w : OrderableVersion} (h : v ≤ w)
    (hw : b.admits w.base = true) : b.admits v.base = true :=
  admits_iff_le.2 (Std.le_trans (OrderableVersion.base_le_base h) (admits_iff_le.1 hw))

/-- The version lies in the range that the dependency asks for. A minimum that has no place in the
order leaves no version to be sure of. -/
def Dependency.Allows (d : Dependency) (v : OrderableVersion) : Prop :=
  (∃ m, d.minimum = .orderable m ∧ m ≤ v) ∧ d.maximum.admits v.base = true

end ProductLock
