import ProductLock.Proofs.VersionRange

/-!
# Which of two versions comes first

The order of versions goes by the release first and by the suffix second, and the suffix by its
kind before anything else (`Suffix.compare_of_rank_lt`). Within a kind, candidates go by their
number and then by the build past them, and builds past a release by their commits and hash.

A release is the highest suffix, so the release that a version builds on is the highest version
that builds on it, and versions that build on different releases go as these releases do. Where one
of two versions is freeform there is no answer.
-/

namespace ProductLock

namespace Suffix

/-- Suffixes of different kinds go by their kind. -/
theorem compare_of_rank_lt {s t : Suffix} (h : s.rank < t.rank) : compare s t = .lt := by
  have hrank : compare s.rank t.rank = .lt := Nat.compare_eq_lt.2 h
  show (compare s.rank t.rank).then _ = .lt
  rw [hrank]
  rfl

theorem compare_revision_candidate {q : Revision} {n : UInt32} {r : Option Revision} :
    compare (revision q) (candidate n r) = .lt := compare_of_rank_lt Nat.zero_lt_one

theorem compare_candidate_release {n : UInt32} {r : Option Revision} :
    compare (candidate n r) release = .lt := compare_of_rank_lt Nat.one_lt_two

/-- Candidates go by their number, and those of one number by the build past them. -/
theorem compare_candidate {m n : UInt32} {q r : Option Revision} :
    compare (candidate m q) (candidate n r) = (compare m n).then (compareLast q r) := rfl

theorem compare_candidate_of_lt {m n : UInt32} {q r : Option Revision} (h : m < n) :
    compare (candidate m q) (candidate n r) = .lt := by
  rw [compare_candidate, Std.compare_eq_lt.2 h]
  rfl

theorem compare_candidate_built {n : UInt32} {r : Revision} :
    compare (candidate n (some r)) (candidate n none) = .lt := by
  rw [compare_candidate, Std.compare_self]
  rfl

/-- Nothing stands above a release. -/
theorem isLE_release (s : Suffix) : (compare s release).isLE = true := by
  cases s with
  | release => rw [Std.compare_self]; rfl
  | candidate n r => rw [compare_candidate_release]; rfl
  | revision r => rw [compare_of_rank_lt (s := .revision r) (t := .release) Nat.zero_lt_two]; rfl

end Suffix

namespace OrderableVersion

theorem compare_eq_then {v w : OrderableVersion} :
    compare v w = (compare v.base w.base).then (compare v.suffix w.suffix) := rfl

/-- Versions that build on one release go by their suffixes. -/
theorem compare_same_base {b : Release} {s t : Suffix} :
    compare (⟨b, s⟩ : OrderableVersion) ⟨b, t⟩ = compare s t := by
  rw [compare_eq_then, Std.compare_self]
  rfl

/-- Versions that build on different releases go by these, whatever their suffixes. -/
theorem compare_of_base_ne {v w : OrderableVersion} (h : v.base ≠ w.base) :
    compare v w = compare v.base w.base := by
  have hne : compare v.base w.base ≠ .eq := fun he => h (Std.LawfulEqOrd.eq_of_compare he)
  rw [compare_eq_then]
  cases hc : compare v.base w.base with
  | lt => rfl
  | eq => exact absurd hc hne
  | gt => rfl

theorem le_base (v : OrderableVersion) : v ≤ ⟨v.base, .release⟩ := by
  show (compare v ⟨v.base, .release⟩).isLE = true
  rw [compare_eq_then, Std.compare_self]
  exact v.suffix.isLE_release

theorem le_iff_ne_gt {v w : OrderableVersion} : v ≤ w ↔ compare v w ≠ .gt :=
  Ordering.isLE_iff_ne_gt

end OrderableVersion

theorem Version.compare?_eq_none_iff {v w : Version} :
    v.compare? w = none ↔ v.isOrderable = false ∨ w.isOrderable = false := by
  cases v <;> cases w <;> simp [compare?, isOrderable, orderable?]

/-- The order of orderable versions is linear and tells apart whatever is different. A version is
at most the release it builds on, and different releases decide; at one release, builds past it come
before candidates and candidates before the release, and a build past a candidate comes between the
candidates of lower numbers and its own. Versions of any kind compare in this order, unless one of
them has no place in it. -/
theorem OrderableVersion.precedence_is_linear :
    (∀ u v w : OrderableVersion, v ≤ v ∧ (v ≤ w ∨ w ≤ v) ∧ (v ≤ w → w ≤ v → v = w) ∧
      (u ≤ v → v ≤ w → u ≤ w) ∧ (v ≤ w ↔ compare v w ≠ .gt) ∧
      compare w v = (compare v w).swap ∧ (compare v w = .eq ↔ v = w)) ∧
    (∀ v w : OrderableVersion, v ≤ ⟨v.base, .release⟩ ∧ (v.base ≠ w.base →
      compare v w = compare (⟨v.base, .release⟩ : OrderableVersion) ⟨w.base, .release⟩)) ∧
    (∀ (b : Release) (m n : UInt32) (q : Revision) (r : Option Revision),
      compare (⟨b, .revision q⟩ : OrderableVersion) ⟨b, .candidate n r⟩ = .lt ∧
      compare (⟨b, .candidate n r⟩ : OrderableVersion) ⟨b, .release⟩ = .lt ∧
      compare (⟨b, .candidate n (some q)⟩ : OrderableVersion) ⟨b, .candidate n none⟩ = .lt ∧
      (m < n →
        compare (⟨b, .candidate m r⟩ : OrderableVersion) ⟨b, .candidate n (some q)⟩ = .lt)) ∧
    (∀ v w : Version, v.compare? w = none ↔ v.isOrderable = false ∨ w.isOrderable = false) ∧
    ∀ v w : OrderableVersion,
      Version.compare? (.orderable v) (.orderable w) = some (compare v w) := by
  refine ⟨fun u v w => ?_, fun v w => ⟨v.le_base, fun h => ?_⟩, fun b m n q r => ?_,
    fun _ _ => Version.compare?_eq_none_iff, fun _ _ => rfl⟩
  · exact ⟨Std.le_refl v, Std.le_total, Std.le_antisymm, Std.le_trans, le_iff_ne_gt,
      Std.OrientedCmp.eq_swap, Std.compare_eq_iff_eq⟩
  · rw [compare_of_base_ne h]
    exact (compare_of_base_ne (v := ⟨v.base, .release⟩) (w := ⟨w.base, .release⟩) h).symm
  · simp only [compare_same_base]
    exact ⟨Suffix.compare_revision_candidate, Suffix.compare_candidate_release,
      Suffix.compare_candidate_built, Suffix.compare_candidate_of_lt⟩

theorem OrderableVersion.precedence_is_linear_builds :
    let r : Release := ⟨1, 0, 0⟩
    let s : Release := ⟨1, 0, 1⟩
    let build : Revision := ⟨7, "def"⟩
    compare (⟨r, .candidate 1 none⟩ : OrderableVersion) ⟨r, .candidate 2 (some build)⟩ = .lt ∧
    compare (⟨r, .release⟩ : OrderableVersion) ⟨s, .revision build⟩ = .lt ∧
    (⟨r, .revision build⟩ : OrderableVersion) ≤ ⟨s, .candidate 1 none⟩ := by
  intro r s build
  obtain ⟨horder, hbase, hkinds, _⟩ := precedence_is_linear
  have hcandidates := (hkinds r 1 2 build none).2.2.2 (by decide)
  have hreleases := (hbase ⟨r, .release⟩ ⟨s, .revision build⟩).2 (by decide)
  refine ⟨hcandidates, hreleases.trans (by decide), ?_⟩
  have htrans := (horder ⟨r, .revision build⟩ ⟨r, .release⟩ ⟨s, .candidate 1 none⟩).2.2.2.1
  exact htrans (hbase ⟨r, .revision build⟩ ⟨r, .release⟩).1 (by decide)

end ProductLock
