import ProductLock.Proofs.MergeChoice

/-!
# A merge is the intersection of its ranges

The chosen minimum is the highest of all and the chosen maximum the tightest, so a version keeps to
both ends of the merged range exactly when it keeps to both ends of every range that went in
(`joined_allows_iff`). Nothing relates the two ends of one dependency to each other here, and the
argument does not need it.

Whether the ranges have a version in common at all is decided at one version, the chosen minimum.
Any common version lies at or above it, and a bound that admits a version admits every lower one;
so if there is a common version, the chosen minimum is one (`common_iff_lower_admitted`).
-/

namespace ProductLock.Dependency

theorem allows_iff {d : Dependency} {m v : OrderableVersion} (hm : d.minimum = .orderable m) :
    d.Allows v ↔ m ≤ v ∧ d.maximum.admits v.base = true := by
  rw [Allows, hm]
  refine ⟨fun h => ?_, fun h => ⟨⟨m, rfl, h.1⟩, h.2⟩⟩
  obtain ⟨⟨_, ⟨⟩, hv⟩, hb⟩ := h
  exact ⟨hv, hb⟩

section Joined

variable {d l : Dependency} {ds : List Dependency} {m : OrderableVersion}
  (ho : ∀ e ∈ d :: ds, e.minimum.isOrderable = true)
  (hmem : l ∈ d :: ds) (hm : l.minimum = .orderable m)
  (hmax : ∀ e ∈ d :: ds, ∀ u, e.minimum = .orderable u → u ≤ m)

include ho hmem hm hmax

/-- A version that every range holds lies between the chosen ends, and conversely. -/
theorem forall_allows_iff {v : OrderableVersion} :
    (∀ e ∈ d :: ds, e.Allows v) ↔ m ≤ v ∧ (upper d ds).maximum.admits v.base = true := by
  refine ⟨fun h => ⟨?_, upper_admits_iff.2 fun e he => (h e he).2⟩, fun h e he => ?_⟩
  · exact ((allows_iff hm).1 (h l hmem)).1
  · obtain ⟨hmv, hb⟩ := h
    obtain ⟨u, hu⟩ := orderable_of_isOrderable (ho e he)
    exact (allows_iff hu).2 ⟨Std.le_trans (hmax e he u hu) hmv, upper_admits_iff.1 hb e he⟩

theorem joined_allows_iff {v : OrderableVersion} :
    (joined d ds l).Allows v ↔ ∀ e ∈ d :: ds, e.Allows v := by
  rw [forall_allows_iff ho hmem hm hmax]
  exact allows_iff (d := joined d ds l) hm

/-- If any version is in all ranges, the chosen minimum is. -/
theorem common_iff_lower_admitted :
    (∃ v, ∀ e ∈ d :: ds, e.Allows v) ↔ (upper d ds).maximum.admits l.minimum.base = true := by
  rw [hm]
  refine ⟨fun h => ?_, fun hb => ⟨m, ?_⟩⟩
  · obtain ⟨v, hv⟩ := h
    obtain ⟨hmv, hb⟩ := (forall_allows_iff ho hmem hm hmax).1 hv
    exact Bound.admits_base_of_le hmv hb
  · exact (forall_allows_iff ho hmem hm hmax).2 ⟨Std.le_refl m, hb⟩

end Joined

/-- The recommendation is in the range, no lower than any of the given ones that is, and either one
of those or the minimum. -/
def RecommendsBest (d : Dependency) (ds : List Dependency) : Prop :=
  ∃ v, d.recommended = some (.orderable v) ∧ d.Allows v ∧
    (∀ e ∈ ds, ∀ w, e.recommended = some (.orderable w) → d.Allows w → w ≤ v) ∧
    ((∃ e ∈ ds, e.recommended = some (.orderable v)) ∨ d.minimum = .orderable v)

theorem joined_recommendsBest {d l : Dependency} {ds : List Dependency} {m : OrderableVersion}
    (hm : l.minimum = .orderable m) (hb : (upper d ds).maximum.admits m.base = true) :
    (joined d ds l).RecommendsBest (d :: ds) := by
  have hallows {v : OrderableVersion} :
      (joined d ds l).Allows v ↔ inRange l.minimum (upper d ds).maximum v = true := by
    rw [hm, inRange_orderable_iff]
    exact allows_iff (d := joined d ds l) hm
  rcases recommendation_cases l.minimum (upper d ds).maximum (d :: ds) with
    ⟨w, hw, hoffer, hr, hbest⟩ | ⟨hw, hnone⟩
  · refine ⟨w, congrArg some hw, hallows.2 hr, fun e he u hu ha => ?_, .inl hoffer⟩
    exact hbest e he u hu (hallows.1 ha)
  · refine ⟨m, congrArg some (hw.trans hm), ?_, fun e he u hu ha => ?_, .inr hm⟩
    · exact (allows_iff (d := joined d ds l) hm).2 ⟨Std.le_refl m, hb⟩
    · have := hallows.1 ha
      rw [hnone e he u hu] at this
      cases this

theorem mergeAll_recommendsBest {d m : Dependency} {ds : List Dependency} {v : OrderableVersion}
    (h : mergeAll d ds = .ok m) (hv : m.minimum = .orderable v) : m.RecommendsBest (d :: ds) := by
  obtain ⟨_, l, _, hb, _, rfl⟩ := mergeAll_eq_ok_iff.1 h
  have hv : l.minimum = .orderable v := hv
  rw [hv] at hb
  exact joined_recommendsBest hv hb

/-- Merging dependencies on one product intersects their ranges: it fails for disjoint ranges just
when no version is in all of them, and otherwise what it gives holds the versions that all of them
hold, and recommends the best of what was recommended. -/
theorem mergeAll_intersects {d : Dependency} {ds : List Dependency}
    (hid : ∀ e ∈ ds, e.id = d.id) (ho : ∀ e ∈ d :: ds, e.minimum.isOrderable = true) :
    (∀ m, mergeAll d ds = .ok m →
      (∀ v, m.Allows v ↔ ∀ e ∈ d :: ds, e.Allows v) ∧ m.RecommendsBest (d :: ds)) ∧
    (DisjointRanges d ds ↔ ¬ ∃ v, ∀ e ∈ d :: ds, e.Allows v) := by
  obtain ⟨w, hw⟩ := orderable_of_isOrderable (ho d (.head ds))
  obtain ⟨l, v, hl, hmem, hv, hmax⟩ := lower_of_orderable (.head ds) hw
  refine ⟨fun m hm => ?_, ?_⟩
  · obtain ⟨_, l', hl', hb, _, rfl⟩ := mergeAll_eq_ok_iff.1 hm
    obtain rfl : l = l' := Except.ok.inj (hl.symm.trans hl')
    rw [hv] at hb
    exact ⟨fun _ => joined_allows_iff ho hmem hv hmax, joined_recommendsBest hv hb⟩
  · rw [disjointRanges_iff hid, common_iff_lower_admitted ho hmem hv hmax, Bool.not_eq_true]
    refine ⟨fun h => ?_, fun hf => ⟨l, hl, hf⟩⟩
    obtain ⟨l', hl', hf⟩ := h
    obtain rfl : l = l' := Except.ok.inj (hl.symm.trans hl')
    exact hf

theorem mergeAll_intersects_candidate :
    let a : Dependency := ⟨⟨"com.foo", "bar"⟩, .orderable ⟨⟨1, 0, 0⟩, .release⟩, .major 1,
      some (.orderable ⟨⟨1, 4, 0⟩, .release⟩), false⟩
    let b : Dependency := ⟨⟨"com.foo", "bar"⟩, .orderable ⟨⟨1, 2, 0⟩, .candidate 1 none⟩,
      .minor 1 5, some (.orderable ⟨⟨1, 2, 0⟩, .release⟩), true⟩
    let m : Dependency := ⟨⟨"com.foo", "bar"⟩, .orderable ⟨⟨1, 2, 0⟩, .candidate 1 none⟩,
      .minor 1 5, some (.orderable ⟨⟨1, 4, 0⟩, .release⟩), false⟩
    mergeAll a [b] = .ok m ∧ (∀ v, m.Allows v ↔ ∀ e ∈ [a, b], e.Allows v) ∧
      m.RecommendsBest [a, b] := by
  intro a b m
  have hm : mergeAll a [b] = .ok m := by decide +kernel
  exact ⟨hm, (mergeAll_intersects (by decide) (by decide)).1 m hm⟩

end ProductLock.Dependency
