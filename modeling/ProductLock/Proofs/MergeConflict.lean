import ProductLock.Proofs.MergeOutcome

/-!
# Every conflict is one between two dependencies

A conflict lies between the highest minimum and the tightest maximum, each of which belongs to some
dependency, so two dependencies show it. Conversely, where one dependency begins above the end of
another, the rest of a list cannot help: it raises the minimum or tightens the maximum, if it does
anything (`disjointRanges_iff_exceeds`). A freeform minimum begins above no end, because it is taken
only if all dependencies have it, and then the one with the tightest maximum admits it.

That the two alone give the same report is not for the way in which ties are broken. Between the
two there is none: both ranges hold their own minimum, so of two ranges that lie apart one has the
higher minimum and the other the tighter maximum, whatever their texts (`merge_of_exceeds`).
-/

namespace ProductLock.Dependency

/-- The minimum of the one dependency lies above the maximum of the other. -/
def Exceeds (l u : Dependency) : Prop :=
  ∃ v, l.minimum = .orderable v ∧ u.maximum.admits v.base = false

variable {d l u : Dependency} {ds : List Dependency} {v : OrderableVersion}

theorem Exceeds.ne (h : l.Exceeds u) (hu : u.Valid) : l ≠ u := by
  rintro rfl
  obtain ⟨v, hv, hadmits⟩ := h
  have := hu.minimum_le
  rw [hv] at this
  exact Bool.eq_false_iff.1 hadmits this

/-- If no other minimum is as high, there is no tie to break. -/
theorem lower_eq_of_highest (hl : l ∈ d :: ds) (hv : l.minimum = .orderable v)
    (h : ∀ x ∈ d :: ds, x = l ∨ ∀ w, x.minimum = .orderable w → ¬ v ≤ w) : lower d ds = .ok l := by
  obtain ⟨l', w, hlower, hmem, hw, hmax⟩ := lower_of_orderable hl hv
  rcases h l' hmem with rfl | h
  · exact hlower
  · exact absurd (hmax l hl v hv) (h w hw)

theorem upper_eq_of_tightest (hu : u ∈ d :: ds)
    (h : ∀ x ∈ d :: ds, x = u ∨ ¬ x.maximum ≤ u.maximum) : upper d ds = u :=
  (h _ upper_mem).resolve_right fun hn => hn (upper_maximum_le hu)

/-- In a conflict of two valid dependencies, one of them has the higher minimum and the other has
the tighter maximum, so it is found and reported alike whichever of them comes first. -/
theorem merge_of_exceeds (hid : u.id = l.id) (hl : l.Valid) (hu : u.Valid) (h : l.Exceeds u) :
    merge l u = .error (.disjointRanges l.id l u l.minimum u.maximum) ∧
      merge u l = .error (.disjointRanges l.id l u l.minimum u.maximum) := by
  obtain ⟨v, hv, hadmits⟩ := h
  have hmin : ∀ w, u.minimum = .orderable w → ¬ v ≤ w := by
    intro w hw hvw
    have hadmitted := hu.minimum_le
    rw [hw] at hadmitted
    exact Bool.eq_false_iff.1 hadmits (Bound.admits_base_of_le hvw hadmitted)
  have hmax : ¬ l.maximum ≤ u.maximum := by
    intro hle
    have hadmitted := hl.minimum_le
    rw [hv] at hadmitted
    exact Bool.eq_false_iff.1 hadmits (Bound.admits_of_le hle hadmitted)
  -- the two orders of the pair are two lists with the same members
  have hpair {d e : Dependency} (hide : e.id = d.id) (hd : d.id = l.id)
      (hmem : ∀ x, x ∈ [d, e] ↔ x = l ∨ x = u) :
      merge d e = .error (.disjointRanges l.id l u l.minimum u.maximum) := by
    have hlower : lower d [e] = .ok l := by
      refine lower_eq_of_highest ((hmem l).2 (.inl rfl)) hv fun x hx => ?_
      rcases (hmem x).1 hx with rfl | rfl
      · exact .inl rfl
      · exact .inr hmin
    have hupper : upper d [e] = u := by
      refine upper_eq_of_tightest ((hmem u).2 (.inr rfl)) fun x hx => ?_
      rcases (hmem x).1 hx with rfl | rfl
      · exact .inr hmax
      · exact .inl rfl
    refine (mergeAll_eq_disjointRanges_iff (List.forall_mem_singleton.2 hide)).2
      ⟨⟨hlower, ?_⟩, hd.symm, hupper.symm, rfl, rfl⟩
    rw [hupper, hv]
    exact hadmits
  exact ⟨hpair hid rfl (by simp), hpair hid.symm hid (by simp [or_comm])⟩

theorem disjointRanges_of_exceeds (hid : ∀ e ∈ ds, e.id = d.id) (hl : l ∈ d :: ds)
    (hu : u ∈ d :: ds) (h : l.Exceeds u) : DisjointRanges d ds := by
  obtain ⟨v, hv, hadmits⟩ := h
  obtain ⟨l', w, hlower, _, hw, hmax⟩ := lower_of_orderable hl hv
  refine (disjointRanges_iff hid).2 ⟨l', hlower, Bool.eq_false_iff.2 fun hadmitted => ?_⟩
  rw [hw] at hadmitted
  refine Bool.eq_false_iff.1 hadmits ?_
  have hhighest := Bound.admits_base_of_le (hmax l hl v hv) hadmitted
  exact Bound.admits_of_le (upper_maximum_le hu) hhighest

theorem exceeds_of_lower (hv : ∀ e ∈ d :: ds, e.Valid) (hr : ∀ e ∈ d :: ds, e.minimum.CanArise)
    (hl : lower d ds = .ok l) (h : (upper d ds).maximum.admits l.minimum.base = false) :
    l.Exceeds (upper d ds) := by
  obtain ⟨_, _, w, hw, _⟩ := orderable_of_not_admits hv ((takesMinimum_iff hr).2 ⟨l, hl, rfl⟩)
    (takesMaximum_iff.2 rfl) h
  rw [hw] at h
  exact ⟨w, hw, h⟩

/-- Ranges are disjoint just when one of them begins above the end of another. -/
theorem disjointRanges_iff_exceeds (hid : ∀ e ∈ ds, e.id = d.id) (hv : ∀ e ∈ d :: ds, e.Valid)
    (hr : ∀ e ∈ d :: ds, e.minimum.CanArise) :
    DisjointRanges d ds ↔ ∃ l ∈ d :: ds, ∃ u ∈ d :: ds, l.Exceeds u := by
  constructor
  · intro h
    obtain ⟨l, hl, hadmits⟩ := (disjointRanges_iff hid).1 h
    exact ⟨l, lower_mem hl, upper d ds, upper_mem, exceeds_of_lower hv hr hl hadmits⟩
  · intro h
    obtain ⟨l, hl, u, hu, h⟩ := h
    exact disjointRanges_of_exceeds hid hl hu h

theorem disjointRanges_iff_exists_pair (hid : ∀ e ∈ ds, e.id = d.id)
    (hv : ∀ e ∈ d :: ds, e.Valid) (hr : ∀ e ∈ d :: ds, e.minimum.CanArise) :
    DisjointRanges d ds ↔ ∃ e ∈ d :: ds, ∃ f ∈ d :: ds, DisjointRanges e [f] := by
  have hpair {e f : Dependency} (he : e ∈ d :: ds) (hf : f ∈ d :: ds) :
      ∀ x ∈ [f], x.id = e.id := by
    have hid' : ∀ x ∈ d :: ds, x.id = d.id := List.forall_mem_cons.2 ⟨rfl, hid⟩
    exact List.forall_mem_singleton.2 ((hid' f hf).trans (hid' e he).symm)
  rw [disjointRanges_iff_exceeds hid hv hr]
  constructor
  · intro h
    obtain ⟨l, hl, u, hu, h⟩ := h
    exact ⟨l, hl, u, hu, disjointRanges_of_exceeds (hpair hl hu) (.head _) (.tail l (.head [])) h⟩
  · intro h
    obtain ⟨e, he, f, hf, h⟩ := h
    have hmem : ∀ x ∈ [e, f], x ∈ d :: ds :=
      List.forall_mem_cons.2 ⟨he, List.forall_mem_singleton.2 hf⟩
    obtain ⟨l, hl, u, hu, h⟩ := (disjointRanges_iff_exceeds (hpair he hf)
      (fun x hx => hv x (hmem x hx)) fun x hx => hr x (hmem x hx)).1 h
    exact ⟨l, hmem l hl, u, hmem u hu, h⟩

/-- Ranges of valid dependencies on one product are disjoint just when those of some two of them
are, and the conflict that is reported is one of these: it names two different dependencies, with
the minimum of the one and the maximum of the other, and merging only these two fails with the same
report, in either order. -/
theorem conflict_is_between_two (hid : ∀ e ∈ ds, e.id = d.id) (hv : ∀ e ∈ d :: ds, e.Valid)
    (hr : ∀ e ∈ d :: ds, e.minimum.CanArise) :
    (DisjointRanges d ds ↔ ∃ e ∈ d :: ds, ∃ f ∈ d :: ds, DisjointRanges e [f]) ∧
    ∀ id l u minimum maximum,
      mergeAll d ds = .error (.disjointRanges id l u minimum maximum) →
        l ∈ d :: ds ∧ u ∈ d :: ds ∧ l ≠ u ∧ minimum = l.minimum ∧ maximum = u.maximum ∧
        merge l u = .error (.disjointRanges id l u minimum maximum) ∧
        merge u l = .error (.disjointRanges id l u minimum maximum) := by
  refine ⟨disjointRanges_iff_exists_pair hid hv hr, fun id l u minimum maximum h => ?_⟩
  obtain ⟨⟨hl, hadmits⟩, rfl, rfl, rfl, rfl⟩ := (mergeAll_eq_disjointRanges_iff hid).1 h
  have hid' : ∀ e ∈ d :: ds, e.id = d.id := List.forall_mem_cons.2 ⟨rfl, hid⟩
  have hlmem : l ∈ d :: ds := lower_mem hl
  have humem : upper d ds ∈ d :: ds := upper_mem
  have hexceeds := exceeds_of_lower hv hr hl hadmits
  have hmerge := merge_of_exceeds ((hid' _ humem).trans (hid' l hlmem).symm) (hv l hlmem)
    (hv _ humem) hexceeds
  rw [hid' l hlmem] at hmerge
  exact ⟨hlmem, humem, hexceeds.ne (hv _ humem), rfl, rfl, hmerge⟩

/-- A freeform minimum takes no part in a conflict. Where two minimums or two maximums are the same,
the pair that is reported for all dependencies is the one that the two report alone. -/
theorem conflict_is_between_two_tied :
    let asks (minimum : Version) (maximum : Bound) : Dependency :=
      ⟨⟨"com.foo", "bar"⟩, minimum, maximum, none, false⟩
    let a := asks (.freeform ⟨⟨9, 0, 0⟩, "9.0.0.dirty"⟩) .any
    let b := asks (.orderable ⟨⟨2, 1, 0⟩, .release⟩) .any
    let l := asks (.orderable ⟨⟨2, 1, 0⟩, .release⟩) (.major 2)
    let u := asks (.orderable ⟨⟨1, 0, 0⟩, .release⟩) (.minor 1 4)
    let c := asks (.orderable ⟨⟨1, 2, 0⟩, .release⟩) (.minor 1 4)
    let conflict := ConstraintError.disjointRanges l.id l u l.minimum u.maximum
    mergeAll a [b, l, c, u] = .error conflict ∧ l ≠ u ∧
      merge l u = .error conflict ∧ merge u l = .error conflict := by
  intro asks a b l u c conflict
  have hid : ∀ e ∈ [b, l, c, u], e.id = a.id := by decide
  have hv : ∀ e ∈ [a, b, l, c, u], e.Valid := by decide +kernel
  have hr : ∀ e ∈ [a, b, l, c, u], e.minimum.CanArise := by
    have ha : a.minimum.CanArise := fun _ => ⟨"9.0.0.dirty", by decide +kernel⟩
    simp only [List.forall_mem_cons]
    exact ⟨ha, nofun, nofun, nofun, nofun, List.forall_mem_nil _⟩
  have h : mergeAll a [b, l, c, u] = .error conflict := by decide +kernel
  obtain ⟨_, _, hne, _, _, hlu, hul⟩ := (conflict_is_between_two hid hv hr).2 _ l u _ _ h
  exact ⟨h, hne, hlu, hul⟩

end ProductLock.Dependency
