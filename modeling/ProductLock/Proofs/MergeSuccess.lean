import ProductLock.Proofs.MergeChoice
import ProductLock.Proofs.VersionText

/-!
# Which dependencies can be merged

A merge makes sure that its maximum admits its minimum, and then checks what it merged once more by
the rules for any dependency. Of these only one can still be broken, the rule that minimum and
maximum must not read the same (`joined_valid_iff`): the names are those of a valid dependency, and
the recommendation is taken from the range or is the minimum. So a merge succeeds exactly when its
two ends make a range.

A range stays a range when its ends move apart (`IsRange.mono`), although one half of what makes it
one is about texts. A minimum that reads like the maximum is a whole release, and no version that
builds on a release lies above it. So between two such ends there is one version and nothing else,
and ends that lie closer together are the same ends or no range at all. It follows that a part of
what can be merged can be merged as well, if it has a minimum with a place in the order
(`mergeAll_of_subset`). Without one, the minimums must all be the same version, and nothing about
the rest of the list can make up for that (`mergeAll_eq_ambiguous_iff`).
-/

namespace ProductLock

/-! ## Minimums that read like a maximum -/

theorem Suffix.dash_mem_text {s : Suffix} (h : s ≠ .release) : '-' ∈ s.text.toList := by
  have hrc : '-' ∈ "-rc".toList := by decide
  match s with
  | .release => exact absurd rfl h
  | .candidate n none =>
      rw [text, String.toList_append]
      exact List.mem_append_left _ hrc
  | .candidate n (some r) =>
      rw [text, String.toList_append, String.toList_append]
      exact List.mem_append_left _ (List.mem_append_left _ hrc)
  | .revision r =>
      simp only [text, Revision.text, String.toList_append]
      exact List.mem_append_left _ (List.mem_append_left _ (List.mem_append_left _ (by decide)))

theorem Bound.dash_not_mem_text {b : Bound} : '-' ∉ b.text.toList := by
  have hpiece (n : Option UInt32) : '-' ∉ piece n := by
    cases n with
    | none => decide
    | some n => exact Numeral.not_mem_digits rfl
  simp [toList_text, pieces, hpiece]

namespace OrderableVersion

theorem text_eq_text_bound_iff {v : OrderableVersion} {b : Bound} :
    v.text = b.text ↔ v.suffix = .release ∧ b = .exact v.base := by
  refine ⟨fun h => ?_, fun h => ?_⟩
  · have hs : v.suffix = .release := by
      refine Decidable.byContradiction fun hne => Bound.dash_not_mem_text (b := b) ?_
      rw [← h, text, String.toList_append]
      exact List.mem_append_right _ (Suffix.dash_mem_text hne)
    refine ⟨hs, Bound.eq_of_text_eq ?_⟩
    rw [← h, text, hs, Suffix.text, String.append_empty, Bound.text]
  · obtain ⟨hs, rfl⟩ := h
    rw [text, hs, Suffix.text, String.append_empty, Bound.text]

/-- A release is the highest of the versions that build on it. -/
theorem le_of_release {v w : OrderableVersion} (hb : v.base = w.base) (hw : w.suffix = .release) :
    v ≤ w := by
  have hs : (compare v.suffix .release).isLE = true := by
    cases v.suffix <;> rfl
  show ((compare v.base w.base).then (compare v.suffix w.suffix)).isLE = true
  rw [hb, Std.ReflOrd.compare_self, hw]
  exact hs

end OrderableVersion

/-! ## Ranges -/

/-- The two ends can be the minimum and the maximum of one dependency. -/
structure IsRange (minimum : Version) (maximum : Bound) : Prop where
  minimum_le : maximum.admits minimum.base = true
  range_open : minimum.text ≠ maximum.text

theorem IsRange.mono {v w : OrderableVersion} {b c : Bound} (h : IsRange (.orderable w) c)
    (hv : v ≤ w) (hb : c ≤ b) : IsRange (.orderable v) b := by
  refine ⟨Bound.admits_of_le hb (Bound.admits_base_of_le hv h.minimum_le), fun he => ?_⟩
  obtain ⟨hs, rfl⟩ := OrderableVersion.text_eq_text_bound_iff.1 he
  -- all four ends lie at the release that `v` is
  have hwc : Bound.exact w.base ≤ c := Bound.admits_iff_le.1 h.minimum_le
  have hvw : Bound.exact v.base ≤ .exact w.base := OrderableVersion.base_le_base hv
  have hbase : v.base = w.base :=
    Bound.exact.inj (Std.le_antisymm hvw (Std.le_trans hwc hb))
  have hc : c = .exact v.base := Std.le_antisymm hb (Std.le_trans hvw hwc)
  obtain rfl : v = w := Std.le_antisymm hv (OrderableVersion.le_of_release hbase.symm hs)
  exact h.range_open (OrderableVersion.text_eq_text_bound_iff.2 ⟨hs, hc⟩)

namespace Dependency

theorem Valid.isRange {d : Dependency} (h : d.Valid) : IsRange d.minimum d.maximum :=
  ⟨h.minimum_le, h.range_open⟩

/-- What a merge recommends lies in its range. -/
theorem recommendation_fits {v : Version} {b : Bound} {ds : List Dependency}
    (hb : b.admits v.base = true) :
    (recommendation v b ds).compare? v ≠ some .lt ∧
      b.admits (recommendation v b ds).base = true := by
  rcases recommendation_cases v b ds with ⟨w, hw, _, hr, _⟩ | ⟨hw, _⟩
  · rw [hw]
    cases v with
    | orderable m =>
        obtain ⟨hm, hadmits⟩ := inRange_orderable_iff.1 hr
        refine ⟨fun h => ?_, hadmits⟩
        have hle : (compare m w).isLE = true := hm
        have hlt : compare w m = .lt := Option.some.inj h
        exact Std.OrientedCmp.not_lt_of_isLE hle hlt
    | freeform m =>
        rw [inRange, Bool.and_eq_true] at hr
        exact ⟨nofun, hr.2⟩
  · rw [hw]
    refine ⟨fun h => ?_, hb⟩
    cases v with
    | orderable m =>
        have hlt : compare m m = .lt := Option.some.inj h
        rw [Std.ReflOrd.compare_self] at hlt
        cases hlt
    | freeform m => cases h

section Merge

variable {d : Dependency} {ds : List Dependency}

/-- Of the rules for the merged dependency only one can still be broken. -/
theorem joined_valid_iff {l : Dependency} (hv : d.Valid)
    (hb : (upper d ds).maximum.admits l.minimum.base = true) :
    (joined d ds l).Valid ↔ l.minimum.text ≠ (upper d ds).maximum.text := by
  refine ⟨fun h => h.range_open, fun h => ?_⟩
  refine ⟨hv.group_ne, hv.name_ne, hv.group_blank, hv.name_blank, hv.group_colon, h, hb, ?_⟩
  intro r hr
  obtain rfl := Option.some.inj hr
  exact recommendation_fits hb

/-- A merge succeeds exactly when its ends make a range. -/
theorem mergeAll_eq_ok_iff_isRange {m : Dependency} (hid : ∀ e ∈ ds, e.id = d.id) (hv : d.Valid) :
    mergeAll d ds = .ok m ↔ ∃ l, lower d ds = .ok l ∧
      IsRange l.minimum (upper d ds).maximum ∧ m = joined d ds l := by
  rw [mergeAll_eq_ok_iff]
  refine ⟨fun h => ?_, fun h => ?_⟩
  · obtain ⟨_, l, hl, hb, hj, hm⟩ := h
    exact ⟨l, hl, ⟨hb, (joined_valid_iff hv hb).1 hj⟩, hm⟩
  · obtain ⟨l, hl, hr, hm⟩ := h
    exact ⟨hid, l, hl, hr.minimum_le, (joined_valid_iff hv hr.minimum_le).2 hr.range_open, hm⟩

end Merge

/-! ## The ends of a merge -/

/-- The highest minimum that has a place in the order, and the tightest maximum. -/
structure Ends (ds : List Dependency) (v : OrderableVersion) (b : Bound) : Prop where
  minimum_mem : ∃ e ∈ ds, e.minimum = .orderable v
  le_minimum : ∀ e ∈ ds, ∀ u, e.minimum = .orderable u → u ≤ v
  maximum_mem : ∃ e ∈ ds, e.maximum = b
  maximum_le : ∀ e ∈ ds, b ≤ e.maximum

section Ends

variable {d e : Dependency} {ds es : List Dependency} {v w : OrderableVersion} {b c : Bound}

/-- The ends of a part of a list lie outside those of the list, or are the same. -/
theorem Ends.le_of_subset (h : Ends ds w c) (h' : Ends es v b) (hsub : es ⊆ ds) :
    v ≤ w ∧ c ≤ b := by
  obtain ⟨x, hx, hxv⟩ := h'.minimum_mem
  obtain ⟨y, hy, rfl⟩ := h'.maximum_mem
  exact ⟨h.le_minimum x (hsub hx) v hxv, h.maximum_le y (hsub hy)⟩

theorem Ends.unique (h : Ends ds v b) (h' : Ends ds w c) : v = w ∧ b = c := by
  obtain ⟨hwv, hbc⟩ := h.le_of_subset h' fun _ hx => hx
  obtain ⟨hvw, hcb⟩ := h'.le_of_subset h fun _ hx => hx
  exact ⟨Std.le_antisymm hvw hwv, Std.le_antisymm hbc hcb⟩

theorem Ends.of_mem_iff (h : Ends ds v b) (hmem : ∀ x, x ∈ es ↔ x ∈ ds) : Ends es v b := by
  obtain ⟨x, hx, hxv⟩ := h.minimum_mem
  obtain ⟨y, hy, hyb⟩ := h.maximum_mem
  exact ⟨⟨x, (hmem x).2 hx, hxv⟩, fun z hz => h.le_minimum z ((hmem z).1 hz),
    ⟨y, (hmem y).2 hy, hyb⟩, fun z hz => h.maximum_le z ((hmem z).1 hz)⟩

/-- The choices of a merge are the ends of what it merges. -/
theorem ends_of_orderable (he : e ∈ d :: ds) (hw : e.minimum = .orderable w) :
    ∃ l v, lower d ds = .ok l ∧ l.minimum = .orderable v ∧
      Ends (d :: ds) v (upper d ds).maximum := by
  obtain ⟨l, v, hl, hmem, hv, hmax⟩ := lower_of_orderable he hw
  exact ⟨l, v, hl, hv, ⟨l, hmem, hv⟩, hmax, ⟨_, upper_mem, rfl⟩, fun _ hx => upper_maximum_le hx⟩

variable (d ds) in
/-- Every list of orderable minimums has ends. -/
theorem exists_ends (ho : ∀ e ∈ d :: ds, ∃ u, e.minimum = .orderable u) :
    ∃ v b, Ends (d :: ds) v b := by
  obtain ⟨u, hu⟩ := ho d (.head ds)
  obtain ⟨_, v, _, _, h⟩ := ends_of_orderable (.head ds) hu
  exact ⟨v, _, h⟩

/-- The minimum and the maximum that a merge gives are the ends of what it merges. -/
theorem of_mergeAll_of_ends {m : Dependency} (h : mergeAll d ds = .ok m)
    (hends : Ends (d :: ds) v b) : m.minimum = .orderable v ∧ m.maximum = b := by
  obtain ⟨_, l, hl, _, _, rfl⟩ := mergeAll_eq_ok_iff.1 h
  obtain ⟨x, hx, hxv⟩ := hends.minimum_mem
  obtain ⟨l', u, hl', hu, hends'⟩ := ends_of_orderable hx hxv
  obtain rfl : l = l' := Except.ok.inj (hl.symm.trans hl')
  obtain ⟨rfl, rfl⟩ := hends.unique hends'
  exact ⟨hu, rfl⟩

/-- A merge is determined by the ends, and succeeds exactly when they make a range. -/
theorem mergeAll_eq_ok_iff_of_ends {m : Dependency} (h : Ends (d :: ds) v b)
    (hid : ∀ x ∈ ds, x.id = d.id) (hv : d.Valid) :
    mergeAll d ds = .ok m ↔ IsRange (.orderable v) b ∧
      m = ⟨d.id, .orderable v, b, some (recommendation (.orderable v) b (d :: ds)), false⟩ := by
  obtain ⟨x, hx, hxv⟩ := h.minimum_mem
  obtain ⟨l, u, hl, hlu, hends⟩ := ends_of_orderable hx hxv
  obtain ⟨rfl, rfl⟩ := h.unique hends
  rw [mergeAll_eq_ok_iff_isRange hid hv, ← hlu]
  refine ⟨fun hm => ?_, fun hm => ⟨l, hl, hm⟩⟩
  obtain ⟨l', hl', hm⟩ := hm
  obtain rfl : l = l' := Except.ok.inj (hl.symm.trans hl')
  exact hm

/-- A part of what can be merged can be merged, if one of its minimums has a place in the order. -/
theorem mergeAll_of_subset {m : Dependency} (h : mergeAll d ds = .ok m)
    (hv : ∀ x ∈ d :: ds, x.Valid) (hsub : e :: es ⊆ d :: ds)
    {x : Dependency} (hx : x ∈ e :: es) (hw : x.minimum = .orderable w) :
    ∃ n, mergeAll e es = .ok n := by
  have hid : ∀ y ∈ d :: ds, y.id = d.id := List.forall_mem_cons.2 ⟨rfl, same_of_mergeAll h⟩
  have hids : ∀ y ∈ es, y.id = e.id := by
    intro y hy
    rw [hid y (hsub (.tail e hy)), hid e (hsub (.head es))]
  obtain ⟨_, _, _, _, hends⟩ := ends_of_orderable (hsub hx) hw
  obtain ⟨_, _, _, _, hends'⟩ := ends_of_orderable hx hw
  obtain ⟨hr, _⟩ := (mergeAll_eq_ok_iff_of_ends hends (same_of_mergeAll h) (hv d (.head ds))).1 h
  obtain ⟨hmin, hmax⟩ := hends.le_of_subset hends' hsub
  exact ⟨_, (mergeAll_eq_ok_iff_of_ends hends' hids (hv e (hsub (.head es)))).2
    ⟨hr.mono hmin hmax, rfl⟩⟩

end Ends

/-! ## Minimums without an order -/

/-- No minimum has a place in the order, and they are not all the same. -/
structure Undecided (ds : List Dependency) : Prop where
  freeform : ∀ e ∈ ds, e.minimum.isOrderable = false
  differ : ∃ e ∈ ds, ∃ f ∈ ds, e.minimum.text ≠ f.minimum.text

section Undecided

variable {d : Dependency} {ds : List Dependency}

theorem isOrderable_eq_false_iff {v : Version} : v.isOrderable = false ↔ v.orderable? = none := by
  rw [Version.isOrderable, Option.isSome_eq_false_iff, Option.isNone_iff_eq_none]

theorem differ_iff : (∃ e ∈ d :: ds, ∃ f ∈ d :: ds, e.minimum.text ≠ f.minimum.text) ↔
    ¬ ∀ e ∈ ds, e.minimum.text = d.minimum.text := by
  refine ⟨fun h hall => ?_, fun h => ?_⟩
  · have hall : ∀ e ∈ d :: ds, e.minimum.text = d.minimum.text :=
      List.forall_mem_cons.2 ⟨rfl, hall⟩
    obtain ⟨e, he, f, hf, hne⟩ := h
    exact hne ((hall e he).trans (hall f hf).symm)
  · simp only [not_forall] at h
    obtain ⟨e, he, hne⟩ := h
    exact ⟨e, .tail d he, d, .head ds, hne⟩

/-- The minimum cannot be chosen exactly when the minimums are undecided. -/
theorem lower_eq_error_iff {err : ConstraintError} : lower d ds = .error err ↔
    Undecided (d :: ds) ∧ err = .ambiguousMinimum d.id (minimumTexts (d :: ds)) := by
  by_cases hf : ∀ e ∈ d :: ds, e.minimum.isOrderable = false
  · rw [lower_of_freeform fun e he => isOrderable_eq_false_iff.1 (hf e he)]
    by_cases hall : ∀ e ∈ ds, e.minimum.text = d.minimum.text
    · rw [if_pos hall]
      exact ⟨nofun, fun h => absurd hall (differ_iff.1 h.1.differ)⟩
    · rw [if_neg hall]
      refine ⟨fun h => ⟨⟨hf, differ_iff.2 hall⟩, (Except.error.inj h).symm⟩, fun h => ?_⟩
      rw [h.2]
  · refine ⟨fun h => ?_, fun h => absurd h.1.freeform hf⟩
    simp only [not_forall, Bool.not_eq_false] at hf
    obtain ⟨e, he, ho⟩ := hf
    obtain ⟨w, hw⟩ := orderable_of_isOrderable ho
    obtain ⟨l, _, hl, _⟩ := lower_of_orderable he hw
    rw [hl] at h
    cases h

/-- A merge finds its minimum ambiguous exactly when the minimums are undecided. -/
theorem mergeAll_eq_ambiguous_iff {id : ProductId} {texts : List String}
    (hid : ∀ e ∈ ds, e.id = d.id) : mergeAll d ds = .error (.ambiguousMinimum id texts) ↔
      Undecided (d :: ds) ∧ id = d.id ∧ texts = minimumTexts (d :: ds) := by
  rw [mergeAll_eq_error_iff hid]
  constructor
  · rintro (hl | ⟨_, _, ⟨_, he⟩ | ⟨_, _, _, he⟩⟩)
    · obtain ⟨hu, he⟩ := lower_eq_error_iff.1 hl
      cases he
      exact ⟨hu, rfl, rfl⟩
    · cases he
    · cases he
  · rintro ⟨hu, rfl, rfl⟩
    exact .inl (lower_eq_error_iff.2 ⟨hu, rfl⟩)

/-- Minimums without an order can be merged if they are the same, because the tightest maximum
belongs to a dependency that has this minimum. -/
theorem mergeAll_of_agreeing (hid : ∀ e ∈ ds, e.id = d.id) (hv : ∀ e ∈ d :: ds, e.Valid)
    (hr : ∀ e ∈ d :: ds, e.minimum.IsRead)
    (hf : ∀ e ∈ d :: ds, e.minimum.isOrderable = false) (hu : ¬ Undecided (d :: ds)) :
    ∃ m, mergeAll d ds = .ok m := by
  have hall : ∀ e ∈ ds, e.minimum.text = d.minimum.text :=
    Decidable.byContradiction fun h => hu ⟨hf, differ_iff.2 h⟩
  have hl : lower d ds = .ok d := by
    rw [lower_of_freeform fun e he => isOrderable_eq_false_iff.1 (hf e he), if_pos hall]
  have hmem : upper d ds ∈ d :: ds := upper_mem
  have hall : ∀ e ∈ d :: ds, e.minimum.text = d.minimum.text :=
    List.forall_mem_cons.2 ⟨rfl, hall⟩
  have hmin : (upper d ds).minimum = d.minimum :=
    (hr _ hmem).eq_of_text_eq (hr d (.head ds)) (hall _ hmem)
  refine ⟨_, (mergeAll_eq_ok_iff_isRange hid (hv d (.head ds))).2 ⟨d, hl, ?_, rfl⟩⟩
  rw [← hmin]
  exact (hv _ hmem).isRange

end Undecided

end Dependency

end ProductLock
