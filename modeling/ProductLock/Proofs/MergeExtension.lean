import ProductLock.Proofs.MergeIntersection
import ProductLock.Proofs.MergeSuccess

/-!
# What more dependencies change about a merge

Merging further dependencies along with some others can raise the minimum, tighten the maximum and
recommend something else, and it changes nothing exactly when they ask for none of this
(`mergeAll_eq_iff_asksNoMore`). The two ends stay where they are if none of the further ones lies
inside (`Ends.append_iff`). Given the same ends, what is in range is the same for both merges, and a
merge recommends the best that is in range or else its minimum; so the recommendation stays as well
unless one of the further ones is better (`RecommendsBest.append_iff`). The two merges are then
equal because a range and a list leave one best recommendation (`RecommendsBest.recommended_eq`).
-/

namespace ProductLock.Dependency

variable {d e m n alone : Dependency} {ds own others : List Dependency} {v w : OrderableVersion}
  {b : Bound}

theorem eq_of_fields_eq (hid : m.id = n.id) (hmin : m.minimum = n.minimum)
    (hmax : m.maximum = n.maximum) (hrec : m.recommended = n.recommended)
    (hopt : m.isOptional = n.isOptional) : m = n := by
  cases m
  cases n
  cases hid
  cases hmin
  cases hmax
  cases hrec
  cases hopt
  rfl

/-- More dependencies leave the ends where they are if none lies inside. -/
theorem Ends.append_iff (h : Ends others v b) : Ends (own ++ others) v b ↔
    ∀ d ∈ own, (∀ u, d.minimum = .orderable u → u ≤ v) ∧ b ≤ d.maximum := by
  constructor
  · intro hall d hd
    have hd := List.mem_append_left others hd
    exact ⟨hall.le_minimum d hd, hall.maximum_le d hd⟩
  · intro hown
    obtain ⟨x, hx, hxv⟩ := h.minimum_mem
    obtain ⟨y, hy, hyb⟩ := h.maximum_mem
    refine ⟨⟨x, List.mem_append_right own hx, hxv⟩, fun e he => ?_,
      ⟨y, List.mem_append_right own hy, hyb⟩, fun e he => ?_⟩
    · exact (List.mem_append.1 he).elim (fun he => (hown e he).1) (h.le_minimum e)
    · exact (List.mem_append.1 he).elim (fun he => (hown e he).2) (h.maximum_le e)

theorem RecommendsBest.append_iff (h : m.RecommendsBest others)
    (hw : m.recommended = some (.orderable w)) : m.RecommendsBest (own ++ others) ↔
      ∀ d ∈ own, ∀ u, d.recommended = some (.orderable u) → m.Allows u → u ≤ w := by
  obtain ⟨x, hx, hallows, hbest, hfrom⟩ := h
  obtain rfl : w = x := Version.orderable.inj (Option.some.inj (hw.symm.trans hx))
  constructor
  · intro hall d hd u hu hu'
    obtain ⟨y, hy, _, hbest', _⟩ := hall
    obtain rfl : w = y := Version.orderable.inj (Option.some.inj (hw.symm.trans hy))
    exact hbest' d (List.mem_append_left others hd) u hu hu'
  · intro hown
    refine ⟨w, hw, hallows, fun e he u hu hu' => ?_, hfrom.imp_left fun h => ?_⟩
    · rcases List.mem_append.1 he with he | he
      · exact hown e he u hu hu'
      · exact hbest e he u hu hu'
    · obtain ⟨e, he, hew⟩ := h
      exact ⟨e, List.mem_append_right own he, hew⟩

/-- In one range, and of one list, there is one best recommendation. -/
theorem RecommendsBest.recommended_eq (hm : m.RecommendsBest ds) (hn : n.RecommendsBest ds)
    (hmin : m.minimum = n.minimum) (hmax : m.maximum = n.maximum) :
    m.recommended = n.recommended := by
  have hle {m n : Dependency} (hmin : m.minimum = n.minimum) (hmax : m.maximum = n.maximum)
      {x y : OrderableVersion} (hx : m.Allows x)
      (hfrom : (∃ e ∈ ds, e.recommended = some (.orderable x)) ∨ m.minimum = .orderable x)
      (hy : n.Allows y)
      (hbest : ∀ e ∈ ds, ∀ u, e.recommended = some (.orderable u) → n.Allows u → u ≤ y) :
      x ≤ y := by
    rcases hfrom with ⟨e, he, hex⟩ | hx'
    · rw [Allows, hmin, hmax] at hx
      exact hbest e he x hex hx
    · exact ((allows_iff (hmin.symm.trans hx')).1 hy).1
  obtain ⟨x, hx, hxr, hxbest, hxfrom⟩ := hm
  obtain ⟨y, hy, hyr, hybest, hyfrom⟩ := hn
  rw [hx, hy, Std.le_antisymm (hle hmin hmax hxr hxfrom hyr hybest)
    (hle hmin.symm hmax.symm hyr hyfrom hxr hxbest)]

/-- The dependencies ask for no more than the others do, which merge into `alone`: no minimum lies
above the highest of the others, no maximum below the tightest of them, and no recommendation that
is in the range of `alone` above the one that it has. -/
structure AsksNoMore (own others : List Dependency) (alone : Dependency) : Prop where
  range : ∃ v b, Ends others v b ∧
    ∀ d ∈ own, (∀ u, d.minimum = .orderable u → u ≤ v) ∧ b ≤ d.maximum
  recommended : ∃ w, alone.recommended = some (.orderable w) ∧
    ∀ d ∈ own, ∀ u, d.recommended = some (.orderable u) → alone.Allows u → u ≤ w

/-- Merging more dependencies gives the same as before exactly when they ask for no more. -/
theorem mergeAll_eq_iff_asksNoMore
    (ho : ∀ x ∈ d :: own ++ e :: others, x.minimum.isOrderable = true)
    (h : mergeAll d (own ++ e :: others) = .ok m) (ha : mergeAll e others = .ok alone) :
    m = alone ↔ AsksNoMore (d :: own) (e :: others) alone := by
  have hsub : e :: others ⊆ d :: own ++ e :: others := List.subset_append_right _ _
  have ho : ∀ x ∈ d :: own ++ e :: others, ∃ u, x.minimum = .orderable u :=
    fun x hx => orderable_of_isOrderable (ho x hx)
  obtain ⟨v, b, hends⟩ := exists_ends e others fun x hx => ho x (hsub hx)
  obtain ⟨v', b', hall⟩ := exists_ends d (own ++ e :: others) ho
  obtain ⟨hmin, hmax⟩ := of_mergeAll_of_ends ha hends
  obtain ⟨hmin', hmax'⟩ := of_mergeAll_of_ends h hall
  have hbest := mergeAll_recommendsBest ha hmin
  have hbest' : m.RecommendsBest (d :: own ++ e :: others) := mergeAll_recommendsBest h hmin'
  obtain ⟨w, hw, _⟩ := mergeAll_recommendsBest ha hmin
  constructor
  · rintro rfl
    obtain rfl : v = v' := Version.orderable.inj (hmin.symm.trans hmin')
    obtain rfl : b = b' := hmax.symm.trans hmax'
    exact ⟨⟨v, b, hends, hends.append_iff.1 hall⟩, w, hw, (hbest.append_iff hw).1 hbest'⟩
  · intro hmore
    obtain ⟨v₁, b₁, hends₁, hown⟩ := hmore.range
    obtain ⟨rfl, rfl⟩ := hends.unique hends₁
    obtain ⟨rfl, rfl⟩ := hall.unique (hends.append_iff.2 hown)
    obtain ⟨w₁, hw₁, hrec⟩ := hmore.recommended
    obtain rfl : w = w₁ := Version.orderable.inj (Option.some.inj (hw.symm.trans hw₁))
    refine eq_of_fields_eq ?_ (hmin'.trans hmin.symm) (hmax'.trans hmax.symm) ?_ ?_
    · rw [mergeAll_id h, mergeAll_id ha, same_of_mergeAll h e (List.mem_append_right own (.head _))]
    · exact hbest'.recommended_eq ((hbest.append_iff hw).2 hrec) (hmin'.trans hmin.symm)
        (hmax'.trans hmax.symm)
    · rw [mergeAll_isOptional h, mergeAll_isOptional ha]

end ProductLock.Dependency
