import ProductLock.Dependency.Valid
import ProductLock.Merge
import ProductLock.Proofs.CatalogMembership
import ProductLock.Proofs.Outcomes
import ProductLock.Proofs.VersionRange

/-!
# What a merge chooses

A merge makes three choices, each the least item under an order of its own: the dependency that
gives the minimum, the one that gives the maximum, and the recommendation. This file says once what
each choice is, in terms of the dependencies that were merged, and what a merge is in terms of its
choices (`mergeAll_eq_ok_iff`, `disjointRanges_iff`). Nothing beyond it has to look at
a fold.

The orders compare a version or a bound first and break ties by text. The first part is all that
the value of a merge depends on; the second only decides which of several dependencies with the
same bound an error names.
-/

namespace ProductLock

open Std (TransCmp)

/-! ## The least item -/

section Least

variable {α : Type} {cmp : α → α → Ordering}

theorem leastBy_cons {a b : α} {l : List α} :
    leastBy cmp a (b :: l) = leastBy cmp (if cmp b a = .lt then b else a) l := rfl

theorem leastBy_mem {a : α} {l : List α} : leastBy cmp a l ∈ a :: l := by
  induction l generalizing a with
  | nil => exact .head []
  | cons b l ih =>
      rw [leastBy_cons]
      split
      · exact .tail a ih
      · rcases List.mem_cons.1 (ih (a := a)) with h | h
        · rw [h]
          exact .head _
        · exact .tail a (.tail b h)

variable [TransCmp cmp]

theorem leastBy_isLE {a x : α} {l : List α} (hx : x ∈ a :: l) :
    (cmp (leastBy cmp a l) x).isLE = true := by
  induction l generalizing a x with
  | nil =>
      obtain rfl := List.mem_singleton.1 hx
      exact Std.ReflCmp.isLE_rfl
  | cons b l ih =>
      -- the lesser of the first two stays, and lies at or below both of them
      have hstep : ∀ y, y = a ∨ y = b →
          (cmp (if cmp b a = .lt then b else a) y).isLE = true := by
        intro y hy
        by_cases hlt : cmp b a = .lt
        · rw [if_pos hlt]
          rcases hy with rfl | rfl
          · exact Ordering.isLE_of_eq_lt hlt
          · exact Std.ReflCmp.isLE_rfl
        · rw [if_neg hlt]
          rcases hy with rfl | rfl
          · exact Std.ReflCmp.isLE_rfl
          · refine Decidable.byContradiction fun h => ?_
            exact hlt (Std.OrientedCmp.lt_of_not_isLE h)
      rw [leastBy_cons]
      rcases List.mem_cons.1 hx with rfl | hx
      · exact TransCmp.isLE_trans (ih (.head l)) (hstep _ (.inl rfl))
      · rcases List.mem_cons.1 hx with rfl | hx
        · exact TransCmp.isLE_trans (ih (.head l)) (hstep _ (.inr rfl))
        · exact ih (.tail _ hx)

/-- Where only equal items are level with each other, the least one does not depend on the order
in which the items come. -/
theorem leastBy_eq_of_perm {a b : α} {l m : List α} (hp : (a :: l).Perm (b :: m))
    (heq : ∀ x ∈ a :: l, ∀ y ∈ a :: l, cmp x y = .eq → x = y) :
    leastBy cmp a l = leastBy cmp b m := by
  have ha : leastBy cmp a l ∈ a :: l := leastBy_mem
  have hb : leastBy cmp b m ∈ a :: l := hp.mem_iff.2 leastBy_mem
  refine heq _ ha _ hb (Std.OrientedCmp.isLE_antisymm ?_ ?_)
  · exact leastBy_isLE hb
  · exact leastBy_isLE (hp.mem_iff.1 ha)

end Least

namespace Dependency

instance : TransCmp compareLower :=
  inferInstanceAs (TransCmp (compareLex (fun a b => compareOn Prod.fst b a)
    (compareOn fun a : OrderableVersion × Dependency => a.2.text)))

instance : TransCmp compareUpper :=
  inferInstanceAs (TransCmp (compareLex (compareOn maximum) (compareOn text)))

/-! ## The maximum -/

theorem upper_mem {d : Dependency} {ds : List Dependency} : upper d ds ∈ d :: ds := leastBy_mem

theorem upper_maximum_le {d e : Dependency} {ds : List Dependency} (he : e ∈ d :: ds) :
    (upper d ds).maximum ≤ e.maximum := by
  have h : (compareUpper (upper d ds) e).isLE = true := leastBy_isLE he
  exact Ordering.isLE_left_of_isLE_then h

/-- The merged maximum admits what all maximums admit. -/
theorem upper_admits_iff {d : Dependency} {ds : List Dependency} {r : Release} :
    (upper d ds).maximum.admits r = true ↔ ∀ e ∈ d :: ds, e.maximum.admits r = true := by
  refine ⟨fun h e he => ?_, fun h => ?_⟩
  · exact Bound.admits_of_le (upper_maximum_le he) h
  · exact h _ upper_mem

/-! ## The minimum -/

theorem orderable_of_isOrderable {v : Version} (h : v.isOrderable = true) :
    ∃ w, v = .orderable w := by
  cases v with
  | orderable w => exact ⟨w, rfl⟩
  | freeform w => cases h

theorem mem_orderableMinimums {ds : List Dependency} {p : OrderableVersion × Dependency} :
    p ∈ orderableMinimums ds ↔ p.2 ∈ ds ∧ p.2.minimum = .orderable p.1 := by
  obtain ⟨v, d⟩ := p
  simp only [orderableMinimums, List.mem_reverse, List.mem_filterMap, Option.map_eq_some_iff,
    Prod.mk.injEq]
  refine ⟨fun h => ?_, fun h => ?_⟩
  · obtain ⟨e, he, w, hw, rfl, rfl⟩ := h
    refine ⟨he, ?_⟩
    cases hm : e.minimum with
    | orderable u =>
        rw [hm] at hw
        exact congrArg _ (Option.some.inj hw)
    | freeform u =>
        rw [hm] at hw
        cases hw
  · obtain ⟨hd, hm⟩ := h
    refine ⟨d, hd, v, ?_, rfl, rfl⟩
    rw [hm]
    rfl

theorem lower_mem {d l : Dependency} {ds : List Dependency} (h : lower d ds = .ok l) :
    l ∈ d :: ds := by
  unfold lower at h
  split at h
  next p ps hp =>
    cases h
    have hmem : leastBy compareLower p ps ∈ orderableMinimums (d :: ds) := by
      rw [hp]
      exact leastBy_mem
    exact (mem_orderableMinimums.1 hmem).1
  next =>
    split at h
    next =>
      cases h
      exact .head ds
    next => cases h

/-- With a minimum that has a place in the order, the highest such minimum is chosen. -/
theorem lower_of_orderable {d e : Dependency} {ds : List Dependency} {w : OrderableVersion}
    (he : e ∈ d :: ds) (hw : e.minimum = .orderable w) :
    ∃ l v, lower d ds = .ok l ∧ l ∈ d :: ds ∧ l.minimum = .orderable v ∧
      ∀ x ∈ d :: ds, ∀ u, x.minimum = .orderable u → u ≤ v := by
  unfold lower
  cases hl : orderableMinimums (d :: ds) with
  | nil =>
      have : (w, e) ∈ orderableMinimums (d :: ds) :=
        mem_orderableMinimums.2 ⟨he, hw⟩
      rw [hl] at this
      cases this
  | cons p ps =>
      obtain ⟨hmem, hmin⟩ := mem_orderableMinimums.1
        (hl ▸ (leastBy_mem : leastBy compareLower p ps ∈ p :: ps))
      refine ⟨_, _, rfl, hmem, hmin, fun x hx u hu => ?_⟩
      have hxp : (u, x) ∈ p :: ps := hl ▸ mem_orderableMinimums.2 ⟨hx, hu⟩
      have h : (compareLower (leastBy compareLower p ps) (u, x)).isLE = true := leastBy_isLE hxp
      exact Ordering.isLE_left_of_isLE_then h

/-- Each text once. -/
theorem minimumTexts_eq_singleton_iff {d : Dependency} {ds : List Dependency} {t : String} :
    minimumTexts (d :: ds) = [t] ↔ ∀ e ∈ d :: ds, e.minimum.text = t := by
  have hmem (u : String) : u ∈ minimumTexts (d :: ds) ↔ ∃ e ∈ d :: ds, e.minimum.text = u := by
    rw [minimumTexts, Catalog.mem_toList_ofList, List.mem_map]
  have hnodup : (minimumTexts (d :: ds)).Nodup := Catalog.nodup _
  refine ⟨fun h e he => ?_, fun h => ?_⟩
  · have he := (hmem e.minimum.text).2 ⟨e, he, rfl⟩
    rw [h] at he
    exact List.mem_singleton.1 he
  · refine eq_singleton_of_nodup hnodup fun u => ?_
    rw [hmem]
    refine ⟨fun hu => ?_, fun hu => ?_⟩
    · obtain ⟨e, he, rfl⟩ := hu
      exact h e he
    · rw [hu]
      exact ⟨d, .head ds, h d (.head ds)⟩

/-- With no minimum that has a place in the order, they must all be the same text. -/
theorem lower_of_freeform {d : Dependency} {ds : List Dependency}
    (h : ∀ e ∈ d :: ds, e.minimum.orderable? = none) :
    lower d ds = if ∀ e ∈ ds, e.minimum.text = d.minimum.text then .ok d
      else .error (.ambiguousMinimum d.id (minimumTexts (d :: ds))) := by
  have hl : orderableMinimums (d :: ds) = [] := by
    refine List.reverse_eq_nil_iff.2 (List.filterMap_eq_nil_iff.2 fun e he => ?_)
    rw [h e he]
    rfl
  unfold lower
  simp only [hl]
  by_cases hall : ∀ e ∈ ds, e.minimum.text = d.minimum.text
  · have : minimumTexts (d :: ds) = [d.minimum.text] :=
      minimumTexts_eq_singleton_iff.2 (List.forall_mem_cons.2 ⟨rfl, hall⟩)
    rw [if_pos hall, this]
  · rw [if_neg hall]
    split
    next t ht =>
      have ht := minimumTexts_eq_singleton_iff.1 ht
      refine absurd (fun e he => ?_) hall
      rw [ht e (.tail d he), ht d (.head ds)]
    next => rfl

/-- A freeform minimum is chosen only if no minimum has a place in the order and all are the same
text, and then it is that of the first dependency. -/
theorem of_lower_freeform {d l : Dependency} {ds : List Dependency} {v : FreeformVersion}
    (hl : lower d ds = .ok l) (hv : l.minimum = .freeform v) :
    (∀ e ∈ d :: ds, e.minimum.orderable? = none) ∧ l = d ∧
      ∀ e ∈ ds, e.minimum.text = d.minimum.text := by
  have hf : ∀ e ∈ d :: ds, e.minimum.orderable? = none := by
    intro e he
    cases hm : e.minimum with
    | orderable w =>
        -- it or a higher one would have been chosen
        obtain ⟨l', u, hl', _, hu, _⟩ := lower_of_orderable he hm
        obtain rfl : l = l' := Except.ok.inj (hl.symm.trans hl')
        rw [hv] at hu
        cases hu
    | freeform w => rfl
  rw [lower_of_freeform hf] at hl
  split at hl
  next ht => exact ⟨hf, (Except.ok.inj hl).symm, ht⟩
  next => cases hl

/-! ## The recommendation -/

theorem mem_offers {ds : List Dependency} {v : OrderableVersion} :
    v ∈ ds.filterMap (fun d => d.recommended.bind Version.orderable?) ↔
      ∃ d ∈ ds, d.recommended = some (.orderable v) := by
  rw [List.mem_filterMap]
  refine ⟨fun h => ?_, fun h => ?_⟩
  · obtain ⟨d, hd, h⟩ := h
    refine ⟨d, hd, ?_⟩
    obtain ⟨r, hr, hv⟩ := Option.bind_eq_some_iff.1 h
    cases r with
    | orderable w =>
        cases hv
        exact hr
    | freeform w => cases hv
  · obtain ⟨d, hd, h⟩ := h
    refine ⟨d, hd, ?_⟩
    rw [h]
    rfl

theorem inRange_orderable_iff {m v : OrderableVersion} {b : Bound} :
    inRange (.orderable m) b v = true ↔ m ≤ v ∧ b.admits v.base = true := by
  have : (compare v m != .lt) = true ↔ m ≤ v := by
    rw [← Std.LawfulOrderOrd.isGE_compare]
    cases compare v m <;> decide
  rw [← this]
  exact Bool.and_eq_true_iff

/-- The highest offer that the range holds, or the minimum where it holds none. -/
theorem recommendation_cases (v : Version) (b : Bound) (ds : List Dependency) :
    (∃ w, recommendation v b ds = .orderable w ∧
      (∃ d ∈ ds, d.recommended = some (.orderable w)) ∧ inRange v b w = true ∧
      ∀ d ∈ ds, ∀ u, d.recommended = some (.orderable u) → inRange v b u = true → u ≤ w) ∨
    (recommendation v b ds = v ∧
      ∀ d ∈ ds, ∀ u, d.recommended = some (.orderable u) → inRange v b u = false) := by
  unfold recommendation
  simp only []
  cases hf : (ds.filterMap fun d => d.recommended.bind Version.orderable?).filter (inRange v b) with
  | nil =>
      right
      refine ⟨rfl, fun d hd u hu => ?_⟩
      exact Bool.eq_false_iff.2 (List.filter_eq_nil_iff.1 hf u (mem_offers.2 ⟨d, hd, hu⟩))
  | cons w ws =>
      left
      have hmem : leastBy (fun a b => compare b a) w ws ∈ w :: ws := leastBy_mem
      rw [← hf, List.mem_filter] at hmem
      refine ⟨_, rfl, mem_offers.1 hmem.1, hmem.2, fun d hd u hu hr => ?_⟩
      have hu : u ∈ w :: ws := hf ▸ List.mem_filter.2 ⟨mem_offers.2 ⟨d, hd, hu⟩, hr⟩
      exact @leastBy_isLE _ (fun a b => compare b a) _ w u ws hu

/-! ## The merge -/

/-- The merge of dependencies on one product when `l` gives the minimum. -/
def joined (d : Dependency) (ds : List Dependency) (l : Dependency) : Dependency :=
  ⟨d.id, l.minimum, (upper d ds).maximum,
    some (recommendation l.minimum (upper d ds).maximum (d :: ds)), false⟩

theorem find?_other_eq_none_iff {d : Dependency} {ds : List Dependency} :
    ds.find? (·.id ≠ d.id) = none ↔ ∀ e ∈ ds, e.id = d.id := by
  simp

theorem mergedParts_of_same {d : Dependency} {ds : List Dependency} (h : ∀ e ∈ ds, e.id = d.id) :
    mergedParts d ds = (lower d ds).bind fun l =>
      if (upper d ds).maximum.admits l.minimum.base then .ok (joined d ds l)
      else .error (.disjointRanges d.id l (upper d ds) l.minimum (upper d ds).maximum) := by
  unfold mergedParts
  rw [find?_other_eq_none_iff.2 h]
  cases lower d ds <;> rfl

theorem mergeAll_of_same {d : Dependency} {ds : List Dependency} (h : ∀ e ∈ ds, e.id = d.id) :
    mergeAll d ds = (lower d ds).bind fun l =>
      if (upper d ds).maximum.admits l.minimum.base then (joined d ds l).checked.mapError .invalid
      else .error (.disjointRanges d.id l (upper d ds) l.minimum (upper d ds).maximum) := by
  rw [mergeAll, mergedParts_of_same h]
  cases lower d ds with
  | error e => rfl
  | ok l =>
      show Except.bind (if _ then _ else _) _ = if _ then _ else _
      split <;> rfl

theorem mergeAll_of_find? {d other : Dependency} {ds : List Dependency}
    (h : ds.find? (·.id ≠ d.id) = some other) :
    mergeAll d ds = .error (.mismatchedProduct d.id other.id) := by
  rw [mergeAll, mergedParts, h]
  rfl

theorem mergeAll_of_other {d : Dependency} {ds : List Dependency} (h : ¬ ∀ e ∈ ds, e.id = d.id) :
    ∃ other : Dependency, mergeAll d ds = .error (.mismatchedProduct d.id other.id) := by
  cases hfind : ds.find? (·.id ≠ d.id) with
  | none => exact absurd (find?_other_eq_none_iff.1 hfind) h
  | some other => exact ⟨other, mergeAll_of_find? hfind⟩

/-- No other outcome tells of a dependency on another product. -/
theorem same_of_mergeAll_eq {d : Dependency} {ds : List Dependency}
    {out : Except ConstraintError Dependency} (h : mergeAll d ds = out)
    (hne : ∀ id, out ≠ .error (.mismatchedProduct d.id id)) : ∀ e ∈ ds, e.id = d.id := by
  refine Decidable.byContradiction fun hother => ?_
  obtain ⟨other, ho⟩ := mergeAll_of_other hother
  exact hne other.id (h.symm.trans ho)

theorem same_of_mergeAll {d m : Dependency} {ds : List Dependency} (h : mergeAll d ds = .ok m) :
    ∀ e ∈ ds, e.id = d.id :=
  same_of_mergeAll_eq h nofun

theorem mapError_checked_eq_ok_iff {d m : Dependency} {f : Invalid → ConstraintError} :
    d.checked.mapError f = .ok m ↔ d.Valid ∧ m = d := by
  rw [mapError_eq_ok_iff, checked_eq_ok_iff]

/-- What has to hold for a merge to succeed, and what it then gives. -/
theorem mergeAll_eq_ok_iff {d m : Dependency} {ds : List Dependency} :
    mergeAll d ds = .ok m ↔ (∀ e ∈ ds, e.id = d.id) ∧ ∃ l, lower d ds = .ok l ∧
      (upper d ds).maximum.admits l.minimum.base = true ∧ (joined d ds l).Valid ∧
      m = joined d ds l := by
  refine ⟨fun h => ?_, fun h => ?_⟩
  · have hid := same_of_mergeAll h
    rw [mergeAll_of_same hid] at h
    cases hl : lower d ds with
    | error e =>
        rw [hl] at h
        cases h
    | ok l =>
        rw [hl] at h
        simp only [Except.bind] at h
        split at h
        next ha => exact ⟨hid, l, rfl, ha, mapError_checked_eq_ok_iff.1 h⟩
        next => cases h
  · obtain ⟨hid, l, hl, ha, hm⟩ := h
    rw [mergeAll_of_same hid, hl]
    simp only [Except.bind]
    rw [if_pos ha]
    exact mapError_checked_eq_ok_iff.2 hm

theorem mergeAll_id {d m : Dependency} {ds : List Dependency} (h : mergeAll d ds = .ok m) :
    m.id = d.id := by
  obtain ⟨_, l, _, _, _, rfl⟩ := mergeAll_eq_ok_iff.1 h
  rfl

theorem mergeAll_valid {d m : Dependency} {ds : List Dependency} (h : mergeAll d ds = .ok m) :
    m.Valid := by
  obtain ⟨_, _, _, _, hv, rfl⟩ := mergeAll_eq_ok_iff.1 h
  exact hv

theorem mergeAll_isOptional {d m : Dependency} {ds : List Dependency}
    (h : mergeAll d ds = .ok m) : m.isOptional = false := by
  obtain ⟨_, _, _, _, _, rfl⟩ := mergeAll_eq_ok_iff.1 h
  rfl

/-- The ways in which a merge of dependencies on one product fails. -/
theorem mergeAll_eq_error_iff {d : Dependency} {ds : List Dependency} {err : ConstraintError}
    (h : ∀ e ∈ ds, e.id = d.id) : mergeAll d ds = .error err ↔
      lower d ds = .error err ∨ ∃ l, lower d ds = .ok l ∧
        ((upper d ds).maximum.admits l.minimum.base = false ∧
            err = .disjointRanges d.id l (upper d ds) l.minimum (upper d ds).maximum ∨
          (upper d ds).maximum.admits l.minimum.base = true ∧
            ∃ fault, (joined d ds l).checked = .error fault ∧ err = .invalid fault) := by
  rw [mergeAll_of_same h]
  cases lower d ds with
  | error e => simp [Except.bind]
  | ok l =>
      simp only [Except.bind, reduceCtorEq, Except.ok.injEq, false_or, exists_eq_left']
      by_cases ha : (upper d ds).maximum.admits l.minimum.base = true
      · rw [if_pos ha, mapError_eq_error_iff]
        simp [ha]
      · rw [if_neg ha]
        simp [ha, eq_comm]

theorem lower_eq_error {d : Dependency} {ds : List Dependency} {err : ConstraintError}
    (h : lower d ds = .error err) : err = .ambiguousMinimum d.id (minimumTexts (d :: ds)) := by
  unfold lower at h
  split at h
  next => cases h
  next =>
    split at h
    next => cases h
    next =>
      cases h
      rfl

/-- The merge fails because no version is in all ranges. -/
def DisjointRanges (d : Dependency) (ds : List Dependency) : Prop :=
  ∃ id lower upper minimum maximum,
    mergeAll d ds = .error (.disjointRanges id lower upper minimum maximum)

theorem mergeAll_eq_disjointRanges_iff {d l u : Dependency} {ds : List Dependency} {id : ProductId}
    {minimum : Version} {maximum : Bound} (h : ∀ e ∈ ds, e.id = d.id) :
    mergeAll d ds = .error (.disjointRanges id l u minimum maximum) ↔
      (lower d ds = .ok l ∧ (upper d ds).maximum.admits l.minimum.base = false) ∧
        id = d.id ∧ u = upper d ds ∧ minimum = l.minimum ∧ maximum = u.maximum := by
  rw [mergeAll_eq_error_iff h]
  constructor
  · rintro (hl | ⟨l', hl, ⟨ha, he⟩ | ⟨_, _, _, he⟩⟩)
    · exact absurd (lower_eq_error hl) nofun
    · cases he
      exact ⟨⟨hl, ha⟩, rfl, rfl, rfl, rfl⟩
    · cases he
  · rintro ⟨⟨hl, ha⟩, rfl, rfl, rfl, rfl⟩
    exact .inr ⟨l, hl, .inl ⟨ha, rfl⟩⟩

theorem disjointRanges_iff {d : Dependency} {ds : List Dependency} (h : ∀ e ∈ ds, e.id = d.id) :
    DisjointRanges d ds ↔ ∃ l, lower d ds = .ok l ∧
      (upper d ds).maximum.admits l.minimum.base = false := by
  simp only [DisjointRanges, mergeAll_eq_disjointRanges_iff h]
  constructor
  · rintro ⟨_, l, _, _, _, hl, _⟩
    exact ⟨l, hl⟩
  · rintro ⟨l, hl⟩
    exact ⟨_, l, _, _, _, hl, rfl, rfl, rfl, rfl⟩

end Dependency

end ProductLock
