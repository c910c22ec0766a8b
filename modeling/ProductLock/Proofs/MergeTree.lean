import ProductLock.Proofs.MergeIntersection
import ProductLock.Proofs.MergeSuccess

/-!
# Merging two at a time

Merging two dependencies at a time, in any order and with any bracketing, is compared with merging
all of them in one pass. The ends of the range come out the same, because the ends of what is merged
from two parts are the ends of both parts together (`Ends.append`). A merge on the way fails only if
the merge of all fails too: its ends lie outside those of the whole list, and a range stays one when
its ends move apart.

The recommendations are where the two ways part. A merge on the way keeps only the best
recommendation that fits so far, and a later, tighter maximum may then leave nothing of it; it may
also recommend its own minimum, which nobody recommended. What carries the comparison is that every
recommendation on the way is that of a leaf or the minimum of a leaf (`StandsFor.recommended`). The
minimum of a leaf can be in the final range only as its lower end, so it never outdoes what the
merge of all recommends. And as long as no maximum in the list excludes a recommendation of the
list, the best one of each part stays (`Recalls`), and the outcome is the same as a whole.
-/

namespace ProductLock

open Dependency

/-- Dependencies in some order, with a bracketing for merging them two at a time. -/
inductive MergeTree
  | leaf (d : Dependency)
  | node (left right : MergeTree)

namespace MergeTree

def leaves : MergeTree → List Dependency
  | leaf d => [d]
  | node l r => l.leaves ++ r.leaves

/-- The first merge that fails ends it. -/
def merged : MergeTree → Except ConstraintError Dependency
  | leaf d => .ok d
  | node l r => do
      let a ← l.merged
      let b ← r.merged
      merge a b

theorem exists_leaf (t : MergeTree) : ∃ d ds, t.leaves = d :: ds := by
  induction t with
  | leaf d => exact ⟨d, [], rfl⟩
  | node l r ihl _ =>
      obtain ⟨d, ds, hd⟩ := ihl
      exact ⟨d, ds ++ r.leaves, by rw [leaves, hd, List.cons_append]⟩

theorem merged_node_eq_ok_iff {l r : MergeTree} {m : Dependency} :
    (node l r).merged = .ok m ↔
      ∃ a, l.merged = .ok a ∧ ∃ b, r.merged = .ok b ∧ merge a b = .ok m := by
  rw [merged]
  simp only [bind_eq_ok_iff]

end MergeTree

namespace Dependency

variable {a b m : Dependency} {ds es : List Dependency} {v w : OrderableVersion} {c : Bound}

/-! ## The ends of two parts -/

theorem ends_singleton (h : a.minimum = .orderable v) : Ends [a] v a.maximum := by
  refine ⟨⟨a, .head _, h⟩, fun e he u hu => ?_, ⟨a, .head _, rfl⟩, fun e he => ?_⟩
  · obtain rfl := List.mem_singleton.1 he
    rw [h] at hu
    cases hu
    exact Std.le_refl v
  · obtain rfl := List.mem_singleton.1 he
    exact Std.le_refl e.maximum

theorem Ends.append {u : OrderableVersion} (ha : a.minimum = .orderable v)
    (hds : Ends ds v a.maximum) (hb : b.minimum = .orderable w) (hes : Ends es w b.maximum)
    (h : Ends [a, b] u c) : Ends (ds ++ es) u c := by
  have hmem {x : Dependency} : x ∈ [a, b] ↔ x = a ∨ x = b := by simp
  refine ⟨?_, fun e he x hx => ?_, ?_, fun e he => ?_⟩
  · obtain ⟨x, hx, hxu⟩ := h.minimum_mem
    rcases hmem.1 hx with rfl | rfl
    · obtain ⟨e, he, hev⟩ := hds.minimum_mem
      exact ⟨e, List.mem_append_left es he, hev.trans (ha.symm.trans hxu)⟩
    · obtain ⟨e, he, hew⟩ := hes.minimum_mem
      exact ⟨e, List.mem_append_right ds he, hew.trans (hb.symm.trans hxu)⟩
  · rcases List.mem_append.1 he with he | he
    · exact Std.le_trans (hds.le_minimum e he x hx) (h.le_minimum a (hmem.2 (.inl rfl)) v ha)
    · exact Std.le_trans (hes.le_minimum e he x hx) (h.le_minimum b (hmem.2 (.inr rfl)) w hb)
  · obtain ⟨x, hx, rfl⟩ := h.maximum_mem
    rcases hmem.1 hx with rfl | rfl
    · obtain ⟨e, he, hec⟩ := hds.maximum_mem
      exact ⟨e, List.mem_append_left es he, hec⟩
    · obtain ⟨e, he, hec⟩ := hes.maximum_mem
      exact ⟨e, List.mem_append_right ds he, hec⟩
  · rcases List.mem_append.1 he with he | he
    · exact Std.le_trans (h.maximum_le a (hmem.2 (.inl rfl))) (hds.maximum_le e he)
    · exact Std.le_trans (h.maximum_le b (hmem.2 (.inr rfl))) (hes.maximum_le e he)

/-! ## What a merge on the way keeps -/

theorem RecommendsBest.of_mem_iff (h : m.RecommendsBest ds) (hmem : ∀ e, e ∈ es ↔ e ∈ ds) :
    m.RecommendsBest es := by
  obtain ⟨x, hx, hallows, hbest, hfrom⟩ := h
  refine ⟨x, hx, hallows, fun e he => hbest e ((hmem e).1 he), hfrom.imp_left fun h => ?_⟩
  obtain ⟨e, he, hex⟩ := h
  exact ⟨e, (hmem e).2 he, hex⟩

/-- The dependency has the ends of those it stands for, and recommends nothing new but a minimum. -/
structure StandsFor (d : Dependency) (ds : List Dependency) : Prop where
  valid : d.Valid
  id_eq : ∀ e ∈ ds, e.id = d.id
  ends : ∃ v, d.minimum = .orderable v ∧ Ends ds v d.maximum
  recommended : ∀ w, d.recommended = some (.orderable w) →
    (∃ e ∈ ds, e.recommended = some (.orderable w)) ∨ ∃ e ∈ ds, e.minimum = .orderable w

/-- No recommendation of those it stands for is lost, unless it lies below the minimum. -/
def Recalls (d : Dependency) (ds : List Dependency) : Prop :=
  ∀ v, d.minimum = .orderable v → ∀ e ∈ ds, ∀ u, e.recommended = some (.orderable u) → v ≤ u →
    ∃ w, d.recommended = some (.orderable w) ∧ u ≤ w

/-- No maximum excludes a recommendation. -/
def AllFit (ds : List Dependency) : Prop :=
  ∀ e ∈ ds, ∀ v, e.recommended = some (.orderable v) → ∀ f ∈ ds, f.maximum.admits v.base = true

theorem AllFit.of_subset (h : AllFit es) (hsub : ds ⊆ es) : AllFit ds :=
  fun e he v hv f hf => h e (hsub he) v hv f (hsub hf)

theorem standsFor_self (hv : a.Valid) (ho : a.minimum = .orderable v) : a.StandsFor [a] := by
  refine ⟨hv, fun e he => ?_, ⟨v, ho, ends_singleton ho⟩, fun w hw => ?_⟩
  · rw [List.mem_singleton.1 he]
  · exact .inl ⟨a, .head _, hw⟩

theorem StandsFor.recommended_of_subset (h : a.StandsFor ds) (hsub : ds ⊆ es)
    (hw : a.recommended = some (.orderable w)) :
    (∃ e ∈ es, e.recommended = some (.orderable w)) ∨ ∃ e ∈ es, e.minimum = .orderable w := by
  refine (h.recommended w hw).imp (fun h => ?_) fun h => ?_
  · obtain ⟨e, he, hew⟩ := h
    exact ⟨e, hsub he, hew⟩
  · obtain ⟨e, he, hew⟩ := h
    exact ⟨e, hsub he, hew⟩

/-- What a part recommends is within the tightest maximum, if no maximum excludes a recommendation
and the minimum is within it as well. -/
theorem StandsFor.admits_recommended (h : a.StandsFor ds) (hsub : ds ⊆ es) (hends : Ends es v c)
    (hfit : AllFit es) (hv : c.admits v.base = true)
    (hw : a.recommended = some (.orderable w)) : c.admits w.base = true := by
  rcases h.recommended_of_subset hsub hw with ⟨e, he, hew⟩ | ⟨e, he, hew⟩
  · obtain ⟨f, hf, rfl⟩ := hends.maximum_mem
    exact hfit e he w hew f hf
  · exact Bound.admits_base_of_le (hends.le_minimum e he w hew) hv

theorem recalls_self : a.Recalls [a] := by
  intro v _ e he u hu _
  obtain rfl := List.mem_singleton.1 he
  exact ⟨u, hu, Std.le_refl u⟩

section Step

variable (ha : a.StandsFor ds) (hb : b.StandsFor es) (hid : b.id = a.id)

include ha hb hid

/-- Two parts merge exactly when the ends of both together make a range. -/
theorem merge_eq_ok_iff (hends : Ends (ds ++ es) v c) : (∃ m, merge a b = .ok m) ↔
    IsRange (.orderable v) c := by
  obtain ⟨x, hx, hds⟩ := ha.ends
  obtain ⟨y, hy, hes⟩ := hb.ends
  have hids : ∀ e ∈ [b], e.id = a.id := List.forall_mem_singleton.2 hid
  obtain ⟨v', c', hab⟩ := exists_ends a [b] (by simp [hx, hy])
  obtain ⟨rfl, rfl⟩ := hends.unique (hds.append hx hy hes hab)
  simp only [merge, mergeAll_eq_ok_iff_of_ends hab hids ha.valid]
  exact ⟨fun h => h.elim fun _ => And.left, fun h => ⟨_, h, rfl⟩⟩

theorem StandsFor.merge (h : merge a b = .ok m) : m.StandsFor (ds ++ es) := by
  obtain ⟨x, hx, hds⟩ := ha.ends
  obtain ⟨y, hy, hes⟩ := hb.ends
  have hids : ∀ e ∈ [b], e.id = a.id := List.forall_mem_singleton.2 hid
  obtain ⟨v, c, hab⟩ := exists_ends a [b] (by simp [hx, hy])
  obtain ⟨_, hm⟩ := (mergeAll_eq_ok_iff_of_ends hab hids ha.valid).1 h
  have hmin : m.minimum = .orderable v := by rw [hm]
  have hmax : m.maximum = c := by rw [hm]
  have hends : Ends (ds ++ es) v m.maximum := by
    rw [hmax]
    exact hds.append hx hy hes hab
  refine ⟨mergeAll_valid h, fun e he => ?_, ⟨v, hmin, hends⟩, fun w hw => ?_⟩
  · rw [mergeAll_id h]
    rcases List.mem_append.1 he with he | he
    · exact ha.id_eq e he
    · exact (hb.id_eq e he).trans hid
  · obtain ⟨w', hw', _, _, hfrom⟩ := mergeAll_recommendsBest h hmin
    obtain rfl : w = w' := Version.orderable.inj (Option.some.inj (hw.symm.trans hw'))
    rcases hfrom with ⟨e, he, hew⟩ | hmw
    · rcases List.mem_cons.1 he with rfl | he
      · exact ha.recommended_of_subset (List.subset_append_left ds es) hew
      · obtain rfl := List.mem_singleton.1 he
        exact hb.recommended_of_subset (List.subset_append_right ds es) hew
    · obtain ⟨e, he, hev⟩ := hends.minimum_mem
      exact .inr ⟨e, he, hev.trans (hmin.symm.trans hmw)⟩

/-- What a part recommends at its best stays in the range, or lies below the new minimum. -/
theorem Recalls.merge (hra : a.Recalls ds) (hrb : b.Recalls es) (hfit : AllFit (ds ++ es))
    (h : merge a b = .ok m) : m.Recalls (ds ++ es) := by
  obtain ⟨x, hx, hds⟩ := ha.ends
  obtain ⟨y, hy, hes⟩ := hb.ends
  obtain ⟨v, hmin, hends⟩ := (ha.merge hb hid h).ends
  obtain ⟨w, hw, _, hbest, _⟩ := mergeAll_recommendsBest h hmin
  have hadmits := (mergeAll_valid h).minimum_le
  rw [hmin] at hadmits
  -- the best of a part is offered to the merge, so it is not higher than what the merge recommends
  have hpart {d : Dependency} {l : List Dependency} {z : OrderableVersion} (hd : d.StandsFor l)
      (hmem : d ∈ [a, b]) (hsub : l ⊆ ds ++ es) (hdr : d.Recalls l) (hz : d.minimum = .orderable z)
      (hzv : z ≤ v) {e : Dependency} (he : e ∈ l) {u : OrderableVersion}
      (hu : e.recommended = some (.orderable u)) (hvu : v ≤ u) : u ≤ w := by
    obtain ⟨best, hdb, hub⟩ := hdr z hz e he u hu (Std.le_trans hzv hvu)
    have hallows : m.Allows best := (allows_iff hmin).2
      ⟨Std.le_trans hvu hub, hd.admits_recommended hsub hends hfit hadmits hdb⟩
    exact Std.le_trans hub (hbest d hmem best hdb hallows)
  have hle {d : Dependency} {l : List Dependency} {z : OrderableVersion}
      (hz : Ends l z d.maximum) (hsub : l ⊆ ds ++ es) : z ≤ v := (hends.le_of_subset hz hsub).1
  intro v' hv' e he u hu hvu
  obtain rfl : v = v' := Version.orderable.inj (hmin.symm.trans hv')
  refine ⟨w, hw, ?_⟩
  have hl := List.subset_append_left ds es
  have hr := List.subset_append_right ds es
  rcases List.mem_append.1 he with he | he
  · exact hpart ha (.head _) hl hra hx (hle hds hl) he hu hvu
  · exact hpart hb (.tail _ (.head _)) hr hrb hy (hle hes hr) he hu hvu

end Step

/-! ## Against the best of all -/

section Best

variable {n : Dependency} (hmv : m.minimum = .orderable v) (hmin : n.minimum = m.minimum)
  (hmax : n.maximum = m.maximum) (hn : n.RecommendsBest ds)
  (hw : m.recommended = some (.orderable w)) (hrange : m.Allows w)

include hmv hmin hmax hn hw hrange

theorem StandsFor.le_best (hm : m.StandsFor ds) :
    ∃ x, n.recommended = some (.orderable x) ∧ w ≤ x := by
  obtain ⟨x, hx, hallows, hbest, _⟩ := hn
  refine ⟨x, hx, ?_⟩
  rcases hm.recommended w hw with ⟨e, he, hew⟩ | ⟨e, he, hew⟩
  · rw [Allows, ← hmin, ← hmax] at hrange
    exact hbest e he w hew hrange
  · obtain ⟨v', hmv', hends⟩ := hm.ends
    obtain rfl : v = v' := Version.orderable.inj (hmv.symm.trans hmv')
    have hvx : v ≤ x := ((allows_iff (hmin.trans hmv)).1 hallows).1
    exact Std.le_trans (hends.le_minimum e he w hew) hvx

theorem Recalls.recommended_eq (hm : m.StandsFor ds) (hr : m.Recalls ds) :
    m.recommended = n.recommended := by
  obtain ⟨x, hx, hwx⟩ := hm.le_best hmv hmin hmax hn hw hrange
  obtain ⟨x', hx', hallows, _, hfrom⟩ := hn
  obtain rfl : x = x' := Version.orderable.inj (Option.some.inj (hx.symm.trans hx'))
  have hxw : x ≤ w := by
    rcases hfrom with ⟨e, he, hex⟩ | hnx
    · obtain ⟨w', hw', hle⟩ := hr v hmv e he x hex ((allows_iff (hmin.trans hmv)).1 hallows).1
      obtain rfl : w = w' := Version.orderable.inj (Option.some.inj (hw.symm.trans hw'))
      exact hle
    · obtain rfl : v = x := Version.orderable.inj (hmv.symm.trans (hmin.symm.trans hnx))
      exact ((allows_iff hmv).1 hrange).1
  rw [hw, hx, Std.le_antisymm hwx hxw]

end Best

end Dependency

namespace MergeTree

variable {t : MergeTree} {id : ProductId} {m : Dependency} {v : OrderableVersion} {c : Bound}

/-! ## From the leaves up -/

/-- The leaves are valid dependencies on one product with minimums that have a place in the
order. -/
def Comparable (id : ProductId) (ds : List Dependency) : Prop :=
  ∀ e ∈ ds, e.id = id ∧ e.Valid ∧ ∃ v, e.minimum = .orderable v

theorem Comparable.left {ds es : List Dependency} (h : Comparable id (ds ++ es)) :
    Comparable id ds := fun e he => h e (List.mem_append_left es he)

theorem Comparable.right {ds es : List Dependency} (h : Comparable id (ds ++ es)) :
    Comparable id es := fun e he => h e (List.mem_append_right ds he)

theorem id_of_standsFor (h : Comparable id t.leaves) (hm : m.StandsFor t.leaves) : m.id = id := by
  obtain ⟨d, ds, hd⟩ := t.exists_leaf
  have hmem : d ∈ t.leaves := hd ▸ .head ds
  exact (hm.id_eq d hmem).symm.trans (h d hmem).1

/-- What stands for two parts of a tree is about the same product. -/
theorem id_eq_of_standsFor {l r : MergeTree} {a b : Dependency}
    (h : Comparable id (node l r).leaves) (ha : a.StandsFor l.leaves) (hb : b.StandsFor r.leaves) :
    b.id = a.id :=
  (id_of_standsFor h.right hb).trans (id_of_standsFor h.left ha).symm

theorem merged_standsFor (h : Comparable id t.leaves) (hm : t.merged = .ok m) :
    m.StandsFor t.leaves := by
  induction t generalizing m with
  | leaf d =>
      obtain rfl : d = m := Except.ok.inj hm
      obtain ⟨_, hv, v, ho⟩ := h d (.head _)
      exact standsFor_self hv ho
  | node l r ihl ihr =>
      obtain ⟨a, ha, b, hb, hm⟩ := merged_node_eq_ok_iff.1 hm
      have ha := ihl h.left ha
      have hb := ihr h.right hb
      exact ha.merge hb (id_eq_of_standsFor h ha hb) hm

theorem merged_recalls (h : Comparable id t.leaves) (hfit : AllFit t.leaves)
    (hm : t.merged = .ok m) : m.Recalls t.leaves := by
  induction t generalizing m with
  | leaf d =>
      obtain rfl : d = m := Except.ok.inj hm
      exact recalls_self
  | node l r ihl ihr =>
      obtain ⟨a, ha, b, hb, hm⟩ := merged_node_eq_ok_iff.1 hm
      have hra := ihl h.left (hfit.of_subset (List.subset_append_left _ _)) ha
      have hrb := ihr h.right (hfit.of_subset (List.subset_append_right _ _)) hb
      have ha := merged_standsFor h.left ha
      have hb := merged_standsFor h.right hb
      exact hra.merge ha hb (id_eq_of_standsFor h ha hb) hrb hfit hm

/-- The merges on the way succeed as well, since their ends lie outside those of all leaves. -/
theorem exists_merged_iff (h : Comparable id t.leaves) (hends : Ends t.leaves v c) :
    (∃ m, t.merged = .ok m) ↔ IsRange (.orderable v) c := by
  induction t generalizing v c with
  | leaf d =>
      obtain ⟨_, hv, w, ho⟩ := h d (.head _)
      obtain ⟨rfl, rfl⟩ := hends.unique (ends_singleton ho)
      rw [← ho]
      exact ⟨fun _ => hv.isRange, fun _ => ⟨d, rfl⟩⟩
  | node l r ihl ihr =>
      have hmerge {a b : Dependency} (ha : l.merged = .ok a) (hb : r.merged = .ok b) :
          (∃ m, merge a b = .ok m) ↔ IsRange (.orderable v) c := by
        have ha := merged_standsFor h.left ha
        have hb := merged_standsFor h.right hb
        exact merge_eq_ok_iff ha hb (id_eq_of_standsFor h ha hb) hends
      refine ⟨fun hm => ?_, fun hr => ?_⟩
      · obtain ⟨m, hm⟩ := hm
        obtain ⟨a, ha, b, hb, hm⟩ := merged_node_eq_ok_iff.1 hm
        exact (hmerge ha hb).1 ⟨m, hm⟩
      · have hpart {s : MergeTree} (hs : Comparable id s.leaves)
            (hsub : s.leaves ⊆ (node l r).leaves) (ih : ∀ {v c}, Ends s.leaves v c →
              ((∃ m, s.merged = .ok m) ↔ IsRange (.orderable v) c)) : ∃ m, s.merged = .ok m := by
          obtain ⟨d, ds, hd⟩ := s.exists_leaf
          obtain ⟨x, y, hxy⟩ := exists_ends d ds fun e he => (hs e (hd ▸ he)).2.2
          rw [← hd] at hxy
          obtain ⟨hmin, hmax⟩ := hends.le_of_subset hxy hsub
          exact (ih hxy).2 (hr.mono hmin hmax)
        obtain ⟨a, ha⟩ := hpart h.left (List.subset_append_left _ _) (ihl h.left)
        obtain ⟨b, hb⟩ := hpart h.right (List.subset_append_right _ _) (ihr h.right)
        obtain ⟨m, hm⟩ := (hmerge ha hb).2 hr
        exact ⟨m, merged_node_eq_ok_iff.2 ⟨a, ha, b, hb, hm⟩⟩

/-- Merging two at a time succeeds in just the cases in which merging all in one pass does, and
gives the same range. What it recommends is never higher, and is the same if no maximum excludes a
recommendation. -/
theorem merged_agrees_mergeAll {d : Dependency} {ds : List Dependency} (hne : ds ≠ [])
    (hid : ∀ e ∈ ds, e.id = d.id) (hv : ∀ e ∈ d :: ds, e.Valid)
    (ho : ∀ e ∈ d :: ds, e.minimum.isOrderable = true) (ht : t.leaves.Perm (d :: ds)) :
    ((∃ m, t.merged = .ok m) ↔ ∃ m, mergeAll d ds = .ok m) ∧
    ∀ m n, t.merged = .ok m → mergeAll d ds = .ok n →
      m.minimum = n.minimum ∧ m.maximum = n.maximum ∧
      (∃ v w, m.recommended = some (.orderable v) ∧ n.recommended = some (.orderable w) ∧ v ≤ w) ∧
      (AllFit (d :: ds) → m = n) := by
  have hid' : ∀ e ∈ d :: ds, e.id = d.id := List.forall_mem_cons.2 ⟨rfl, hid⟩
  have hc : Comparable d.id t.leaves := by
    intro e he
    have he := ht.mem_iff.1 he
    exact ⟨hid' e he, hv e he, orderable_of_isOrderable (ho e he)⟩
  obtain ⟨v, c, hends⟩ := exists_ends d ds fun e he => orderable_of_isOrderable (ho e he)
  have hall {n : Dependency} := mergeAll_eq_ok_iff_of_ends (m := n) hends hid (hv d (.head ds))
  have hleaves : Ends t.leaves v c := hends.of_mem_iff fun _ => ht.mem_iff
  refine ⟨?_, fun m n hm hn => ?_⟩
  · simp only [exists_merged_iff hc hleaves, hall, exists_and_left, exists_eq, and_true]
  · obtain ⟨_, hparts⟩ := hall.1 hn
    have hnv : n.minimum = .orderable v := by rw [hparts]
    have hnc : n.maximum = c := by rw [hparts]
    have hbest : n.RecommendsBest t.leaves :=
      (mergeAll_recommendsBest hn hnv).of_mem_iff fun _ => ht.mem_iff
    have hs := merged_standsFor hc hm
    obtain ⟨v', hmv, hmends⟩ := hs.ends
    obtain ⟨rfl, hmc⟩ := hleaves.unique hmends
    have hmin : n.minimum = m.minimum := hnv.trans hmv.symm
    have hmax : n.maximum = m.maximum := hnc.trans hmc
    cases t with
    | leaf e =>
        have hlen := ht.length_eq
        exact absurd (List.eq_nil_of_length_eq_zero (Nat.succ.inj hlen).symm) hne
    | node l r =>
        obtain ⟨a, _, b, _, hmerge⟩ := merged_node_eq_ok_iff.1 hm
        obtain ⟨w, hw, hrange, _⟩ := mergeAll_recommendsBest hmerge hmv
        obtain ⟨x, hx, hwx⟩ := hs.le_best hmv hmin hmax hbest hw hrange
        refine ⟨hmin.symm, hmax.symm, ⟨w, x, hw, hx, hwx⟩, fun hfit => ?_⟩
        have hrecalls := merged_recalls hc (hfit.of_subset ht.subset) hm
        have hrec := hrecalls.recommended_eq hmv hmin hmax hbest hw hrange hs
        have hid : m.id = n.id := (id_of_standsFor hc hs).trans (mergeAll_id hn).symm
        have hopt : m.isOptional = n.isOptional := by
          rw [mergeAll_isOptional hmerge, mergeAll_isOptional hn]
        cases m
        cases n
        simp only at hid hmin hmax hrec hopt
        rw [hid, hmin, hmax, hrec, hopt]

/-- Merged two at a time, a recommendation can be lost: `1.5.0` gives way to `1.9.0`, and the last
maximum excludes that. -/
theorem merged_agrees_mergeAll_lost :
    let asks (bound : Bound) (recommended : Version) : Dependency :=
      ⟨⟨"com.foo", "bar"⟩, .orderable ⟨⟨1, 0, 0⟩, .release⟩, bound, some recommended, false⟩
    let a := asks (.major 1) (.orderable ⟨⟨1, 5, 0⟩, .release⟩)
    let b := asks (.major 1) (.orderable ⟨⟨1, 9, 0⟩, .release⟩)
    let c := asks (.exact ⟨1, 6, 0⟩) (.freeform ⟨⟨1, 0, 0⟩, "1.0.0-dirty"⟩)
    let t := node (leaf c) (node (leaf b) (leaf a))
    ∃ m n, t.merged = .ok m ∧ mergeAll a [b, c] = .ok n ∧ m.minimum = n.minimum ∧
      m.maximum = n.maximum ∧ ∃ v w, m.recommended = some (.orderable v) ∧
        n.recommended = some (.orderable w) ∧ v ≤ w ∧ v ≠ w := by
  intro asks a b c t
  have hm : t.merged = .ok (asks (.exact ⟨1, 6, 0⟩) (.orderable ⟨⟨1, 0, 0⟩, .release⟩)) := by
    decide +kernel
  have hn : mergeAll a [b, c] =
      .ok (asks (.exact ⟨1, 6, 0⟩) (.orderable ⟨⟨1, 5, 0⟩, .release⟩)) := by decide +kernel
  have hperm : t.leaves.Perm [a, b, c] := by decide +kernel
  obtain ⟨hmin, hmax, ⟨v, w, hv, hw, hle⟩, _⟩ :=
    (merged_agrees_mergeAll (by decide) (by decide) (by decide +kernel) (by decide) hperm).2
      _ _ hm hn
  refine ⟨_, _, hm, hn, hmin, hmax, v, w, hv, hw, hle, fun h => ?_⟩
  rw [← h, ← hv] at hw
  exact absurd hw (by decide)

end MergeTree

end ProductLock
