import ProductLock.Proofs.MergeAbsorption
import ProductLock.Proofs.ResolutionEntries
import ProductLock.Proofs.ResolutionFailure

/-!
# Resolving what was resolved

The result of a resolution can be declared in its turn and resolved against the same
recommendations, and it comes back unchanged: the same dependencies with the same marks. Product by
product, what was filed takes the place of the declarations that it was merged from, and a merge
absorbs its result (`mergeAll_withOptional_absorbs`). The mark that a merge clears is set again,
because the one declaration that there is now carries it. The look for a redundant declaration
cannot fail the second time, since it merges the same discovered dependencies as the first.

The one thing in the way is the policy, by which a product that is marked optional must not be
declared. So the second resolution succeeds exactly when no product of the result is marked optional
(`exists_resolve_again_iff`), and without optional products it always does.
-/

namespace ProductLock

theorem DependencySet.ext_find? {s t : DependencySet} (h : ∀ id, s.find? id = t.find? id)
    (ho : s.optional = t.optional) (hi : s.ignored = t.ignored) : s = t := by
  obtain ⟨ds, _, _⟩ := s
  obtain ⟨es, _, _⟩ := t
  obtain rfl : ds = es := Catalog.ext_find? h
  cases ho
  cases hi
  rfl

namespace Resolver

open Dependency

variable {r : Resolver} {declared discovered : List Dependency} {id : ProductId} {d : Dependency}

theorem entriesFor_toList {s : Catalog Dependency.id} (hd : d ∈ s.toList) :
    entriesFor d.id s.toList = [d] := by
  refine eq_singleton_of_nodup (s.nodup.filter _) fun x => ?_
  rw [mem_entriesFor]
  constructor
  · intro hx
    exact Catalog.eq_of_key_eq hx.1 hd hx.2
  · rintro rfl
    exact ⟨hd, rfl⟩

section Resolved

variable {res : Resolution} (h : r.resolve declared discovered = .ok res)
  (ho : ∀ d ∈ res.dependencies.toList, r.optional.contains d.id = false)

include h

theorem mem_candidates_iff_mem_resolved :
    id ∈ r.candidates declared discovered ↔ ∃ d ∈ res.dependencies.toList, d.id = id := by
  rw [← contains_resolve h]
  exact Catalog.contains_iff

theorem settles_resolved (hd : d ∈ res.dependencies.toList) :
    ∃ note, r.Settles declared discovered d.id d note :=
  ((find?_resolve h).1 (Catalog.find?_eq_some_iff.2 ⟨hd, rfl⟩)).2

include ho

theorem checkPolicy_resolved : r.checkPolicy res.dependencies.toList = .ok () := by
  have hp := (resolve_eq_ok_iff.1 h).1
  obtain ⟨_, hconflict⟩ := checkPolicy_eq_ok_iff.1 hp
  have hc {d : Dependency} (hd : d ∈ res.dependencies.toList) :
      d.id ∈ r.candidates declared discovered :=
    (mem_candidates_iff_mem_resolved h).2 ⟨d, hd, rfl⟩
  refine checkPolicy_eq_ok_iff.2 ⟨fun d hd => ?_, policyConflict?_eq_none_iff.2
    ⟨(policyConflict?_eq_none_iff.1 hconflict).1, fun d hd => ⟨?_, ho d hd⟩⟩⟩
  · exact ((mem_candidates_of_checkPolicy hp).1 (hc hd)).1
  · exact not_ignored_of_checkPolicy hp (hc hd)

theorem mem_candidates_resolved : id ∈ r.candidates res.dependencies.toList discovered ↔
    id ∈ r.candidates declared discovered := by
  have hp := (resolve_eq_ok_iff.1 h).1
  rw [mem_candidates_of_checkPolicy (checkPolicy_resolved h ho),
    ← mem_candidates_iff_mem_resolved h]
  constructor
  · intro hc
    obtain ⟨hne, hc | hc⟩ := hc
    · exact hc
    · exact (mem_candidates_of_checkPolicy hp).2 ⟨hne, .inr hc⟩
  · intro hc
    exact ⟨((mem_candidates_of_checkPolicy hp).1 hc).1, .inl hc⟩

/-- What was filed takes the place of the declarations that it was merged from. -/
theorem settles_again (hd : d ∈ res.dependencies.toList) :
    ∃ note, r.Settles res.dependencies.toList discovered d.id d note := by
  obtain ⟨note, first, rest, m, hcons, hm, hnote, hdm⟩ := settles_resolved h hd
  -- a candidate that is not optional was declared
  have hown : entriesFor d.id declared ≠ [] := by
    have hp := (resolve_eq_ok_iff.1 h).1
    obtain ⟨_, ⟨e, he, hid⟩ | ⟨_, hopt⟩⟩ := (mem_candidates_of_checkPolicy hp).1
      ((mem_candidates_iff_mem_resolved h).2 ⟨d, hd, rfl⟩)
    · exact exists_id_iff.1 ⟨e, he, hid⟩
    · rw [ho d hd] at hopt
      cases hopt
  have hsub : entriesFor d.id (r.recommendations discovered) ⊆ first :: rest := by
    rw [← hcons]
    exact List.subset_append_right _ _
  obtain ⟨note', hnote'⟩ : ∃ note',
      redundancy [d] (entriesFor d.id (r.recommendations discovered)) m = .ok note' :=
    exists_redundancy_of hown hnote
  have hsingle : entriesFor d.id res.dependencies.toList = [d] := entriesFor_toList hd
  refine ⟨note', d, entriesFor d.id (r.recommendations discovered), m, ?_, ?_, ?_, ?_⟩
  · rw [hsingle, List.singleton_append]
  · have hagain := mergeAll_withOptional_absorbs hm hsub
      (r.optional.contains d.id || (entriesFor d.id declared).any (·.isOptional))
    rwa [← hdm] at hagain
  · rwa [hsingle]
  · have hflag : d.isOptional = (r.optional.contains d.id ||
        (entriesFor d.id declared).any (·.isOptional)) := congrArg isOptional hdm
    rwa [hsingle, ho d hd, List.any_cons, List.any_nil, Bool.or_false, Bool.false_or, hflag]

theorem exists_resolve_again : ∃ res', r.resolve res.dependencies.toList discovered = .ok res' ∧
    res'.dependencies = res.dependencies := by
  have hc {id : ProductId} : id ∈ r.candidates res.dependencies.toList discovered ↔
      id ∈ r.candidates declared discovered := mem_candidates_resolved h ho
  have haccounts := resolve_accounts h
  obtain ⟨res', h'⟩ : ∃ res', r.resolve res.dependencies.toList discovered = .ok res' := by
    refine resolve_of_settles (checkPolicy_resolved h ho) (fun id hid => ?_) fun e he hne => ?_
    · obtain ⟨d, hd, rfl⟩ := (mem_candidates_iff_mem_resolved h).1 (hc.1 hid)
      exact ⟨d, settles_again h ho hd⟩
    · exact (haccounts.all_discovered e he hne).imp_left fun hin =>
        hc.2 ((contains_resolve h).1 hin)
  have haccounts' := resolve_accounts h'
  have hfind {d : Dependency} (hd : d ∈ res.dependencies.toList) :
      res'.dependencies.find? d.id = some d :=
    (find?_resolve h').2 ⟨hc.2 ((mem_candidates_iff_mem_resolved h).2 ⟨d, hd, rfl⟩),
      settles_again h ho hd⟩
  refine ⟨res', h', DependencySet.ext_find? (fun id => Option.ext fun x => ?_)
    (haccounts'.optional_eq.trans haccounts.optional_eq.symm)
    (haccounts'.ignored_eq.trans haccounts.ignored_eq.symm)⟩
  constructor
  · intro hx
    have hcand := ((find?_resolve h').1 hx).1
    obtain ⟨d, hd, rfl⟩ := (mem_candidates_iff_mem_resolved h).1 (hc.1 hcand)
    obtain rfl : d = x := Option.some.inj ((hfind hd).symm.trans hx)
    exact Catalog.find?_eq_some_iff.2 ⟨hd, rfl⟩
  · intro hx
    obtain ⟨hmem, rfl⟩ := Catalog.find?_eq_some_iff.1 hx
    exact hfind hmem

end Resolved

/-- The same set comes back exactly when no product of it is marked optional. -/
theorem exists_resolve_again_iff {res : Resolution} (h : r.resolve declared discovered = .ok res) :
    (∃ res', r.resolve res.dependencies.toList discovered = .ok res' ∧
        res'.dependencies = res.dependencies) ↔
      ∀ d ∈ res.dependencies.toList, r.optional.contains d.id = false := by
  refine ⟨fun hres d hd => ?_, fun ho => exists_resolve_again h ho⟩
  obtain ⟨res', h', _⟩ := hres
  obtain ⟨_, hconflict⟩ := checkPolicy_eq_ok_iff.1 (resolve_eq_ok_iff.1 h').1
  exact ((policyConflict?_eq_none_iff.1 hconflict).2 d hd).2

/-- Without optional products, resolving the result of a resolution against the same recommendations
succeeds and gives the same set of dependencies. -/
theorem resolve_idempotent {res : Resolution} (ho : r.optional = .empty)
    (h : r.resolve declared discovered = .ok res) :
    ∃ res', r.resolve res.dependencies.toList discovered = .ok res' ∧
      res'.dependencies = res.dependencies := by
  refine (exists_resolve_again_iff h).2 fun d _ => ?_
  rw [ho]
  rfl

/-- The merged dependency has a mark and a recommendation that no merge of the declared and
discovered dependencies gives it. -/
theorem resolve_idempotent_flagged :
    let bar (minimum : Version) (maximum : Bound) (isOptional : Bool) : Dependency :=
      ⟨⟨"com.foo", "bar"⟩, minimum, maximum, none, isOptional⟩
    let r : Resolver := ⟨⟨"com.example", "service"⟩, .ofList [⟨"com.foo", "old"⟩], .empty⟩
    let declared := [bar (.orderable ⟨⟨1, 0, 0⟩, .release⟩) (.major 1) true,
      bar (.freeform ⟨⟨1, 4, 0⟩, "1.4.0.dirty"⟩) .any false]
    let discovered := [bar (.orderable ⟨⟨1, 2, 0⟩, .candidate 1 none⟩) (.minor 1 3) false,
      ⟨⟨"com.foo", "old"⟩, .orderable ⟨⟨2, 0, 0⟩, .release⟩, .major 2, none, false⟩]
    let merged : Dependency :=
      { bar (.orderable ⟨⟨1, 2, 0⟩, .candidate 1 none⟩) (.minor 1 3) true with
        recommended := some (.orderable ⟨⟨1, 2, 0⟩, .candidate 1 none⟩) }
    ∃ res res', r.resolve declared discovered = .ok res ∧ res.dependencies.toList = [merged] ∧
      r.resolve [merged] discovered = .ok res' ∧ res'.dependencies = res.dependencies := by
  intro bar r declared discovered merged
  have hset : (r.resolve declared discovered).toOption.map (·.dependencies.toList) =
    some [merged] := by decide +kernel
  obtain ⟨res, h, hmerged⟩ := exists_ok_of_map_eq hset
  obtain ⟨res', h', hsame⟩ := resolve_idempotent rfl h
  rw [hmerged] at h'
  exact ⟨res, res', h, hmerged, h', hsame⟩

end Resolver

end ProductLock
