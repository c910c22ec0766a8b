import Mathlib.Data.Set.List
import ProductLock.Proofs.ResolutionContents

/-!
# A resolution product by product

Settling a product looks at the entries for this product and at whether it is optional, and at
nothing else (`settle_congr`). So a resolution can be read product by product: its result files what
settling a candidate gives, and holds the note that settling it leaves (`find?_resolve`,
`redundant_mem_notes_iff`); and to say how a resolution ends it is enough to say that its candidates
settle and what is left over (`resolve_of_settles`, `resolve_eq_unaccounted`). In this form two
resolutions can be compared that do not have all of their candidates in common.
-/

namespace ProductLock.Resolver

open Dependency

variable {r s : Resolver} {declared declared' discovered discovered' : List Dependency}
  {id : ProductId} {d : Dependency} {note : Option Note}

theorem checkPolicy_of_subset (h : r.checkPolicy declared = .ok ()) (hsub : declared' ⊆ declared) :
    r.checkPolicy declared' = .ok () := by
  obtain ⟨hself, hconflict⟩ := checkPolicy_eq_ok_iff.1 h
  obtain ⟨hboth, hdeclared⟩ := policyConflict?_eq_none_iff.1 hconflict
  exact checkPolicy_eq_ok_iff.2 ⟨fun d hd => hself d (hsub hd),
    policyConflict?_eq_none_iff.2 ⟨hboth, fun d hd => hdeclared d (hsub hd)⟩⟩

theorem settle_congr (hown : entriesFor id declared = entriesFor id declared')
    (hothers : entriesFor id (r.recommendations discovered) =
      entriesFor id (s.recommendations discovered'))
    (hoptional : r.optional.contains id = s.optional.contains id) :
    r.settle declared discovered id = s.settle declared' discovered' id := by
  unfold settle
  rw [hown, hothers, hoptional]

/-! ## How a resolution ends -/

/-- Candidates that settle one by one settle one after another. -/
theorem exists_settled
    (hs : ∀ id ∈ r.candidates declared discovered,
      ∃ d note, r.Settles declared discovered id d note) :
    ∃ settled : List (Dependency × Option Note),
      (r.candidates declared discovered).map (r.settle declared discovered) =
        settled.map fun x => .ok (some x) := by
  have hrange : (r.candidates declared discovered).map (r.settle declared discovered) ∈
      Set.range (List.map fun x => .ok (some x)) := by
    rw [Set.range_list_map]
    intro outcome hmem
    obtain ⟨id, hid, rfl⟩ := List.mem_map.1 hmem
    obtain ⟨d, note, hd⟩ := hs id hid
    exact ⟨(d, note), (settle_eq_ok_some_iff.2 hd).symm⟩
  obtain ⟨settled, h⟩ := hrange
  exact ⟨settled, h.symm⟩

/-- A resolution succeeds if its candidates settle and nothing is left over. -/
theorem resolve_of_settles (hp : r.checkPolicy declared = .ok ())
    (hs : ∀ id ∈ r.candidates declared discovered,
      ∃ d note, r.Settles declared discovered id d note)
    (hleft : ∀ d ∈ discovered, d.id ≠ r.product →
      d.id ∈ r.candidates declared discovered ∨ r.ignored.contains d.id = true) :
    ∃ res, r.resolve declared discovered = .ok res := by
  obtain ⟨settled, hs⟩ := exists_settled hs
  refine ⟨r.outcome discovered settled, ?_⟩
  rw [resolve_eq_conclude hp hs, conclude_eq_ok_iff, unaccounted?_eq_none_iff]
  refine ⟨fun d hd hne => ?_, rfl⟩
  rw [contains_settled hs]
  exact hleft d hd hne

/-- A resolution whose candidates settle fails for the one product that is left over. -/
theorem resolve_eq_unaccounted (hp : r.checkPolicy declared = .ok ())
    (hs : ∀ id ∈ r.candidates declared discovered,
      ∃ d note, r.Settles declared discovered id d note)
    (hid : ∃ d ∈ discovered, d.id = id) (hne : id ≠ r.product)
    (hc : id ∉ r.candidates declared discovered) (hi : r.ignored.contains id = false)
    (hothers : ∀ d ∈ discovered, d.id ≠ r.product → d.id ≠ id →
      d.id ∈ r.candidates declared discovered ∨ r.ignored.contains d.id = true) :
    r.resolve declared discovered = .error (.unaccountedRecommendation id) := by
  obtain ⟨settled, hs⟩ := exists_settled hs
  have hcontains {id : ProductId} :
      (DependencySet.ofList (settled.map Prod.fst)).contains id = true ↔
        id ∈ r.candidates declared discovered := contains_settled hs
  rw [resolve_eq_conclude hp hs, conclude]
  cases hu : r.unaccounted? discovered (.ofList (settled.map Prod.fst)) with
  | none =>
      obtain ⟨d, hd, rfl⟩ := hid
      rcases unaccounted?_eq_none_iff.1 hu d hd hne with h | h
      · exact absurd (hcontains.1 h) hc
      · rw [hi] at h
        cases h
  | some other =>
      have hleft := List.find?_some hu
      rw [Bool.and_eq_true, Bool.not_eq_true', Bool.not_eq_true'] at hleft
      obtain ⟨d, hd, rfl⟩ := mem_ids.1 (List.mem_of_find?_eq_some hu)
      obtain ⟨hd, hdp⟩ := mem_recommendations.1 hd
      have heq : d.id = id := by
        refine Decidable.byContradiction fun hdid => ?_
        rcases hothers d hd hdp hdid with h | h
        · exact absurd (hcontains.2 h) (by rw [hleft.2]; decide)
        · exact absurd h (by rw [hleft.1]; decide)
      rw [heq]

/-! ## What a resolution files and notes -/

section Resolved

variable {res : Resolution} (h : r.resolve declared discovered = .ok res)

include h

theorem contains_resolve :
    res.dependencies.contains id = true ↔ id ∈ r.candidates declared discovered := by
  obtain ⟨_, _, hs, _, rfl⟩ := resolve_eq_ok_iff.1 h
  exact contains_settled hs

theorem find?_resolve : res.dependencies.find? id = some d ↔
    id ∈ r.candidates declared discovered ∧ ∃ note, r.Settles declared discovered id d note := by
  obtain ⟨_, settled, hs, _, rfl⟩ := resolve_eq_ok_iff.1 h
  refine (find?_settled hs).trans ⟨fun hd => ?_, fun hd => ?_⟩
  · obtain ⟨⟨note, hmem⟩, rfl⟩ := hd
    refine ⟨?_, note, settles_of_mem hs hmem⟩
    rw [← map_id_settled hs]
    exact List.mem_map_of_mem (List.mem_map_of_mem hmem)
  · obtain ⟨hc, note, hd⟩ := hd
    exact ⟨⟨note, mem_settled hs hc hd⟩, hd.id_eq⟩

theorem redundant_mem_notes_iff {alone : Dependency} :
    .redundant d alone ∈ res.report.notes ↔ ∃ id ∈ r.candidates declared discovered,
      ∃ x, r.Settles declared discovered id x (some (.redundant d alone)) := by
  obtain ⟨_, settled, hs, _, rfl⟩ := resolve_eq_ok_iff.1 h
  show _ ∈ settled.filterMap Prod.snd ++ (r.unusedOptional discovered).map .unusedOptional ↔ _
  rw [List.mem_append, or_iff_left (by simp), List.mem_filterMap]
  refine ⟨fun hn => ?_, fun hn => ?_⟩
  · obtain ⟨⟨x, note⟩, hmem, rfl⟩ := hn
    refine ⟨x.id, ?_, x, settles_of_mem hs hmem⟩
    rw [← map_id_settled hs]
    exact List.mem_map_of_mem (List.mem_map_of_mem hmem)
  · obtain ⟨id, hc, x, hx⟩ := hn
    exact ⟨_, mem_settled hs hc hx, rfl⟩

/-- The candidates of a resolution that succeeded were all settled. -/
theorem settles_of_resolve (hc : id ∈ r.candidates declared discovered) :
    ∃ d note, r.Settles declared discovered id d note := by
  obtain ⟨_, settled, hs, _⟩ := resolve_eq_ok_iff.1 h
  have hmem := List.mem_map_of_mem (f := r.settle declared discovered) hc
  rw [hs] at hmem
  obtain ⟨x, _, hx⟩ := List.mem_map.1 hmem
  exact ⟨x.1, x.2, settle_eq_ok_some_iff.1 hx.symm⟩

end Resolved

end ProductLock.Resolver
