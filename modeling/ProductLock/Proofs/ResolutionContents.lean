import ProductLock.Proofs.ResolutionSteps

/-!
# What a resolution contains

A product can be declared, recommended, ignored, marked optional or be the resolved product itself,
and these decide together whether it is in the result. `Accounts` says how, and that nothing gets
lost on the way: what is recommended is in the result unless it was ignored, and what is in the
result was merged from all of its entries. An optional flag comes from the policy or from a
declaration, never from a recommendation.
-/

namespace ProductLock.Resolver

/-- How a resolution accounts for the dependencies that went into it. -/
structure Accounts (r : Resolver) (declared discovered : List Dependency) (res : Resolution) :
    Prop where
  contains_iff : ∀ id, res.dependencies.contains id = true ↔ id ≠ r.product ∧
    ((∃ d ∈ declared, d.id = id) ∨
      (∃ d ∈ discovered, d.id = id) ∧ r.optional.contains id = true)
  not_product : res.dependencies.contains r.product = false
  not_ignored : ∀ id, r.ignored.contains id = true → res.dependencies.contains id = false
  all_discovered : ∀ d ∈ discovered, d.id ≠ r.product →
    res.dependencies.contains d.id = true ∨ r.ignored.contains d.id = true
  merged : ∀ id d, res.dependencies.find? id = some d → ∃ first rest m,
    entriesFor id declared ++ entriesFor id discovered = first :: rest ∧
    Dependency.mergeAll first rest = .ok m ∧
    d = m.withOptional (r.optional.contains id || (entriesFor id declared).any (·.isOptional))
  optional_eq : res.dependencies.optional = r.optional
  ignored_eq : res.dependencies.ignored = r.ignored
  unused_iff : ∀ id, .unusedOptional id ∈ res.report.notes ↔ r.optional.contains id = true ∧
    (id = r.product ∨ ∀ d ∈ discovered, d.id ≠ id)

variable {r : Resolver} {declared discovered : List Dependency}

/-- Once the policy is checked, being a candidate no longer depends on what is ignored. -/
theorem mem_candidates_of_checkPolicy (h : r.checkPolicy declared = .ok ()) {id : ProductId} :
    id ∈ r.candidates declared discovered ↔ id ≠ r.product ∧ ((∃ d ∈ declared, d.id = id) ∨
      (∃ d ∈ discovered, d.id = id) ∧ r.optional.contains id = true) := by
  obtain ⟨hself, hconflict⟩ := checkPolicy_eq_ok_iff.1 h
  have hboth := (policyConflict?_eq_none_iff.1 hconflict).1
  rw [mem_candidates]
  refine ⟨fun hc => ?_, fun hc => ?_⟩
  · rcases hc with ⟨d, hd, rfl⟩ | ⟨hd, hp, ho, _⟩
    · exact ⟨hself d hd, .inl ⟨d, hd, rfl⟩⟩
    · exact ⟨hp, .inr ⟨hd, ho⟩⟩
  · obtain ⟨hp, hd | ⟨hd, ho⟩⟩ := hc
    · exact .inl hd
    · refine .inr ⟨hd, hp, ho, Bool.eq_false_iff.2 fun hi => ?_⟩
      rw [hboth id hi] at ho
      cases ho

theorem not_ignored_of_checkPolicy (h : r.checkPolicy declared = .ok ()) {id : ProductId}
    (hid : id ∈ r.candidates declared discovered) : r.ignored.contains id = false := by
  obtain ⟨_, hconflict⟩ := checkPolicy_eq_ok_iff.1 h
  rcases mem_candidates.1 hid with ⟨d, hd, rfl⟩ | ⟨_, _, _, hi⟩
  · exact ((policyConflict?_eq_none_iff.1 hconflict).2 d hd).1
  · exact hi

theorem resolve_accounts {res : Resolution} (h : r.resolve declared discovered = .ok res) :
    r.Accounts declared discovered res := by
  obtain ⟨hpolicy, settled, hs, hleft, rfl⟩ := resolve_eq_ok_iff.1 h
  have hcontains (id : ProductId) :
      (r.outcome discovered settled).dependencies.contains id = true ↔
        id ∈ r.candidates declared discovered := contains_settled hs
  refine ⟨fun id => ?_, ?_, fun id hi => ?_, unaccounted?_eq_none_iff.1 hleft, fun id d hd => ?_,
    rfl, rfl, fun id => ?_⟩
  · rw [hcontains, mem_candidates_of_checkPolicy hpolicy]
  · rw [← Bool.not_eq_true, hcontains, mem_candidates_of_checkPolicy hpolicy]
    exact fun hc => hc.1 rfl
  · rw [← Bool.not_eq_true, hcontains]
    intro hc
    rw [not_ignored_of_checkPolicy hpolicy hc] at hi
    cases hi
  · obtain ⟨⟨note, hmem⟩, rfl⟩ := (find?_settled hs).1 hd
    have hc : d.id ∈ r.candidates declared discovered := by
      rw [← map_id_settled hs]
      exact List.mem_map_of_mem (List.mem_map_of_mem hmem)
    have hp := ((mem_candidates_of_checkPolicy hpolicy).1 hc).1
    obtain ⟨first, rest, m, hcons, hm, _, hd⟩ := settles_of_mem hs hmem
    rw [entriesFor_recommendations hp] at hcons
    exact ⟨first, rest, m, hcons, hm, hd⟩
  · rw [unusedOptional_mem_notes fun _ => settles_of_mem hs, mem_unusedOptional]

/-- A resolution in which a product is declared, one passes as optional, one is ignored and one is
the product itself. -/
theorem resolve_accounts_mixed :
    let asks (name : String) (major : UInt32) (isOptional : Bool) : Dependency :=
      ⟨⟨"com.foo", name⟩, .orderable ⟨⟨major, 0, 0⟩, .release⟩, .major major, none, isOptional⟩
    let r : Resolver := ⟨⟨"com.foo", "app"⟩, .ofList [⟨"com.foo", "old"⟩],
      .ofList [⟨"com.foo", "cache"⟩, ⟨"com.foo", "gone"⟩]⟩
    let declared := [asks "db" 1 true]
    let discovered := [asks "old" 3 false, asks "cache" 2 false, asks "app" 4 false,
      asks "db" 1 false]
    ∃ res, r.resolve declared discovered = .ok res ∧ r.Accounts declared discovered res ∧
      res.dependencies.toList.map Dependency.id = [⟨"com.foo", "cache"⟩, ⟨"com.foo", "db"⟩] := by
  intro asks r declared discovered
  have hids : (r.resolve declared discovered).map (·.dependencies.toList.map Dependency.id) =
      .ok [⟨"com.foo", "cache"⟩, ⟨"com.foo", "db"⟩] := by decide +kernel
  cases h : r.resolve declared discovered with
  | error e =>
      rw [h] at hids
      cases hids
  | ok res =>
      rw [h] at hids
      exact ⟨res, rfl, resolve_accounts h, Except.ok.inj hids⟩

end ProductLock.Resolver
