import ProductLock.Proofs.CatalogMembership
import ProductLock.Proofs.MergeChoice
import ProductLock.Proofs.Outcomes
import ProductLock.Resolution

/-!
# The steps of a resolution

A resolution checks the policy, settles one candidate after another and then looks for what is left
over. Each step gets a lemma that says when it succeeds and what it gives, and
`resolve_eq_ok_iff` puts them together: a resolution succeeds exactly when all of its steps do.

A candidate always has entries, so settling it gives a dependency and never nothing. The settled
dependencies therefore have the candidates as their ids, one each and in the same order, which is
what carries every statement about ids over to the set that the resolution files them in.
-/

namespace ProductLock

theorem exists_eq_map_some {α : Type} {l : List (Option α)} (h : none ∉ l) :
    ∃ m : List α, l = m.map some := by
  induction l with
  | nil => exact ⟨[], rfl⟩
  | cons x l ih =>
      obtain ⟨m, rfl⟩ := ih fun hl => h (.tail x hl)
      cases x with
      | none => exact absurd (.head _) h
      | some a => exact ⟨a :: m, rfl⟩

namespace Resolver

variable {r : Resolver} {declared discovered : List Dependency}

section Products

variable {id : ProductId} {ds : List Dependency}

theorem mem_ids : id ∈ (ids ds).toList ↔ ∃ d ∈ ds, d.id = id := by
  rw [ids, Catalog.mem_toList_ofList, List.mem_map]

theorem mem_recommendations {d : Dependency} :
    d ∈ r.recommendations discovered ↔ d ∈ discovered ∧ d.id ≠ r.product := by
  rw [recommendations, List.mem_filter, decide_eq_true_iff]

theorem exists_recommended_iff : (∃ d ∈ r.recommendations discovered, d.id = id) ↔
    (∃ d ∈ discovered, d.id = id) ∧ id ≠ r.product := by
  simp only [mem_recommendations]
  refine ⟨fun h => ?_, fun h => ?_⟩
  · obtain ⟨d, ⟨hd, hne⟩, rfl⟩ := h
    exact ⟨⟨d, hd, rfl⟩, hne⟩
  · obtain ⟨⟨d, hd, rfl⟩, hne⟩ := h
    exact ⟨d, ⟨hd, hne⟩, rfl⟩

theorem mem_entriesFor {d : Dependency} : d ∈ entriesFor id ds ↔ d ∈ ds ∧ d.id = id := by
  rw [entriesFor, List.mem_filter, decide_eq_true_iff]

theorem entriesFor_append {es : List Dependency} :
    entriesFor id (ds ++ es) = entriesFor id ds ++ entriesFor id es := List.filter_append _ _

theorem exists_id_iff : (∃ d ∈ ds, d.id = id) ↔ entriesFor id ds ≠ [] := by
  refine ⟨fun h => ?_, fun h => ?_⟩
  · obtain ⟨d, hd⟩ := h
    exact List.ne_nil_of_mem (mem_entriesFor.2 hd)
  · obtain ⟨d, hd⟩ := List.exists_mem_of_ne_nil _ h
    exact ⟨d, mem_entriesFor.1 hd⟩

theorem entriesFor_recommendations (h : id ≠ r.product) :
    entriesFor id (r.recommendations discovered) = entriesFor id discovered := by
  rw [entriesFor, recommendations, List.filter_filter, entriesFor]
  refine List.filter_congr fun d _ => ?_
  by_cases hd : d.id = id
  · simp [hd, h]
  · simp [hd]

theorem mem_candidates :
    id ∈ r.candidates declared discovered ↔ (∃ d ∈ declared, d.id = id) ∨
      (∃ d ∈ discovered, d.id = id) ∧ id ≠ r.product ∧ r.optional.contains id = true ∧
        r.ignored.contains id = false := by
  unfold candidates
  simp only [mem_ids, List.mem_append, List.mem_filter, mem_recommendations, Bool.and_eq_true,
    Bool.not_eq_true', or_and_right, exists_or]
  refine or_congr Iff.rfl ⟨fun h => ?_, fun h => ?_⟩
  · obtain ⟨d, ⟨⟨hd, hp⟩, ho, hi⟩, rfl⟩ := h
    exact ⟨⟨d, hd, rfl⟩, hp, ho, hi⟩
  · obtain ⟨⟨d, hd, rfl⟩, hp, ho, hi⟩ := h
    exact ⟨d, ⟨⟨hd, hp⟩, ho, hi⟩, rfl⟩

theorem policyConflict?_eq_none_iff :
    r.policyConflict? declared = none ↔
      (∀ id, r.ignored.contains id = true → r.optional.contains id = false) ∧
      ∀ d ∈ declared, r.ignored.contains d.id = false ∧ r.optional.contains d.id = false := by
  have hboth : (r.ignored.filter r.optional.contains).toList = [] ↔
      ∀ id, r.ignored.contains id = true → r.optional.contains id = false := by
    rw [Catalog.filter, List.filter_eq_nil_iff]
    simp only [Catalog.mem_toList_iff_contains, Bool.not_eq_true]
  unfold policyConflict?
  rw [Option.or_eq_none_iff, Option.map_eq_none_iff, List.head?_eq_none_iff, hboth,
    List.findSome?_eq_none_iff]
  refine and_congr Iff.rfl ⟨fun h d hd => ?_, fun h id hid => ?_⟩
  · have h := h d.id (mem_ids.2 ⟨d, hd, rfl⟩)
    by_cases hi : r.ignored.contains d.id = true
    · rw [if_pos hi] at h
      cases h
    · by_cases ho : r.optional.contains d.id = true
      · rw [if_neg hi, if_pos ho] at h
        cases h
      · exact ⟨Bool.eq_false_iff.2 hi, Bool.eq_false_iff.2 ho⟩
  · obtain ⟨d, hd, rfl⟩ := mem_ids.1 hid
    obtain ⟨hi, ho⟩ := h d hd
    rw [hi, ho]
    rfl

theorem checkPolicy_eq_ok_iff :
    r.checkPolicy declared = .ok () ↔
      (∀ d ∈ declared, d.id ≠ r.product) ∧ r.policyConflict? declared = none := by
  unfold checkPolicy
  by_cases h : (declared.any (·.id = r.product)) = true
  · rw [if_pos h]
    refine ⟨nofun, fun hd => ?_⟩
    obtain ⟨d, hmem, he⟩ := List.any_eq_true.1 h
    exact absurd (of_decide_eq_true he) (hd.1 d hmem)
  · rw [if_neg h]
    have hself : ∀ d ∈ declared, d.id ≠ r.product := by simpa using h
    cases r.policyConflict? declared with
    | none => exact ⟨fun _ => ⟨hself, rfl⟩, fun _ => rfl⟩
    | some _ => exact ⟨nofun, fun he => nomatch he.2⟩

/-- The note that a declaration is redundant, when all of its product merges into `merged`. -/
def redundancy (own others : List Dependency) (merged : Dependency) :
    Except ConstraintError (Option Note) :=
  match own, others with
  | declaration :: _, recommended :: more => do
      let alone ← Dependency.mergeAll recommended more
      pure (if merged = alone then some (.redundant declaration alone) else none)
  | _, _ => pure none

theorem redundancy_eq_ok_some_iff {own others : List Dependency} {m : Dependency} {note : Note} :
    redundancy own others m = .ok (some note) ↔ ∃ declaration own' recommended more,
      own = declaration :: own' ∧ others = recommended :: more ∧
      Dependency.mergeAll recommended more = .ok m ∧ note = .redundant declaration m := by
  unfold redundancy
  split
  next declaration own' recommended more =>
    simp only [bind_eq_ok_iff, pure_eq_ok_iff]
    refine ⟨fun h => ?_, fun h => ?_⟩
    · obtain ⟨alone, ha, h⟩ := h
      obtain ⟨rfl, h⟩ := Option.ite_none_right_eq_some.1 h
      exact ⟨declaration, own', recommended, more, rfl, rfl, ha, (Option.some.inj h).symm⟩
    · obtain ⟨_, _, _, _, hown, hothers, ha, rfl⟩ := h
      cases hown
      cases hothers
      exact ⟨m, ha, if_pos rfl⟩
  next hne =>
    refine ⟨nofun, fun h => ?_⟩
    obtain ⟨_, _, _, _, hown, hothers, _⟩ := h
    exact absurd hothers (hne _ _ _ _ hown)

theorem settle_of_cons {first : Dependency} {rest : List Dependency}
    (h : entriesFor id declared ++ entriesFor id (r.recommendations discovered) = first :: rest) :
    r.settle declared discovered id = do
      let merged ← Dependency.mergeAll first rest
      let note ← redundancy (entriesFor id declared) (entriesFor id (r.recommendations discovered))
        merged
      return some (merged.withOptional (r.optional.contains id ||
        (entriesFor id declared).any (·.isOptional)), note) := by
  unfold settle redundancy
  simp only [h]
  generalize entriesFor id declared = own
  generalize entriesFor id (r.recommendations discovered) = others
  cases own with
  | nil => rfl
  | cons declaration own =>
      cases others with
      | nil => rfl
      | cons recommended more => simp only [bind_assoc]

theorem settle_of_nil
    (h : entriesFor id declared ++ entriesFor id (r.recommendations discovered) = []) :
    r.settle declared discovered id = .ok none := by
  unfold settle
  simp only [h]
  rfl

/-- Settling a product files `d` and leaves the note. -/
def Settles (r : Resolver) (declared discovered : List Dependency) (id : ProductId)
    (d : Dependency) (note : Option Note) : Prop :=
  let own := entriesFor id declared
  let others := entriesFor id (r.recommendations discovered)
  ∃ first rest m, own ++ others = first :: rest ∧ Dependency.mergeAll first rest = .ok m ∧
    redundancy own others m = .ok note ∧
    d = m.withOptional (r.optional.contains id || own.any (·.isOptional))

theorem settle_eq_ok_some_iff {d : Dependency} {note : Option Note} :
    r.settle declared discovered id = .ok (some (d, note)) ↔
      r.Settles declared discovered id d note := by
  unfold Settles
  cases h : entriesFor id declared ++ entriesFor id (r.recommendations discovered) with
  | nil =>
      rw [settle_of_nil h]
      refine ⟨nofun, fun hs => ?_⟩
      obtain ⟨_, _, _, hcons, _⟩ := hs
      rw [h] at hcons
      cases hcons
  | cons first rest =>
      rw [settle_of_cons h]
      simp only [bind_eq_ok_iff, pure_eq_ok_iff, Option.some.injEq, Prod.mk.injEq]
      refine ⟨fun hs => ?_, fun hs => ?_⟩
      · obtain ⟨m, hm, _, hnote, rfl, rfl⟩ := hs
        exact ⟨first, rest, m, h, hm, hnote, rfl⟩
      · obtain ⟨_, _, m, hcons, hm, hnote, rfl⟩ := hs
        rw [h] at hcons
        obtain ⟨rfl, rfl⟩ := List.cons.inj hcons
        exact ⟨m, hm, note, hnote, rfl, rfl⟩

theorem Settles.id_eq {d : Dependency} {note : Option Note}
    (h : r.Settles declared discovered id d note) : d.id = id := by
  obtain ⟨first, rest, m, hcons, hm, _, rfl⟩ := h
  have hfirst : first.id = id := by
    have hmem : first ∈ first :: rest := .head rest
    rw [← hcons, List.mem_append, mem_entriesFor, mem_entriesFor] at hmem
    exact hmem.elim And.right And.right
  exact (Dependency.mergeAll_id hm).trans hfirst

/-- The note that settling leaves is about a declaration of the product. -/
theorem Settles.redundant {d : Dependency} {n : Note}
    (h : r.Settles declared discovered id d (some n)) :
    ∃ declaration alone, n = .redundant declaration alone ∧ declaration.id = id := by
  obtain ⟨_, _, m, _, _, hnote, _⟩ := h
  obtain ⟨declaration, own, _, _, hown, _, _, rfl⟩ := redundancy_eq_ok_some_iff.1 hnote
  have hmem : declaration ∈ entriesFor id declared := by
    rw [hown]
    exact .head own
  exact ⟨declaration, m, rfl, (mem_entriesFor.1 hmem).2⟩

theorem exists_entries (hid : id ∈ r.candidates declared discovered) :
    ∃ first rest,
      entriesFor id declared ++ entriesFor id (r.recommendations discovered) = first :: rest := by
  refine List.exists_cons_of_ne_nil ?_
  rcases mem_candidates.1 hid with h | ⟨h, hp, _⟩
  · exact List.append_ne_nil_of_left_ne_nil (exists_id_iff.1 h) _
  · rw [entriesFor_recommendations hp]
    exact List.append_ne_nil_of_right_ne_nil _ (exists_id_iff.1 h)

/-- A candidate has entries, so it is never passed over. -/
theorem settle_candidate_ne_none (hid : id ∈ r.candidates declared discovered) :
    r.settle declared discovered id ≠ .ok none := by
  obtain ⟨first, rest, h⟩ := exists_entries hid
  rw [settle_of_cons h]
  simp only [ne_eq, bind_eq_ok_iff, pure_eq_ok_iff, reduceCtorEq, and_false, exists_false,
    not_false_eq_true]

end Products

/-- What a resolution gives once its candidates are settled. -/
def outcome (r : Resolver) (discovered : List Dependency)
    (settled : List (Dependency × Option Note)) : Resolution :=
  ⟨(DependencySet.ofList (settled.map Prod.fst)).withPolicy r.optional r.ignored,
    ⟨settled.filterMap Prod.snd ++ (r.unusedOptional discovered).map .unusedOptional⟩⟩

/-- The end of a resolution: nothing that is recommended may be left over. -/
def conclude (r : Resolver) (discovered : List Dependency)
    (settled : List (Dependency × Option Note)) : Except ConstraintError Resolution :=
  match r.unaccounted? discovered (.ofList (settled.map Prod.fst)) with
  | some id => .error (.unaccountedRecommendation id)
  | none => .ok (r.outcome discovered settled)

theorem resolve_eq : r.resolve declared discovered = (do
    r.checkPolicy declared
    let settled ← (r.candidates declared discovered).mapM (r.settle declared discovered)
    r.conclude discovered (settled.filterMap id)) := by
  unfold resolve conclude
  congr
  funext _
  congr
  funext settled
  dsimp only
  cases r.unaccounted? discovered (.ofList ((settled.filterMap id).map Prod.fst)) <;> rfl

theorem conclude_eq_ok_iff {settled : List (Dependency × Option Note)} {res : Resolution} :
    r.conclude discovered settled = .ok res ↔
      r.unaccounted? discovered (.ofList (settled.map Prod.fst)) = none ∧
        res = r.outcome discovered settled := by
  unfold conclude
  cases r.unaccounted? discovered (.ofList (settled.map Prod.fst)) with
  | none => simp [eq_comm]
  | some id => simp

/-- When all candidates settle, all that is left to do is to conclude. -/
theorem resolve_eq_conclude {settled : List (Dependency × Option Note)}
    (hp : r.checkPolicy declared = .ok ())
    (hs : (r.candidates declared discovered).map (r.settle declared discovered) =
      settled.map fun x => .ok (some x)) :
    r.resolve declared discovered = r.conclude discovered settled := by
  have hm : (r.candidates declared discovered).mapM (r.settle declared discovered) =
      .ok (settled.map some) := by
    rw [mapM_eq_ok_iff, hs, List.map_map]
    rfl
  rw [resolve_eq, hp, hm]
  show r.conclude discovered ((settled.map some).filterMap fun x => x) = _
  rw [List.filterMap_map]
  exact congrArg _ List.filterMap_some

theorem resolve_eq_ok_iff {res : Resolution} : r.resolve declared discovered = .ok res ↔
    r.checkPolicy declared = .ok () ∧ ∃ settled : List (Dependency × Option Note),
      (r.candidates declared discovered).map (r.settle declared discovered) =
        settled.map (fun x => .ok (some x)) ∧
      r.unaccounted? discovered (.ofList (settled.map Prod.fst)) = none ∧
      res = r.outcome discovered settled := by
  refine ⟨fun h => ?_, fun h => ?_⟩
  · have hsteps := h
    rw [resolve_eq] at hsteps
    simp only [bind_eq_ok_iff, mapM_eq_ok_iff] at hsteps
    obtain ⟨_, hp, settled, hs, _⟩ := hsteps
    have hnone : none ∉ settled := by
      intro hmem
      have hok : (.ok none : Except ConstraintError _) ∈ settled.map .ok := List.mem_map_of_mem hmem
      rw [← hs] at hok
      obtain ⟨id, hid, hn⟩ := List.mem_map.1 hok
      exact settle_candidate_ne_none hid hn
    obtain ⟨settled, rfl⟩ := exists_eq_map_some hnone
    rw [List.map_map] at hs
    rw [resolve_eq_conclude hp hs, conclude_eq_ok_iff] at h
    exact ⟨hp, settled, hs, h⟩
  · obtain ⟨hp, settled, hs, h⟩ := h
    rwa [resolve_eq_conclude hp hs, conclude_eq_ok_iff]

/-! ## The settled candidates -/

section Settled

variable {settled : List (Dependency × Option Note)}
  (h : (r.candidates declared discovered).map (r.settle declared discovered) =
    settled.map fun x => .ok (some x))

include h

theorem settles_of_mem {x : Dependency × Option Note} (hx : x ∈ settled) :
    r.Settles declared discovered x.1.id x.1 x.2 := by
  have hok : (.ok (some x) : Except ConstraintError _) ∈ settled.map fun x => .ok (some x) :=
    List.mem_map_of_mem hx
  rw [← h] at hok
  obtain ⟨id, _, hid⟩ := List.mem_map.1 hok
  have hs := settle_eq_ok_some_iff.1 hid
  rwa [← hs.id_eq] at hs

theorem mem_settled {id : ProductId} {d : Dependency} {note : Option Note}
    (hc : id ∈ r.candidates declared discovered) (hd : r.Settles declared discovered id d note) :
    (d, note) ∈ settled := by
  have hmem : r.settle declared discovered id ∈ settled.map fun x => .ok (some x) := by
    rw [← h]
    exact List.mem_map_of_mem hc
  rw [settle_eq_ok_some_iff.2 hd] at hmem
  obtain ⟨x, hx, he⟩ := List.mem_map.1 hmem
  obtain rfl := Option.some.inj (Except.ok.inj he)
  exact hx

/-- One candidate after another is settled, each under its own id. -/
theorem map_id_settled :
    (settled.map Prod.fst).map Dependency.id = r.candidates declared discovered := by
  rw [List.map_map]
  generalize r.candidates declared discovered = ids at h
  induction ids generalizing settled with
  | nil => rw [List.map_eq_nil_iff.1 h.symm, List.map_nil]
  | cons id ids ih =>
      cases settled with
      | nil => cases h
      | cons x settled =>
          obtain ⟨hx, h⟩ := List.cons.inj h
          rw [List.map_cons, ih h]
          exact congrArg (· :: ids) (settle_eq_ok_some_iff.1 hx).id_eq

theorem nodup_id_settled : ((settled.map Prod.fst).map Dependency.id).Nodup := by
  rw [map_id_settled h]
  exact (ids _).nodup

theorem contains_settled {id : ProductId} :
    (DependencySet.ofList (settled.map Prod.fst)).contains id = true ↔
      id ∈ r.candidates declared discovered := by
  rw [← map_id_settled h, List.mem_map]
  exact Catalog.contains_ofList

theorem find?_settled {id : ProductId} {d : Dependency} :
    (DependencySet.ofList (settled.map Prod.fst)).find? id = some d ↔
      (∃ note, (d, note) ∈ settled) ∧ d.id = id := by
  have hmem : (∃ note, (d, note) ∈ settled) ↔ d ∈ settled.map Prod.fst := by
    simp
  rw [hmem, ← Catalog.mem_ofList_of_nodup (nodup_id_settled h)]
  exact Catalog.find?_eq_some_iff

end Settled

/-! ## What is left over -/

theorem unaccounted?_eq_none_iff {s : DependencySet} :
    r.unaccounted? discovered s = none ↔ ∀ d ∈ discovered, d.id ≠ r.product →
      s.contains d.id = true ∨ r.ignored.contains d.id = true := by
  have hid (id : ProductId) : ¬ (!r.ignored.contains id && !s.contains id) = true ↔
      s.contains id = true ∨ r.ignored.contains id = true := by
    cases s.contains id <;> cases r.ignored.contains id <;> decide
  unfold unaccounted?
  simp only [List.find?_eq_none, mem_ids, mem_recommendations, hid]
  refine ⟨fun h d hd hp => h d.id ⟨d, ⟨hd, hp⟩, rfl⟩, fun h id hmem => ?_⟩
  obtain ⟨d, ⟨hd, hp⟩, rfl⟩ := hmem
  exact h d hd hp

theorem mem_unusedOptional {id : ProductId} :
    id ∈ r.unusedOptional discovered ↔ r.optional.contains id = true ∧
      (id = r.product ∨ ∀ d ∈ discovered, d.id ≠ id) := by
  unfold unusedOptional
  rw [List.mem_filter, Catalog.mem_toList_iff_contains, Bool.not_eq_true', List.any_eq_false]
  simp only [mem_recommendations, decide_eq_true_iff]
  refine and_congr Iff.rfl ⟨fun h => ?_, fun h d hd he => ?_⟩
  · by_cases hp : id = r.product
    · exact .inl hp
    · exact .inr fun d hd he => h d ⟨hd, he ▸ hp⟩ he
  · rcases h with rfl | h
    · exact hd.2 he
    · exact h d hd.1 he

/-- The notes of the candidates are all about declarations. -/
theorem unusedOptional_mem_notes {settled : List (Dependency × Option Note)} {id : ProductId}
    (h : ∀ x ∈ settled, r.Settles declared discovered x.1.id x.1 x.2) :
    Note.unusedOptional id ∈ (r.outcome discovered settled).report.notes ↔
      id ∈ r.unusedOptional discovered := by
  have hleft : Note.unusedOptional id ∉ settled.filterMap Prod.snd := by
    intro hmem
    obtain ⟨x, hx, hnote⟩ := List.mem_filterMap.1 hmem
    have hsettles := h x hx
    rw [hnote] at hsettles
    obtain ⟨_, _, hnote, _⟩ := hsettles.redundant
    cases hnote
  show _ ∈ settled.filterMap Prod.snd ++ (r.unusedOptional discovered).map .unusedOptional ↔ _
  rw [List.mem_append, or_iff_right hleft]
  simp

end Resolver

end ProductLock
