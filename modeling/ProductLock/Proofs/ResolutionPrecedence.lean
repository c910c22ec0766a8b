import ProductLock.Proofs.AscendingSearch
import ProductLock.Proofs.ResolutionEntries
import ProductLock.Proofs.ResolutionFailure

/-!
# Which error comes first

The same input can give a resolution several reasons to fail, and the user is told one of them. The
reasons come in four kinds: the product is declared to depend on itself, the policy contradicts
itself or a declaration, a product that needs a dependency cannot get one, and a recommendation is
left over. A reason of one kind counts only where there is none of the kinds before it, and of
several reasons of one kind the one with the smallest product id counts (`FailsWith`). That it is
always the smallest has one cause: every search of a resolution goes through products in ascending
order.

What is discovered for the product itself or for an ignored product gives no reason of any kind, and
makes no difference to a result either (`resolve_relevant`).
-/

namespace ProductLock

instance : LE ProductId := leOfOrd

/-- A merge can end with the error. -/
def ConstraintError.isOfMerge : ConstraintError → Bool
  | .invalid _ | .mismatchedProduct .. | .disjointRanges .. | .ambiguousMinimum .. => true
  | .selfDependency _ | .conflictingPolicy .. | .unaccountedRecommendation _
  | .malformedLine .. => false

theorem Dependency.mergeAll_isOfMerge {d : Dependency} {ds : List Dependency} {e : ConstraintError}
    (h : mergeAll d ds = .error e) : e.isOfMerge = true := by
  by_cases hid : ∀ x ∈ ds, x.id = d.id
  · rcases (mergeAll_eq_error_iff hid).1 h with hl | ⟨_, _, ⟨_, rfl⟩ | ⟨_, _, _, rfl⟩⟩
    · rw [lower_eq_error hl]
      rfl
    · rfl
    · rfl
  · obtain ⟨other, ho⟩ := mergeAll_of_other hid
    rw [ho] at h
    cases h
    rfl

namespace Resolver

open Dependency

variable {r : Resolver} {declared discovered : List Dependency} {id : ProductId}
  {e : ConstraintError}

/-! ## Reasons to fail -/

/-- The products that are both ignored and optional. -/
def contradictory (r : Resolver) : Set ProductId :=
  {id | r.ignored.contains id = true ∧ r.optional.contains id = true}

/-- The declared products that are ignored or optional as well. -/
def contested (r : Resolver) (declared : List Dependency) : Set ProductId :=
  {id | (∃ d ∈ declared, d.id = id) ∧
    (r.ignored.contains id = true ∨ r.optional.contains id = true)}

/-- The policy is in conflict over a product: with itself, or else with a declaration. -/
inductive Conflicts (r : Resolver) (declared : List Dependency) :
    ProductId → PolicyConflict → Prop
  | ignoredAndOptional {id : ProductId} (least : IsLeast r.contradictory id) :
      Conflicts r declared id .ignoredAndOptional
  | declaredAndIgnored {id : ProductId} (none : r.contradictory = ∅)
      (least : IsLeast (r.contested declared) id) (ignored : r.ignored.contains id = true) :
      Conflicts r declared id .declaredAndIgnored
  | declaredAndOptional {id : ProductId} (none : r.contradictory = ∅)
      (least : IsLeast (r.contested declared) id) (optional : r.optional.contains id = true) :
      Conflicts r declared id .declaredAndOptional

/-- The product does not depend on itself, and the policy contradicts neither itself nor a
declaration. -/
structure PolicyHolds (r : Resolver) (declared : List Dependency) : Prop where
  notSelf : ∀ d ∈ declared, d.id ≠ r.product
  contradictory_eq : r.contradictory = ∅
  contested_eq : r.contested declared = ∅

/-- How settling a product fails: all of its entries do not merge or, where they do and the product
is declared, the discovered ones do not merge by themselves. -/
inductive FailsAs (declared discovered : List Dependency) (id : ProductId)
    (e : ConstraintError) : Prop
  | all (h : FailsToMerge (entriesFor id declared ++ entriesFor id discovered) e)
  | discovered (all : Mergeable (entriesFor id declared ++ entriesFor id discovered))
      (declares : ∃ d ∈ declared, d.id = id) (h : FailsToMerge (entriesFor id discovered) e)

/-- The products that need a dependency and cannot get one. -/
def failing (r : Resolver) (declared discovered : List Dependency) : Set ProductId :=
  {id | id ≠ r.product ∧ ((∃ d ∈ declared, d.id = id) ∨
    (∃ d ∈ discovered, d.id = id) ∧ r.optional.contains id = true) ∧
    ∃ e, FailsAs declared discovered id e}

/-- The products that are recommended without a decision. -/
def leftOver (r : Resolver) (declared discovered : List Dependency) : Set ProductId :=
  {id | (∃ d ∈ discovered, d.id = id) ∧ id ≠ r.product ∧ (¬ ∃ d ∈ declared, d.id = id) ∧
    r.ignored.contains id = false ∧ r.optional.contains id = false}

/-- The error with which a resolution fails. -/
inductive FailsWith (r : Resolver) (declared discovered : List Dependency) :
    ConstraintError → Prop
  | selfDependency (self : ∃ d ∈ declared, d.id = r.product) :
      FailsWith r declared discovered (.selfDependency r.product)
  | conflictingPolicy {id : ProductId} {conflict : PolicyConflict}
      (notSelf : ∀ d ∈ declared, d.id ≠ r.product) (h : r.Conflicts declared id conflict) :
      FailsWith r declared discovered (.conflictingPolicy id conflict)
  | settling {id : ProductId} {e : ConstraintError} (policy : r.PolicyHolds declared)
      (least : IsLeast (r.failing declared discovered) id)
      (h : FailsAs declared discovered id e) : FailsWith r declared discovered e
  | unaccounted {id : ProductId} (policy : r.PolicyHolds declared)
      (none : r.failing declared discovered = ∅)
      (least : IsLeast (r.leftOver declared discovered) id) :
      FailsWith r declared discovered (.unaccountedRecommendation id)

/-! ## The policy -/

theorem policyConflict?_eq_some_iff {conflict : PolicyConflict} :
    r.policyConflict? declared = some (id, conflict) ↔ r.Conflicts declared id conflict := by
  have hboth (k : ProductId) : (r.ignored.filter r.optional.contains).toList.head? = some k ↔
      IsLeast r.contradictory k := by
    rw [Catalog.filter, List.head?_filter, find?_eq_some_iff_isLeast r.ignored.ascending]
    simp only [Catalog.mem_toList_iff_contains, contradictory]
  have hnone : (r.ignored.filter r.optional.contains).toList.head? = none ↔
      r.contradictory = ∅ := by
    rw [Catalog.filter, List.head?_eq_none_iff, List.filter_eq_nil_iff,
      Set.eq_empty_iff_forall_notMem]
    simp only [Catalog.mem_toList_iff_contains]
    exact forall_congr' fun k => not_and.symm
  have hcontested : {k | k ∈ (ids declared).toList ∧ ∃ b, (if r.ignored.contains k then
      some (k, PolicyConflict.declaredAndIgnored) else if r.optional.contains k then
      some (k, .declaredAndOptional) else none) = some b} = r.contested declared := by
    ext k
    refine and_congr mem_ids ?_
    cases r.ignored.contains k <;> cases r.optional.contains k <;> simp
  unfold policyConflict?
  rw [Option.or_eq_some_iff, Option.map_eq_none_iff, Option.map_eq_some_iff, hnone,
    findSome?_eq_some_iff_isLeast (Catalog.ascending _), hcontested]
  refine ⟨fun h => ?_, fun h => ?_⟩
  · rcases h with ⟨k, hk, heq⟩ | ⟨hn, k, hk, heq⟩
    · cases heq
      exact .ignoredAndOptional ((hboth _).1 hk)
    · by_cases hi : r.ignored.contains k = true
      · rw [if_pos hi] at heq
        cases heq
        exact .declaredAndIgnored hn hk hi
      · rw [if_neg hi] at heq
        obtain ⟨ho, heq⟩ := Option.ite_none_right_eq_some.1 heq
        cases heq
        exact .declaredAndOptional hn hk ho
  · cases h with
    | ignoredAndOptional hk => exact .inl ⟨id, (hboth id).2 hk, rfl⟩
    | declaredAndIgnored hn hk hi => exact .inr ⟨hn, id, hk, if_pos hi⟩
    | declaredAndOptional hn hk ho =>
        have hi : ¬ r.ignored.contains id = true := fun hi =>
          Set.eq_empty_iff_forall_notMem.1 hn id ⟨hi, ho⟩
        exact .inr ⟨hn, id, hk, by rw [if_neg hi, if_pos ho]⟩

theorem Conflicts.nonempty {conflict : PolicyConflict} (h : r.Conflicts declared id conflict) :
    r.contradictory.Nonempty ∨ (r.contested declared).Nonempty := by
  cases h with
  | ignoredAndOptional least => exact .inl ⟨id, least.1⟩
  | declaredAndIgnored _ least _ => exact .inr ⟨id, least.1⟩
  | declaredAndOptional _ least _ => exact .inr ⟨id, least.1⟩

/-- A policy that does not hold is in conflict over some product. -/
theorem exists_conflicts
    (h : r.contradictory.Nonempty ∨ (r.contested declared).Nonempty) :
    ∃ id conflict, r.Conflicts declared id conflict := by
  by_cases hne : r.contradictory.Nonempty
  · obtain ⟨id, hid⟩ := exists_isLeast r.ignored.ascending hne fun id hid =>
      Catalog.mem_toList_iff_contains.2 hid.1
    exact ⟨id, _, .ignoredAndOptional hid⟩
  · have hnone := Set.not_nonempty_iff_eq_empty.1 hne
    obtain ⟨id, hid⟩ := exists_isLeast (ids declared).ascending (h.resolve_left hne)
      fun id hid => mem_ids.2 hid.1
    rcases hid.1.2 with hi | ho
    · exact ⟨id, _, .declaredAndIgnored hnone hid hi⟩
    · exact ⟨id, _, .declaredAndOptional hnone hid ho⟩

theorem checkPolicy_eq_ok_iff_holds : r.checkPolicy declared = .ok () ↔ r.PolicyHolds declared := by
  have hconflict : r.policyConflict? declared = none ↔
      ¬ (r.contradictory.Nonempty ∨ (r.contested declared).Nonempty) := by
    refine ⟨fun h hne => ?_, fun h => ?_⟩
    · obtain ⟨id, conflict, hc⟩ := exists_conflicts hne
      rw [policyConflict?_eq_some_iff.2 hc] at h
      cases h
    · cases hp : r.policyConflict? declared with
      | none => rfl
      | some x => exact absurd (policyConflict?_eq_some_iff.1 hp).nonempty h
  rw [checkPolicy_eq_ok_iff, hconflict, not_or, Set.not_nonempty_iff_eq_empty,
    Set.not_nonempty_iff_eq_empty]
  exact ⟨fun h => ⟨h.1, h.2.1, h.2.2⟩, fun h => ⟨h.notSelf, h.contradictory_eq, h.contested_eq⟩⟩

/-! ## The candidates -/

theorem settle_eq_error_iff_failsAs (hne : id ≠ r.product) :
    r.settle declared discovered id = .error e ↔ FailsAs declared discovered id e := by
  rw [settle_eq_error_iff_fails hne, ← exists_id_iff]
  refine ⟨fun h => ?_, fun h => ?_⟩
  · rcases h with h | ⟨hall, hd, h⟩
    · exact .all h
    · exact .discovered hall hd h
  · cases h with
    | all h => exact .inl h
    | discovered hall hd h => exact .inr ⟨hall, hd, h⟩

section Policy

variable (hp : r.PolicyHolds declared)

include hp

theorem mem_failing_iff : id ∈ r.failing declared discovered ↔
    id ∈ r.candidates declared discovered ∧ ∃ e, r.settle declared discovered id = .error e := by
  rw [mem_candidates_of_checkPolicy (checkPolicy_eq_ok_iff_holds.2 hp), and_assoc]
  refine and_congr_right fun hne => and_congr_right fun _ => exists_congr fun e => ?_
  exact (settle_eq_error_iff_failsAs hne).symm

theorem exists_isLeast_failing (h : (r.failing declared discovered).Nonempty) :
    ∃ id, IsLeast (r.failing declared discovered) id :=
  exists_isLeast (ids _).ascending h fun _ hk => ((mem_failing_iff hp).1 hk).1

theorem mapM_settle_eq_error (hid : IsLeast (r.failing declared discovered) id)
    (he : FailsAs declared discovered id e) :
    (r.candidates declared discovered).mapM (r.settle declared discovered) = .error e := by
  have hfailing : {k | k ∈ r.candidates declared discovered ∧
      ∃ e, r.settle declared discovered k = .error e} = r.failing declared discovered :=
    Set.ext fun _ => (mem_failing_iff hp).symm
  have hascending : (r.candidates declared discovered).Pairwise fun a b => compare a b = .lt :=
    Catalog.ascending _
  refine (mapM_eq_error_iff_isLeast hascending).2 ⟨id, ?_, ?_⟩
  · rw [hfailing]
    exact hid
  · exact (settle_eq_error_iff_failsAs hid.1.1).2 he

theorem settles_of_failing_eq_empty (hnone : r.failing declared discovered = ∅)
    (hc : id ∈ r.candidates declared discovered) :
    ∃ d note, r.Settles declared discovered id d note := by
  cases h : r.settle declared discovered id with
  | error e =>
      exact absurd ((mem_failing_iff hp).2 ⟨hc, e, h⟩) (Set.eq_empty_iff_forall_notMem.1 hnone id)
  | ok x =>
      cases x with
      | none => exact absurd h (settle_candidate_ne_none hc)
      | some x => exact ⟨x.1, x.2, settle_eq_ok_some_iff.1 h⟩

theorem mem_leftOver_iff : id ∈ r.leftOver declared discovered ↔
    (∃ d ∈ r.recommendations discovered, d.id = id) ∧ r.ignored.contains id = false ∧
      id ∉ r.candidates declared discovered := by
  rw [exists_recommended_iff, mem_candidates_of_checkPolicy (checkPolicy_eq_ok_iff_holds.2 hp)]
  show _ ∧ _ ∧ _ ∧ _ ∧ r.optional.contains id = false ↔ _
  rw [← Bool.not_eq_true (r.optional.contains id)]
  refine ⟨fun h => ?_, fun h => ?_⟩
  · obtain ⟨hd, hne, hdeclared, hi, ho⟩ := h
    exact ⟨⟨hd, hne⟩, hi, fun hc => hc.2.elim hdeclared fun hopt => ho hopt.2⟩
  · obtain ⟨⟨hd, hne⟩, hi, hc⟩ := h
    exact ⟨hd, hne, fun h => hc ⟨hne, .inl h⟩, hi, fun ho => hc ⟨hne, .inr ⟨hd, ho⟩⟩⟩

/-- Once the candidates are settled, only what is left over can be wrong. -/
theorem unaccounted?_iff_isLeast {settled : List (Dependency × Option Note)}
    (hs : (r.candidates declared discovered).map (r.settle declared discovered) =
      settled.map fun x => .ok (some x)) :
    (∀ id, r.unaccounted? discovered (.ofList (settled.map Prod.fst)) = some id ↔
      IsLeast (r.leftOver declared discovered) id) ∧
    (r.unaccounted? discovered (.ofList (settled.map Prod.fst)) = none ↔
      r.leftOver declared discovered = ∅) := by
  have hleft : {k | k ∈ (ids (r.recommendations discovered)).toList ∧
      (!r.ignored.contains k &&
        !(DependencySet.ofList (settled.map Prod.fst)).contains k) = true} =
        r.leftOver declared discovered := by
    ext k
    rw [mem_leftOver_iff hp, ← contains_settled hs, ← mem_ids]
    simp
  unfold unaccounted?
  refine ⟨fun id => ?_, ?_⟩
  · rw [find?_eq_some_iff_isLeast (Catalog.ascending _), hleft]
  · rw [← hleft, Set.eq_empty_iff_forall_notMem, List.find?_eq_none]
    exact forall_congr' fun k => not_and.symm

end Policy

theorem exists_isLeast_leftOver (h : (r.leftOver declared discovered).Nonempty) :
    ∃ id, IsLeast (r.leftOver declared discovered) id :=
  exists_isLeast (ids discovered).ascending h fun _ hk => mem_ids.2 hk.1

/-! ## All kinds together -/

theorem resolve_of_failsWith (h : r.FailsWith declared discovered e) :
    r.resolve declared discovered = .error e := by
  cases h with
  | selfDependency self =>
      exact resolve_eq_error_iff.2 (.inl (checkPolicy_eq_error_iff.2 (.inl ⟨self, rfl⟩)))
  | conflictingPolicy notSelf h =>
      refine resolve_eq_error_iff.2 (.inl (checkPolicy_eq_error_iff.2 (.inr ?_)))
      exact ⟨notSelf, _, _, policyConflict?_eq_some_iff.2 h, rfl⟩
  | settling policy least h =>
      rw [resolve_eq, checkPolicy_eq_ok_iff_holds.2 policy, mapM_settle_eq_error policy least h]
      rfl
  | unaccounted policy none least =>
      obtain ⟨settled, hs⟩ := exists_settled fun _ => settles_of_failing_eq_empty policy none
      rw [resolve_eq_conclude (checkPolicy_eq_ok_iff_holds.2 policy) hs, conclude_eq_error_iff]
      exact ⟨_, ((unaccounted?_iff_isLeast policy hs).1 _).2 least, rfl⟩

theorem exists_failsWith_or (r : Resolver) (declared discovered : List Dependency) :
    (∃ e, r.FailsWith declared discovered e) ∨
    r.PolicyHolds declared ∧ r.failing declared discovered = ∅ ∧
      r.leftOver declared discovered = ∅ := by
  by_cases notSelf : ∀ d ∈ declared, d.id ≠ r.product
  · by_cases hconflict : r.contradictory.Nonempty ∨ (r.contested declared).Nonempty
    · obtain ⟨id, conflict, h⟩ := exists_conflicts hconflict
      exact .inl ⟨_, .conflictingPolicy notSelf h⟩
    · simp only [not_or, Set.not_nonempty_iff_eq_empty] at hconflict
      have hp : r.PolicyHolds declared := ⟨notSelf, hconflict.1, hconflict.2⟩
      by_cases hfailing : (r.failing declared discovered).Nonempty
      · obtain ⟨id, hid⟩ := exists_isLeast_failing hp hfailing
        obtain ⟨e, he⟩ := hid.1.2.2
        exact .inl ⟨e, .settling hp hid he⟩
      · rw [Set.not_nonempty_iff_eq_empty] at hfailing
        by_cases hleft : (r.leftOver declared discovered).Nonempty
        · obtain ⟨id, hid⟩ := exists_isLeast_leftOver hleft
          exact .inl ⟨_, .unaccounted hp hfailing hid⟩
        · exact .inr ⟨hp, hfailing, Set.not_nonempty_iff_eq_empty.1 hleft⟩
  · simp only [not_forall, not_not] at notSelf
    obtain ⟨d, hd, hid⟩ := notSelf
    exact .inl ⟨_, .selfDependency ⟨d, hd, hid⟩⟩

theorem resolve_of_nothing_wrong (hp : r.PolicyHolds declared)
    (hfailing : r.failing declared discovered = ∅) (hleft : r.leftOver declared discovered = ∅) :
    ∃ res, r.resolve declared discovered = .ok res := by
  obtain ⟨settled, hs⟩ := exists_settled fun _ => settles_of_failing_eq_empty hp hfailing
  refine ⟨r.outcome discovered settled, ?_⟩
  rw [resolve_eq_conclude (checkPolicy_eq_ok_iff_holds.2 hp) hs, conclude_eq_ok_iff]
  exact ⟨(unaccounted?_iff_isLeast hp hs).2.2 hleft, rfl⟩

/-- What goes wrong first is the error. -/
theorem resolve_eq_error_iff_failsWith :
    r.resolve declared discovered = .error e ↔ r.FailsWith declared discovered e := by
  refine ⟨fun h => ?_, resolve_of_failsWith⟩
  rcases exists_failsWith_or r declared discovered with ⟨e', he⟩ | ⟨hp, hfailing, hleft⟩
  · rw [resolve_of_failsWith he] at h
    cases h
    exact he
  · obtain ⟨res, hok⟩ := resolve_of_nothing_wrong hp hfailing hleft
    rw [hok] at h
    cases h

/-! ## What is discovered in vain -/

/-- Leaves out what is discovered for the product itself and for ignored products. -/
def relevant (r : Resolver) (discovered : List Dependency) : List Dependency :=
  discovered.filter fun d => d.id ≠ r.product && !r.ignored.contains d.id

theorem entriesFor_relevant (hne : id ≠ r.product) (hi : r.ignored.contains id = false) :
    entriesFor id (r.relevant discovered) = entriesFor id discovered := by
  rw [entriesFor, relevant, List.filter_filter, entriesFor]
  refine List.filter_congr fun d _ => ?_
  by_cases hd : d.id = id
  · simp [hd, hne, hi]
  · simp [hd]

theorem recommendations_relevant : r.recommendations (r.relevant discovered) =
    (r.recommendations discovered).filter fun d => !r.ignored.contains d.id := by
  rw [recommendations, relevant, List.filter_filter, recommendations, List.filter_filter]
  refine List.filter_congr fun d _ => ?_
  by_cases hd : d.id = r.product <;> simp [hd]

theorem recommended_relevant_iff (hi : r.ignored.contains id = false) :
    (∃ d ∈ r.recommendations (r.relevant discovered), d.id = id) ↔
      ∃ d ∈ r.recommendations discovered, d.id = id := by
  rw [recommendations_relevant]
  refine exists_congr fun d => and_congr_left fun hd => ?_
  rw [List.mem_filter, hd, hi]
  exact and_iff_left rfl

theorem candidates_relevant :
    r.candidates declared (r.relevant discovered) = r.candidates declared discovered := by
  unfold candidates
  dsimp only
  rw [recommendations_relevant, List.filter_filter]
  simp only [Bool.and_assoc, Bool.and_self]

theorem unaccounted?_relevant {s : DependencySet} :
    r.unaccounted? (r.relevant discovered) s = r.unaccounted? discovered s := by
  unfold unaccounted?
  refine Option.ext fun id => ?_
  rw [find?_eq_some_iff_isLeast (Catalog.ascending _),
    find?_eq_some_iff_isLeast (Catalog.ascending _)]
  refine iff_of_eq (congrArg (IsLeast · id) (Set.ext fun k => and_congr_left fun hk => ?_))
  rw [Bool.and_eq_true, Bool.not_eq_true'] at hk
  rw [mem_ids, mem_ids, recommended_relevant_iff hk.1]

theorem unusedOptional_relevant (hp : r.PolicyHolds declared) :
    r.unusedOptional (r.relevant discovered) = r.unusedOptional discovered := by
  unfold unusedOptional
  refine List.filter_congr fun id hid => congrArg (!·) (Bool.eq_iff_iff.2 ?_)
  have hi : r.ignored.contains id = false := by
    refine Bool.eq_false_iff.2 fun hi => ?_
    exact Set.eq_empty_iff_forall_notMem.1 hp.contradictory_eq id
      ⟨hi, Catalog.mem_toList_iff_contains.1 hid⟩
  simp only [List.any_eq_true, decide_eq_true_iff]
  exact recommended_relevant_iff hi

/-- What is discovered for the product itself or for ignored products makes no difference. -/
theorem resolve_relevant :
    r.resolve declared (r.relevant discovered) = r.resolve declared discovered := by
  rw [resolve_eq, resolve_eq, candidates_relevant]
  cases hp : r.checkPolicy declared with
  | error e => rfl
  | ok u =>
      have hsettle : ∀ id ∈ r.candidates declared discovered,
          r.settle declared (r.relevant discovered) id = r.settle declared discovered id := by
        intro id hid
        have hne : id ≠ r.product := ((mem_candidates_of_checkPolicy hp).1 hid).1
        refine settle_congr rfl ?_ rfl
        rw [entriesFor_recommendations hne, entriesFor_recommendations hne,
          entriesFor_relevant hne (not_ignored_of_checkPolicy hp hid)]
      rw [mapM_congr hsettle]
      refine bind_congr fun _ => bind_congr fun settled => ?_
      unfold conclude outcome
      rw [unaccounted?_relevant, unusedOptional_relevant (checkPolicy_eq_ok_iff_holds.1 hp)]

/-! ## The errors in their order -/

theorem FailsAs.isOfMerge (h : FailsAs declared discovered id e) : e.isOfMerge = true := by
  cases h with
  | all h =>
      obtain ⟨_, _, _, h⟩ := h
      exact mergeAll_isOfMerge h
  | discovered _ _ h =>
      obtain ⟨_, _, _, h⟩ := h
      exact mergeAll_isOfMerge h

/-- Each error of a resolution is given exactly where there is a reason for it and none for those
before it, and the product that it is about is the smallest for which there is such a reason. -/
structure ErrorsInOrder (r : Resolver) (declared discovered : List Dependency) : Prop where
  selfDependency_iff : ∀ id, r.resolve declared discovered = .error (.selfDependency id) ↔
    id = r.product ∧ ∃ d ∈ declared, d.id = r.product
  conflictingPolicy_iff :
    (∃ id conflict, r.resolve declared discovered = .error (.conflictingPolicy id conflict)) ↔
      (∀ d ∈ declared, d.id ≠ r.product) ∧
        (r.contradictory.Nonempty ∨ (r.contested declared).Nonempty)
  conflictingPolicy_about : ∀ id conflict,
    r.resolve declared discovered = .error (.conflictingPolicy id conflict) →
      r.Conflicts declared id conflict
  settling : r.PolicyHolds declared → (r.failing declared discovered).Nonempty →
    ∃ id e, IsLeast (r.failing declared discovered) id ∧ FailsAs declared discovered id e ∧
      r.resolve declared discovered = .error e
  unaccounted_iff :
    (∃ id, r.resolve declared discovered = .error (.unaccountedRecommendation id)) ↔
      r.PolicyHolds declared ∧ r.failing declared discovered = ∅ ∧
        (r.leftOver declared discovered).Nonempty
  unaccounted_about : ∀ id,
    r.resolve declared discovered = .error (.unaccountedRecommendation id) →
      IsLeast (r.leftOver declared discovered) id
  succeeds_iff : (∃ res, r.resolve declared discovered = .ok res) ↔
    r.PolicyHolds declared ∧ r.failing declared discovered = ∅ ∧
      r.leftOver declared discovered = ∅
  relevant_eq : r.resolve declared (r.relevant discovered) = r.resolve declared discovered

theorem failsWith_selfDependency_iff : r.FailsWith declared discovered (.selfDependency id) ↔
    id = r.product ∧ ∃ d ∈ declared, d.id = r.product := by
  refine ⟨fun h => ?_, fun h => ?_⟩
  · cases h with
    | selfDependency self => exact ⟨rfl, self⟩
    | settling _ _ he => cases he.isOfMerge
  · obtain ⟨rfl, self⟩ := h
    exact .selfDependency self

theorem failsWith_conflictingPolicy_iff {conflict : PolicyConflict} :
    r.FailsWith declared discovered (.conflictingPolicy id conflict) ↔
      (∀ d ∈ declared, d.id ≠ r.product) ∧ r.Conflicts declared id conflict := by
  refine ⟨fun h => ?_, fun h => .conflictingPolicy h.1 h.2⟩
  cases h with
  | conflictingPolicy notSelf h => exact ⟨notSelf, h⟩
  | settling _ _ he => cases he.isOfMerge

theorem failsWith_unaccounted_iff :
    r.FailsWith declared discovered (.unaccountedRecommendation id) ↔ r.PolicyHolds declared ∧
      r.failing declared discovered = ∅ ∧ IsLeast (r.leftOver declared discovered) id := by
  refine ⟨fun h => ?_, fun h => .unaccounted h.1 h.2.1 h.2.2⟩
  cases h with
  | settling _ _ he => cases he.isOfMerge
  | unaccounted policy none least => exact ⟨policy, none, least⟩

/-- A resolution has four kinds of errors, which take precedence over each other in a fixed order
and each name the smallest product. What is discovered for the product itself or for an ignored
product has no part in it. -/
theorem resolve_errorsInOrder : r.ErrorsInOrder declared discovered := by
  refine ⟨fun id => ?_, ?_, fun id conflict h => ?_, fun hp hne => ?_, ?_, fun id h => ?_, ?_,
    resolve_relevant⟩
  · rw [resolve_eq_error_iff_failsWith, failsWith_selfDependency_iff]
  · simp only [resolve_eq_error_iff_failsWith, failsWith_conflictingPolicy_iff]
    refine ⟨fun h => ?_, fun h => ?_⟩
    · obtain ⟨id, conflict, notSelf, h⟩ := h
      exact ⟨notSelf, h.nonempty⟩
    · obtain ⟨notSelf, h⟩ := h
      obtain ⟨id, conflict, h⟩ := exists_conflicts h
      exact ⟨id, conflict, notSelf, h⟩
  · exact (failsWith_conflictingPolicy_iff.1 (resolve_eq_error_iff_failsWith.1 h)).2
  · obtain ⟨id, hid⟩ := exists_isLeast_failing hp hne
    obtain ⟨e, he⟩ := hid.1.2.2
    exact ⟨id, e, hid, he, resolve_of_failsWith (.settling hp hid he)⟩
  · simp only [resolve_eq_error_iff_failsWith, failsWith_unaccounted_iff]
    refine ⟨fun h => ?_, fun h => ?_⟩
    · obtain ⟨id, hp, hnone, hid⟩ := h
      exact ⟨hp, hnone, id, hid.1⟩
    · obtain ⟨hp, hnone, hne⟩ := h
      obtain ⟨id, hid⟩ := exists_isLeast_leftOver hne
      exact ⟨id, hp, hnone, hid⟩
  · exact (failsWith_unaccounted_iff.1 (resolve_eq_error_iff_failsWith.1 h)).2.2
  · refine ⟨fun h => ?_, fun h => resolve_of_nothing_wrong h.1 h.2.1 h.2.2⟩
    obtain ⟨res, h⟩ := h
    rcases exists_failsWith_or r declared discovered with ⟨e, he⟩ | hnothing
    · rw [resolve_of_failsWith he] at h
      cases h
    · exact hnothing

end Resolver

end ProductLock
