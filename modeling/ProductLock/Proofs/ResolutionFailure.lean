import ProductLock.Proofs.MergeSuccess
import ProductLock.Proofs.ResolutionContents

/-!
# Why a resolution fails

A resolution fails in one of three places: the policy does not hold, a candidate cannot be settled
after all candidates before it were, or something recommended is left over at the end
(`resolve_eq_error_iff`). Settling a candidate takes up to two merges. One is of all that is
declared and discovered for the product, and gives the result. The other is of the discovered
dependencies alone; it is there only to find out whether the declaration is redundant, but its
failure is a failure of the resolution as well.

The two can disagree on one point. The merge of all takes its minimum from any declared or
discovered dependency that has an orderable one. The discovered dependencies alone may have none,
and different freeform ones instead. Then the resolution ends with an ambiguous minimum although
a declared one decides it. Nothing else can go wrong with the second merge when the
first succeeds: the discovered dependencies are a part of what the first merge joined.
-/

namespace ProductLock.Resolver

open Dependency

variable {r : Resolver} {declared discovered : List Dependency} {e : ConstraintError}

/-- The policy holds, and every candidate before the product can be settled. -/
def Reaches (r : Resolver) (declared discovered : List Dependency) (id : ProductId) : Prop :=
  r.checkPolicy declared = .ok () ∧ ∃ before after,
    r.candidates declared discovered = before ++ id :: after ∧
    ∀ c ∈ before, ∃ x, r.settle declared discovered c = .ok x

theorem Reaches.mem_candidates {id : ProductId} (h : r.Reaches declared discovered id) :
    id ∈ r.candidates declared discovered := by
  obtain ⟨_, before, after, hc, _⟩ := h
  rw [hc]
  exact List.mem_append_right before (.head after)

theorem Reaches.ne_product {id : ProductId} (h : r.Reaches declared discovered id) :
    id ≠ r.product :=
  ((mem_candidates_of_checkPolicy h.1).1 h.mem_candidates).1

/-! ## The three places -/

theorem checkPolicy_eq_error_iff : r.checkPolicy declared = .error e ↔
    (∃ d ∈ declared, d.id = r.product) ∧ e = .selfDependency r.product ∨
      (∀ d ∈ declared, d.id ≠ r.product) ∧ ∃ id conflict,
        r.policyConflict? declared = some (id, conflict) ∧ e = .conflictingPolicy id conflict := by
  unfold checkPolicy
  by_cases hself : ∃ d ∈ declared, d.id = r.product
  · rw [if_pos (by simpa using hself)]
    refine ⟨fun h => .inl ⟨hself, (Except.error.inj h).symm⟩, fun h => ?_⟩
    rcases h with ⟨_, rfl⟩ | ⟨hne, _⟩
    · rfl
    · obtain ⟨d, hd, he⟩ := hself
      exact absurd he (hne d hd)
  · have hne : ∀ d ∈ declared, d.id ≠ r.product := fun d hd he => hself ⟨d, hd, he⟩
    rw [if_neg (by simpa using hne), or_iff_right fun h => hself h.1, and_iff_right hne]
    cases r.policyConflict? declared with
    | none => simp [pure, Except.pure]
    | some x =>
        obtain ⟨id, conflict⟩ := x
        show (.error (.conflictingPolicy id conflict) : Except ConstraintError Unit) = .error e ↔ _
        simp [eq_comm]

theorem conclude_eq_error_iff {settled : List (Dependency × Option Note)} :
    r.conclude discovered settled = .error e ↔ ∃ id,
      r.unaccounted? discovered (.ofList (settled.map Prod.fst)) = some id ∧
        e = .unaccountedRecommendation id := by
  unfold conclude
  cases r.unaccounted? discovered (.ofList (settled.map Prod.fst)) with
  | none => simp
  | some id => simp [eq_comm]

theorem resolve_eq_error_iff : r.resolve declared discovered = .error e ↔
    r.checkPolicy declared = .error e ∨
    (∃ id, r.Reaches declared discovered id ∧ r.settle declared discovered id = .error e) ∨
    r.checkPolicy declared = .ok () ∧ ∃ settled,
      (r.candidates declared discovered).mapM (r.settle declared discovered) = .ok settled ∧
      r.conclude discovered (settled.filterMap id) = .error e := by
  rw [resolve_eq]
  simp only [bind_eq_error_iff, mapM_eq_error_iff]
  refine or_congr Iff.rfl ⟨fun h => ?_, fun h => ?_⟩
  · obtain ⟨_, hp, ⟨before, id, after, hc, hbefore, hid⟩ | ⟨settled, hs, h⟩⟩ := h
    · exact .inl ⟨id, ⟨hp, before, after, hc, hbefore⟩, hid⟩
    · exact .inr ⟨hp, settled, hs, h⟩
  · rcases h with ⟨id, ⟨hp, before, after, hc, hbefore⟩, hid⟩ | ⟨hp, settled, hs, h⟩
    · exact ⟨(), hp, .inl ⟨before, id, after, hc, hbefore, hid⟩⟩
    · exact ⟨(), hp, .inr ⟨settled, hs, h⟩⟩

/-! ## The two merges -/

section Settling

variable {id : ProductId}

theorem redundancy_eq_error_iff {own others : List Dependency} {m : Dependency} :
    redundancy own others m = .error e ↔ own ≠ [] ∧ ∃ recommended more,
      others = recommended :: more ∧ mergeAll recommended more = .error e := by
  unfold redundancy
  split
  next declaration own' recommended more =>
    simp [bind_eq_error_iff, pure, Except.pure]
  next hne =>
    refine ⟨nofun, fun h => ?_⟩
    obtain ⟨hown, recommended, more, hothers, _⟩ := h
    obtain ⟨declaration, own', hown⟩ := List.exists_cons_of_ne_nil hown
    exact absurd hothers (hne _ _ _ _ hown)

/-- Whether looking for a redundancy fails is up to the discovered dependencies. -/
theorem exists_redundancy_of {own own' others : List Dependency} {m m' : Dependency}
    {note : Option Note} (hown : own ≠ []) (h : redundancy own others m = .ok note) :
    ∃ note', redundancy own' others m' = .ok note' := by
  cases h' : redundancy own' others m' with
  | ok note' => exact ⟨note', rfl⟩
  | error e =>
      have herror : redundancy own others m = .error e :=
        redundancy_eq_error_iff.2 ⟨hown, (redundancy_eq_error_iff.1 h').2⟩
      rw [h] at herror
      cases herror

theorem settle_eq_error_iff : r.settle declared discovered id = .error e ↔ ∃ first rest,
    entriesFor id declared ++ entriesFor id (r.recommendations discovered) = first :: rest ∧
    (mergeAll first rest = .error e ∨ ∃ m, mergeAll first rest = .ok m ∧
      redundancy (entriesFor id declared) (entriesFor id (r.recommendations discovered)) m =
        .error e) := by
  cases h : entriesFor id declared ++ entriesFor id (r.recommendations discovered) with
  | nil =>
      rw [settle_of_nil h]
      refine ⟨nofun, fun hs => ?_⟩
      obtain ⟨_, _, hcons, _⟩ := hs
      cases hcons
  | cons first rest =>
      rw [settle_of_cons h]
      simp [bind_eq_error_iff, pure, Except.pure]

/-- The dependencies can be merged. -/
def Mergeable (ds : List Dependency) : Prop :=
  ∃ first rest m, ds = first :: rest ∧ mergeAll first rest = .ok m

theorem mergeable_cons_iff {first : Dependency} {rest : List Dependency} :
    Mergeable (first :: rest) ↔ ∃ m, mergeAll first rest = .ok m := by
  refine ⟨fun h => ?_, fun h => ?_⟩
  · obtain ⟨_, _, m, h, hm⟩ := h
    obtain ⟨rfl, rfl⟩ := List.cons.inj h
    exact ⟨m, hm⟩
  · obtain ⟨m, hm⟩ := h
    exact ⟨first, rest, m, rfl, hm⟩

/-- Merging the dependencies fails. -/
def FailsToMerge (ds : List Dependency) (e : ConstraintError) : Prop :=
  ∃ first rest, ds = first :: rest ∧ mergeAll first rest = .error e

theorem failsToMerge_cons_iff {first : Dependency} {rest : List Dependency} :
    FailsToMerge (first :: rest) e ↔ mergeAll first rest = .error e := by
  refine ⟨fun h => ?_, fun h => ⟨first, rest, rfl, h⟩⟩
  obtain ⟨_, _, h, he⟩ := h
  obtain ⟨rfl, rfl⟩ := List.cons.inj h
  exact he

theorem FailsToMerge.ne_nil {ds : List Dependency} (h : FailsToMerge ds e) : ds ≠ [] := by
  obtain ⟨first, rest, rfl, _⟩ := h
  exact List.cons_ne_nil first rest

theorem FailsToMerge.not_mergeable {ds : List Dependency} (h : FailsToMerge ds e) :
    ¬ Mergeable ds := by
  obtain ⟨first, rest, rfl, he⟩ := h
  rw [mergeable_cons_iff, he]
  nofun

/-- Entries for one product merge or fail, and fail as ambiguous just when they are undecided. -/
theorem ambiguous_iff_undecided {ds : List Dependency} {id' : ProductId} {texts : List String}
    (hid : ∀ d ∈ ds, d.id = id) : FailsToMerge ds (.ambiguousMinimum id' texts) ↔
      Undecided ds ∧ id' = id ∧ texts = minimumTexts ds := by
  cases ds with
  | nil =>
      refine ⟨fun h => ?_, fun h => ?_⟩
      · obtain ⟨_, _, hcons, _⟩ := h
        cases hcons
      · obtain ⟨_, hd, _⟩ := h.1.differ
        cases hd
  | cons d ds =>
      obtain ⟨rfl, hid⟩ := List.forall_mem_cons.1 hid
      rw [failsToMerge_cons_iff, mergeAll_eq_ambiguous_iff hid]

theorem id_of_mem_entries {own others : List Dependency} {d : Dependency}
    (h : d ∈ entriesFor id own ++ entriesFor id others) : d.id = id := by
  rw [List.mem_append, mem_entriesFor, mem_entriesFor] at h
  exact h.elim And.right And.right

/-- Settling a product fails as the merge of all its entries does. If that succeeds and the product
is declared, it fails as the merge of the discovered ones does. -/
theorem settle_eq_error_iff_fails (hp : id ≠ r.product) :
    r.settle declared discovered id = .error e ↔
      FailsToMerge (entriesFor id declared ++ entriesFor id discovered) e ∨
        Mergeable (entriesFor id declared ++ entriesFor id discovered) ∧
          entriesFor id declared ≠ [] ∧ FailsToMerge (entriesFor id discovered) e := by
  rw [settle_eq_error_iff, entriesFor_recommendations hp]
  simp only [redundancy_eq_error_iff]
  refine ⟨fun h => ?_, fun h => ?_⟩
  · obtain ⟨first, rest, hcons, h | ⟨m, hm, h⟩⟩ := h
    · exact .inl ⟨first, rest, hcons, h⟩
    · exact .inr ⟨⟨first, rest, m, hcons, hm⟩, h⟩
  · rcases h with ⟨first, rest, hcons, h⟩ | ⟨⟨first, rest, m, hcons, hm⟩, h⟩
    · exact ⟨first, rest, hcons, .inl h⟩
    · exact ⟨first, rest, hcons, .inr ⟨m, hm, h⟩⟩

theorem settle_eq_ambiguous_iff {id' : ProductId} {texts : List String} (hp : id ≠ r.product) :
    r.settle declared discovered id = .error (.ambiguousMinimum id' texts) ↔
      (Undecided (entriesFor id declared ++ entriesFor id discovered) ∧ id' = id ∧
        texts = minimumTexts (entriesFor id declared ++ entriesFor id discovered)) ∨
      Mergeable (entriesFor id declared ++ entriesFor id discovered) ∧
        entriesFor id declared ≠ [] ∧ Undecided (entriesFor id discovered) ∧ id' = id ∧
        texts = minimumTexts (entriesFor id discovered) := by
  have hall : ∀ d ∈ entriesFor id declared ++ entriesFor id discovered, d.id = id :=
    fun _ => id_of_mem_entries
  have hdisc : ∀ d ∈ entriesFor id discovered, d.id = id := fun d hd => (mem_entriesFor.1 hd).2
  rw [settle_eq_error_iff_fails hp, ambiguous_iff_undecided hall, ambiguous_iff_undecided hdisc]

/-- Every dependency keeps the rules, and every freeform minimum was read. -/
def WellFormed (ds : List Dependency) : Prop :=
  ∀ d ∈ ds, d.Valid ∧ (d.minimum.isOrderable = false → d.minimum.IsRead)

/-- When all entries merge, the discovered ones alone merge as well, unless they are undecided. -/
theorem mergeable_others {own others : List Dependency} (hw : WellFormed (own ++ others))
    (hm : Mergeable (own ++ others)) (hne : others ≠ []) (hu : ¬ Undecided others) :
    Mergeable others := by
  obtain ⟨first, rest, m, hcons, hm⟩ := hm
  obtain ⟨recommended, more, rfl⟩ := List.exists_cons_of_ne_nil hne
  have hsub : recommended :: more ⊆ first :: rest := by
    rw [← hcons]
    exact List.subset_append_right own _
  rw [hcons] at hw
  have hv : ∀ d ∈ first :: rest, d.Valid := fun d hd => (hw d hd).1
  refine mergeable_cons_iff.2 ?_
  by_cases hf : ∀ d ∈ recommended :: more, d.minimum.isOrderable = false
  · have hid : ∀ d ∈ first :: rest, d.id = first.id :=
      List.forall_mem_cons.2 ⟨rfl, same_of_mergeAll hm⟩
    refine mergeAll_of_agreeing (fun d hd => ?_) (fun d hd => hv d (hsub hd))
      (fun d hd => (hw d (hsub hd)).2 (hf d hd)) hf hu
    rw [hid d (hsub (.tail _ hd)), hid recommended (hsub (.head more))]
  · simp only [not_forall, Bool.not_eq_false] at hf
    obtain ⟨d, hd, ho⟩ := hf
    obtain ⟨v, hv'⟩ := orderable_of_isOrderable ho
    exact mergeAll_of_subset hm hv hsub hd hv'

/-- Settling a product whose entries merge fails exactly when it is declared and the discovered
minimums are undecided. -/
theorem settle_error_iff_of_mergeable (hp : id ≠ r.product)
    (hw : WellFormed (entriesFor id declared ++ entriesFor id discovered))
    (hm : Mergeable (entriesFor id declared ++ entriesFor id discovered)) :
    (∃ e, r.settle declared discovered id = .error e) ↔
      entriesFor id declared ≠ [] ∧ Undecided (entriesFor id discovered) := by
  refine ⟨fun h => ?_, fun h => ?_⟩
  · obtain ⟨e, h⟩ := h
    rcases (settle_eq_error_iff_fails hp).1 h with hall | ⟨_, hown, hothers⟩
    · exact absurd hm hall.not_mergeable
    · refine ⟨hown, Classical.byContradiction fun hu => ?_⟩
      exact hothers.not_mergeable (mergeable_others hw hm hothers.ne_nil hu)
  · obtain ⟨hown, hu⟩ := h
    exact ⟨_, (settle_eq_ambiguous_iff hp).2 (.inr ⟨hm, hown, hu, rfl, rfl⟩)⟩

end Settling

/-- A resolution finds a minimum ambiguous in two cases: none of the minimums has a place in the
order and they differ, or that is so of the discovered ones alone although all of them merge. In the
second case a declared minimum that has a place in the order does not help, and the failure is that
of looking for a redundant declaration. This search fails in no other way. -/
theorem resolve_ambiguous_iff :
    (∀ id texts, r.resolve declared discovered = .error (.ambiguousMinimum id texts) ↔
      r.Reaches declared discovered id ∧
        (Undecided (entriesFor id declared ++ entriesFor id discovered) ∧
          texts = minimumTexts (entriesFor id declared ++ entriesFor id discovered) ∨
        Mergeable (entriesFor id declared ++ entriesFor id discovered) ∧
          entriesFor id declared ≠ [] ∧ Undecided (entriesFor id discovered) ∧
          texts = minimumTexts (entriesFor id discovered))) ∧
    ∀ id, r.Reaches declared discovered id →
      WellFormed (entriesFor id declared ++ entriesFor id discovered) →
      Mergeable (entriesFor id declared ++ entriesFor id discovered) →
      ((∃ e, r.settle declared discovered id = .error e ∧
          r.resolve declared discovered = .error e) ↔
        entriesFor id declared ≠ [] ∧ Undecided (entriesFor id discovered)) := by
  refine ⟨fun id texts => ?_, fun id hreach hw hm => ?_⟩
  · rw [resolve_eq_error_iff]
    refine ⟨fun h => ?_, fun h => ?_⟩
    · rcases h with h | ⟨id', hreach, h⟩ | ⟨_, settled, _, h⟩
      · rcases checkPolicy_eq_error_iff.1 h with ⟨_, h⟩ | ⟨_, _, _, _, h⟩ <;> cases h
      · rcases (settle_eq_ambiguous_iff hreach.ne_product).1 h with
          ⟨hu, rfl, htexts⟩ | ⟨hm, hown, hu, rfl, htexts⟩
        · exact ⟨hreach, .inl ⟨hu, htexts⟩⟩
        · exact ⟨hreach, .inr ⟨hm, hown, hu, htexts⟩⟩
      · obtain ⟨_, _, h⟩ := conclude_eq_error_iff.1 h
        cases h
    · obtain ⟨hreach, h⟩ := h
      refine .inr (.inl ⟨id, hreach, (settle_eq_ambiguous_iff hreach.ne_product).2 ?_⟩)
      rcases h with ⟨hu, htexts⟩ | ⟨hm, hown, hu, htexts⟩
      · exact .inl ⟨hu, rfl, htexts⟩
      · exact .inr ⟨hm, hown, hu, rfl, htexts⟩
  · rw [← settle_error_iff_of_mergeable hreach.ne_product hw hm]
    refine exists_congr fun e => ⟨And.left, fun h => ⟨h, ?_⟩⟩
    exact resolve_eq_error_iff.2 (.inr (.inl ⟨id, hreach, h⟩))

theorem resolve_ambiguous_iff_redundancy :
    let bar (minimum : Version) : Dependency := ⟨⟨"com.foo", "bar"⟩, minimum, .major 1, none, false⟩
    let r : Resolver := ⟨⟨"com.example", "service"⟩, .empty, .empty⟩
    let declared := [bar (.orderable ⟨⟨1, 0, 0⟩, .release⟩)]
    let discovered := [bar (.freeform ⟨⟨1, 2, 0⟩, "1.2.0.dirty"⟩),
      bar (.freeform ⟨⟨1, 3, 0⟩, "1.3.0-foo.dirty"⟩)]
    r.Reaches declared discovered ⟨"com.foo", "bar"⟩ ∧ Mergeable (declared ++ discovered) ∧
      Undecided discovered ∧ ∃ e, r.settle declared discovered ⟨"com.foo", "bar"⟩ = .error e ∧
        r.resolve declared discovered = .error e := by
  intro bar r declared discovered
  have hown : entriesFor ⟨"com.foo", "bar"⟩ declared = declared := by decide +kernel
  have hothers : entriesFor ⟨"com.foo", "bar"⟩ discovered = discovered := by decide +kernel
  have herror : r.resolve declared discovered = .error (.ambiguousMinimum ⟨"com.foo", "bar"⟩
    ["1.2.0.dirty", "1.3.0-foo.dirty"]) := by decide +kernel
  obtain ⟨hreach, h⟩ := (resolve_ambiguous_iff.1 _ _).1 herror
  rw [hown, hothers] at h
  rcases h with ⟨hu, _⟩ | ⟨hm, _, hu, _⟩
  · exact absurd (hu.freeform _ (.head _)) (by decide)
  · have hvalid : ∀ d ∈ declared ++ discovered, d.Valid := by decide +kernel
    have hread : ∀ d ∈ discovered, d.minimum.IsRead := by
      refine List.forall_mem_cons.2 ⟨?_, List.forall_mem_singleton.2 ?_⟩
      · exact ⟨"1.2.0.dirty", by decide +kernel⟩
      · exact ⟨"1.3.0-foo.dirty", by decide +kernel⟩
    have hw : WellFormed (declared ++ discovered) := by
      refine fun d hd => ⟨hvalid d hd, fun hf => ?_⟩
      rcases List.mem_cons.1 hd with rfl | hd
      · cases hf
      · exact hread d hd
    have hsettle := resolve_ambiguous_iff.2 _ hreach
    rw [hown, hothers] at hsettle
    exact ⟨hreach, hm, hu, (hsettle hw hm).2 ⟨List.cons_ne_nil _ _, hu⟩⟩

/-- Declaring an orderable minimum does not settle what is ambiguous among the discovered ones, even
though all of them merge. -/
theorem declared_minimum_overruled :
    let bar (minimum : Version) : Dependency := ⟨⟨"com.foo", "bar"⟩, minimum, .major 1, none, false⟩
    let r : Resolver := ⟨⟨"com.example", "service"⟩, .empty, .empty⟩
    let a := bar (.orderable ⟨⟨1, 0, 0⟩, .release⟩)
    let b := bar (.freeform ⟨⟨1, 2, 0⟩, "1.2.0.dirty"⟩)
    let c := bar (.freeform ⟨⟨1, 3, 0⟩, "1.3.0-foo.dirty"⟩)
    r.resolve [a] [b, c] = .error (.ambiguousMinimum ⟨"com.foo", "bar"⟩
        ["1.2.0.dirty", "1.3.0-foo.dirty"]) ∧
      a.minimum.isOrderable = true ∧ (∀ d ∈ [a, b, c], d.Valid) ∧
      mergeAll a [b, c] = .ok { a with recommended := some a.minimum } := by
  intro bar r a b c
  have herror : r.resolve [a] [b, c] = .error (.ambiguousMinimum ⟨"com.foo", "bar"⟩
    ["1.2.0.dirty", "1.3.0-foo.dirty"]) := by decide +kernel
  have hvalid : ∀ d ∈ [a, b, c], d.Valid := by decide +kernel
  have hmerge : mergeAll a [b, c] = .ok { a with recommended := some a.minimum } := by
    decide +kernel
  exact ⟨herror, rfl, hvalid, hmerge⟩

end ProductLock.Resolver
