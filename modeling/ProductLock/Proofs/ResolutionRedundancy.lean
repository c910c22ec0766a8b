import ProductLock.Proofs.ResolutionEntries

/-!
# Removing a redundant declaration

A declaration is noted as redundant when the discovered dependencies alone merge into what they
merge into together with the declared ones. Only merges take part in the comparison. Whether a
product may go undeclared is another matter: what is recommended must be declared, optional or
ignored, and a product that is declared is neither of the others, by the policy. So removing the
declarations of a product that a note names leaves it without a decision, and the resolution fails.

What the note says of the merges is right all the same. If the product is made optional when its
declarations go, the resolution succeeds, gives the product the range and the recommendation that it
had, and does not touch any other product. All of that comes from comparing the two resolutions
product by product: a product other than the one in question has the same entries in both.
-/

namespace ProductLock.Resolver

open Dependency

variable {r : Resolver} {declared discovered : List Dependency} {id : ProductId}

/-- The declarations of other products. -/
def declaredElsewhere (declared : List Dependency) (id : ProductId) : List Dependency :=
  declared.filter fun d => d.id ≠ id

/-- The resolver that lets the product pass as optional. -/
def withOptional (r : Resolver) (id : ProductId) : Resolver :=
  { r with optional := r.optional.insert id }

theorem mem_declaredElsewhere {d : Dependency} :
    d ∈ declaredElsewhere declared id ↔ d ∈ declared ∧ d.id ≠ id := by
  rw [declaredElsewhere, List.mem_filter, decide_eq_true_iff]

theorem declaredElsewhere_subset : declaredElsewhere declared id ⊆ declared :=
  fun _ hd => (mem_declaredElsewhere.1 hd).1

theorem entriesFor_declaredElsewhere_self : entriesFor id (declaredElsewhere declared id) = [] := by
  refine List.filter_eq_nil_iff.2 fun d hd => ?_
  rw [decide_eq_true_iff]
  exact (mem_declaredElsewhere.1 hd).2

theorem entriesFor_declaredElsewhere {other : ProductId} (h : other ≠ id) :
    entriesFor other (declaredElsewhere declared id) = entriesFor other declared := by
  rw [entriesFor, declaredElsewhere, List.filter_filter, entriesFor]
  refine List.filter_congr fun d _ => ?_
  by_cases hd : d.id = other
  · simp [hd, h]
  · simp [hd]

theorem exists_declaredElsewhere {other : ProductId} :
    (∃ d ∈ declaredElsewhere declared id, d.id = other) ↔
      other ≠ id ∧ ∃ d ∈ declared, d.id = other := by
  refine ⟨fun h => ?_, fun h => ?_⟩
  · obtain ⟨d, hd, rfl⟩ := h
    obtain ⟨hd, hne⟩ := mem_declaredElsewhere.1 hd
    exact ⟨hne, d, hd, rfl⟩
  · obtain ⟨hne, d, hd, rfl⟩ := h
    exact ⟨d, mem_declaredElsewhere.2 ⟨hd, hne⟩, rfl⟩

theorem contains_withOptional {other : ProductId} :
    (r.withOptional id).optional.contains other = true ↔
      other = id ∨ r.optional.contains other = true := by
  rw [eq_comm (a := other)]
  exact Catalog.contains_insert

theorem contains_withOptional_of_ne {other : ProductId} (h : other ≠ id) :
    (r.withOptional id).optional.contains other = r.optional.contains other := by
  rw [Bool.eq_iff_iff, contains_withOptional]
  simp [h]

/-- What a note of redundancy says of the two merges. -/
theorem settles_redundant_iff {d alone x : Dependency} :
    r.Settles declared discovered id x (some (.redundant d alone)) ↔
      ∃ own recommended more, entriesFor id declared = d :: own ∧
        entriesFor id (r.recommendations discovered) = recommended :: more ∧
        mergeAll recommended more = .ok alone ∧
        mergeAll d (own ++ recommended :: more) = .ok alone ∧
        x = alone.withOptional
          (r.optional.contains id || (entriesFor id declared).any (·.isOptional)) := by
  unfold Settles
  simp only [redundancy_eq_ok_some_iff]
  refine ⟨fun h => ?_, fun h => ?_⟩
  · obtain ⟨first, rest, m, hcons, hm, ⟨d', own, recommended, more, hown, hothers, hrec, hnote⟩,
      rfl⟩ := h
    obtain ⟨rfl, rfl⟩ := Note.redundant.inj hnote
    rw [hown, hothers] at hcons
    obtain ⟨rfl, rfl⟩ := List.cons.inj hcons
    exact ⟨own, recommended, more, hown, hothers, hrec, hm, rfl⟩
  · obtain ⟨own, recommended, more, hown, hothers, hrec, hm, rfl⟩ := h
    refine ⟨d, own ++ recommended :: more, alone, ?_, hm, ?_, rfl⟩
    · rw [hown, hothers, List.cons_append]
    · exact ⟨d, own, recommended, more, hown, hothers, hrec, rfl⟩

theorem exists_discovered {recommended : Dependency} {more : List Dependency}
    (h : entriesFor id (r.recommendations discovered) = recommended :: more) :
    ∃ e ∈ discovered, e.id = id := by
  have hmem : recommended ∈ entriesFor id (r.recommendations discovered) := by
    rw [h]
    exact .head more
  obtain ⟨he, hid⟩ := mem_entriesFor.1 hmem
  exact ⟨recommended, (mem_recommendations.1 he).1, hid⟩

section Removal

variable {d : Dependency} (hp : r.checkPolicy declared = .ok ()) (hd : d ∈ declared)
  (hid : d.id = id)

include hp hd hid

/-- A declared product is neither optional nor ignored, and is not the resolved one. -/
theorem policy_of_declared :
    id ≠ r.product ∧ r.optional.contains id = false ∧ r.ignored.contains id = false := by
  obtain ⟨hself, hconflict⟩ := checkPolicy_eq_ok_iff.1 hp
  obtain ⟨hi, ho⟩ := (policyConflict?_eq_none_iff.1 hconflict).2 d hd
  subst hid
  exact ⟨hself d hd, ho, hi⟩

/-- Without its declarations the product is no candidate; all others stay. -/
theorem mem_candidates_declaredElsewhere {other : ProductId} :
    other ∈ r.candidates (declaredElsewhere declared id) discovered ↔
      other ∈ r.candidates declared discovered ∧ other ≠ id := by
  have hp' : r.checkPolicy (declaredElsewhere declared id) = .ok () :=
    checkPolicy_of_subset hp declaredElsewhere_subset
  obtain ⟨_, ho, _⟩ := policy_of_declared hp hd hid
  rw [mem_candidates_of_checkPolicy hp, mem_candidates_of_checkPolicy hp', exists_declaredElsewhere]
  by_cases h : other = id
  · subst h
    simp [ho]
  · simp [h]

theorem checkPolicy_withOptional :
    (r.withOptional id).checkPolicy (declaredElsewhere declared id) = .ok () := by
  obtain ⟨hself, hconflict⟩ := checkPolicy_eq_ok_iff.1 hp
  obtain ⟨hboth, hdeclared⟩ := policyConflict?_eq_none_iff.1 hconflict
  obtain ⟨_, _, hi⟩ := policy_of_declared hp hd hid
  refine checkPolicy_eq_ok_iff.2 ⟨fun e he => hself e (declaredElsewhere_subset he),
    policyConflict?_eq_none_iff.2 ⟨fun other hother => ?_, fun e he => ?_⟩⟩
  · have hignored : r.ignored.contains other = true := hother
    have hne : other ≠ id := by
      intro he
      rw [he, hi] at hignored
      cases hignored
    rw [contains_withOptional_of_ne hne]
    exact hboth other hignored
  · obtain ⟨he, hne⟩ := mem_declaredElsewhere.1 he
    rw [contains_withOptional_of_ne hne]
    exact hdeclared e he

/-- With the product optional the candidates are what they were, if it is recommended. -/
theorem mem_candidates_withOptional (hdisc : ∃ e ∈ discovered, e.id = id) {other : ProductId} :
    other ∈ (r.withOptional id).candidates (declaredElsewhere declared id) discovered ↔
      other ∈ r.candidates declared discovered := by
  rw [mem_candidates_of_checkPolicy hp,
    mem_candidates_of_checkPolicy (checkPolicy_withOptional hp hd hid), exists_declaredElsewhere,
    contains_withOptional]
  refine and_congr Iff.rfl ?_
  by_cases h : other = id
  · subst h
    simp only [ne_eq, not_true, false_and, false_or, true_or, and_true]
    exact iff_of_true hdisc (.inl ⟨d, hd, hid⟩)
  · simp [h]

end Removal

/-- Other products settle alike without the declarations of this one. -/
theorem settle_declaredElsewhere {other : ProductId} (h : other ≠ id) :
    r.settle (declaredElsewhere declared id) discovered other =
      r.settle declared discovered other :=
  settle_congr (entriesFor_declaredElsewhere h) rfl rfl

theorem settle_withOptional {other : ProductId} (h : other ≠ id) :
    (r.withOptional id).settle (declaredElsewhere declared id) discovered other =
      r.settle declared discovered other :=
  settle_congr (entriesFor_declaredElsewhere h) rfl (contains_withOptional_of_ne h)

section Resolved

variable {res : Resolution} {d : Dependency} (h : r.resolve declared discovered = .ok res)
  (hd : d ∈ declared) (hid : d.id = id)

include h hd hid

/-- Without its declarations a recommended product is left over. -/
theorem resolve_declaredElsewhere (hdisc : ∃ e ∈ discovered, e.id = id) :
    r.resolve (declaredElsewhere declared id) discovered =
      .error (.unaccountedRecommendation id) := by
  have hp := (resolve_eq_ok_iff.1 h).1
  have hcand {other : ProductId} :
      other ∈ r.candidates (declaredElsewhere declared id) discovered ↔
        other ∈ r.candidates declared discovered ∧ other ≠ id :=
    mem_candidates_declaredElsewhere hp hd hid
  obtain ⟨hne, _, hi⟩ := policy_of_declared hp hd hid
  refine resolve_eq_unaccounted (checkPolicy_of_subset hp declaredElsewhere_subset)
    (fun other hother => ?_) hdisc hne (fun hc => (hcand.1 hc).2 rfl) hi fun e he hep hne => ?_
  · obtain ⟨hc, hne⟩ := hcand.1 hother
    obtain ⟨x, note, hx⟩ := settles_of_resolve h hc
    refine ⟨x, note, settle_eq_ok_some_iff.1 ?_⟩
    rw [settle_declaredElsewhere hne]
    exact settle_eq_ok_some_iff.2 hx
  · rcases (resolve_accounts h).all_discovered e he hep with hin | hi
    · exact .inl (hcand.2 ⟨(contains_resolve h).1 hin, hne⟩)
    · exact .inr hi

/-- Made optional instead of declared, the product settles to the merge of what is discovered, and
nothing else changes. -/
theorem resolve_withOptional {recommended alone : Dependency} {more : List Dependency}
    (hothers : entriesFor id (r.recommendations discovered) = recommended :: more)
    (halone : mergeAll recommended more = .ok alone) :
    ∃ res', (r.withOptional id).resolve (declaredElsewhere declared id) discovered = .ok res' ∧
      res'.dependencies.find? id = some (alone.withOptional true) ∧
      ∀ other, other ≠ id → res'.dependencies.find? other = res.dependencies.find? other := by
  have hp := (resolve_eq_ok_iff.1 h).1
  have hp' := checkPolicy_withOptional hp hd hid
  obtain ⟨hne, _, _⟩ := policy_of_declared hp hd hid
  have hcand {other : ProductId} :
      other ∈ (r.withOptional id).candidates (declaredElsewhere declared id) discovered ↔
        other ∈ r.candidates declared discovered :=
    mem_candidates_withOptional hp hd hid (exists_discovered hothers)
  have hself : (r.withOptional id).Settles (declaredElsewhere declared id) discovered id
      (alone.withOptional true) none := by
    unfold Settles
    rw [entriesFor_declaredElsewhere_self]
    refine ⟨recommended, more, alone, hothers, halone, rfl, ?_⟩
    rw [contains_withOptional.2 (.inl rfl), Bool.true_or]
  have hother {other : ProductId} (hne : other ≠ id) {x : Dependency} {note : Option Note} :
      (r.withOptional id).Settles (declaredElsewhere declared id) discovered other x note ↔
        r.Settles declared discovered other x note := by
    rw [← settle_eq_ok_some_iff, settle_withOptional hne, settle_eq_ok_some_iff]
  obtain ⟨res', h'⟩ : ∃ res',
      (r.withOptional id).resolve (declaredElsewhere declared id) discovered = .ok res' := by
    refine resolve_of_settles hp' (fun other hc => ?_) fun e he hep => ?_
    · by_cases heq : other = id
      · rw [heq]
        exact ⟨_, _, hself⟩
      · obtain ⟨x, note, hx⟩ := settles_of_resolve h (hcand.1 hc)
        exact ⟨x, note, (hother heq).2 hx⟩
    · rcases (resolve_accounts h).all_discovered e he hep with hin | hi
      · exact .inl (hcand.2 ((contains_resolve h).1 hin))
      · exact .inr hi
  have hc : id ∈ r.candidates declared discovered :=
    (mem_candidates_of_checkPolicy hp).2 ⟨hne, .inl ⟨d, hd, hid⟩⟩
  refine ⟨res', h', (find?_resolve h').2 ⟨hcand.2 hc, _, hself⟩, fun other hne => ?_⟩
  refine Option.ext fun x => ?_
  rw [find?_resolve h', find?_resolve h, hcand]
  simp only [hother hne]

end Resolved

/-- Removing the declarations that a note calls redundant makes the resolution fail, because the
product is left without a decision. Making it optional at the same time gives it the range and the
recommendation that it had, and leaves all other products as they were. -/
theorem resolve_without_redundant {res : Resolution} {d alone : Dependency}
    (h : r.resolve declared discovered = .ok res)
    (hn : .redundant d alone ∈ res.report.notes) :
    (∃ isOptional, res.dependencies.find? d.id = some (alone.withOptional isOptional)) ∧
    r.resolve (declaredElsewhere declared d.id) discovered =
      .error (.unaccountedRecommendation d.id) ∧
    ∃ res', (r.withOptional d.id).resolve (declaredElsewhere declared d.id) discovered = .ok res' ∧
      res'.dependencies.find? d.id = some (alone.withOptional true) ∧
      ∀ id, id ≠ d.id → res'.dependencies.find? id = res.dependencies.find? id := by
  obtain ⟨id, hc, x, hx⟩ := (redundant_mem_notes_iff h).1 hn
  obtain ⟨own, recommended, more, hown, hothers, halone, _, rfl⟩ := settles_redundant_iff.1 hx
  have hmem : d ∈ entriesFor id declared := by
    rw [hown]
    exact .head own
  obtain ⟨hd, rfl⟩ := mem_entriesFor.1 hmem
  refine ⟨⟨_, (find?_resolve h).2 ⟨hc, _, hx⟩⟩, ?_, resolve_withOptional h hd rfl hothers halone⟩
  exact resolve_declaredElsewhere h hd rfl (exists_discovered hothers)

theorem resolve_without_redundant_bar :
    let r : Resolver := ⟨⟨"com.example", "service"⟩, .empty, .empty⟩
    let a : Dependency :=
      ⟨⟨"com.foo", "bar"⟩, .orderable ⟨⟨1, 0, 0⟩, .release⟩, .major 1, none, true⟩
    let b : Dependency :=
      ⟨⟨"com.foo", "bar"⟩, .orderable ⟨⟨1, 2, 0⟩, .release⟩, .minor 1 3, none, false⟩
    let c : Dependency :=
      ⟨⟨"com.foo", "qux"⟩, .freeform ⟨⟨2, 0, 0⟩, "2.0.0-dirty"⟩, .any, none, false⟩
    let alone : Dependency := { b with recommended := some b.minimum }
    ∃ res, r.resolve [a, c] [b] = .ok res ∧ .redundant a alone ∈ res.report.notes ∧
      r.resolve [c] [b] = .error (.unaccountedRecommendation b.id) ∧
      ∃ res', (r.withOptional b.id).resolve [c] [b] = .ok res' ∧
        res'.dependencies.find? b.id = some { alone with isOptional := true } ∧
        res'.dependencies.find? c.id = res.dependencies.find? c.id := by
  intro r a b c alone
  have hnotes : (r.resolve [a, c] [b]).map (·.report.notes) = .ok [.redundant a alone] := by
    decide +kernel
  have hrest : declaredElsewhere [a, c] a.id = [c] := by decide +kernel
  cases h : r.resolve [a, c] [b] with
  | error e =>
      rw [h] at hnotes
      cases hnotes
  | ok res =>
      rw [h] at hnotes
      have hnotes : res.report.notes = [.redundant a alone] := Except.ok.inj hnotes
      have hn : .redundant a alone ∈ res.report.notes := by
        rw [hnotes]
        exact .head []
      have hremoved := resolve_without_redundant h hn
      rw [hrest] at hremoved
      obtain ⟨_, herror, res', h', hbar, hsame⟩ := hremoved
      exact ⟨res, rfl, hn, herror, res', h', hbar, hsame c.id (by decide)⟩

/-- Following the suggestion turns a resolution that succeeds into one that fails. -/
theorem redundant_not_removable :
    let r : Resolver := ⟨⟨"com.example", "service"⟩, .empty, .empty⟩
    let a : Dependency :=
      ⟨⟨"com.foo", "bar"⟩, .orderable ⟨⟨1, 0, 0⟩, .release⟩, .major 1, none, false⟩
    let b : Dependency :=
      ⟨⟨"com.foo", "bar"⟩, .orderable ⟨⟨1, 2, 0⟩, .release⟩, .minor 1 3, none, false⟩
    (r.resolve [a] [b]).map (·.report.notes) =
        .ok [.redundant a { b with recommended := some b.minimum }] ∧
      r.resolve [] [b] = .error (.unaccountedRecommendation b.id) := by
  intro r a b
  have hnotes : (r.resolve [a] [b]).map (·.report.notes) =
      .ok [.redundant a { b with recommended := some b.minimum }] := by decide +kernel
  have herror : r.resolve [] [b] = .error (.unaccountedRecommendation b.id) := by decide +kernel
  exact ⟨hnotes, herror⟩

end ProductLock.Resolver
