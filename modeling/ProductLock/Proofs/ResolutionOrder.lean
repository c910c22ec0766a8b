import Mathlib.Data.List.Perm.Basic
import ProductLock.Proofs.MergeOrder
import ProductLock.Proofs.ResolutionSteps

/-!
# The order of the inputs does not matter to a resolution

Declared and discovered dependencies come in some order, and a resolution gets along without it.
Which products there are, what the policy says of them and what is left over are matters of
membership, and the catalogs list them by id in any case. What a product's entries merge into does
not depend on their order either. So two resolutions whose inputs differ in order only take the same
steps, and they agree step by step: on the policy, on every candidate, and on what is left over.

There is one exception. The note that a product's declaration is redundant names a declaration, and
of several for the product it is the first one. Everything is therefore stated with a relation `N`
between notes that holds of two such notes. With another order of what is discovered they are equal;
with another order of what is declared they may differ in the declaration that they name, and the
rest of the result is the same.
-/

namespace ProductLock

/-- Two notes are the same, or call two declarations of one product redundant for the same
reason. -/
inductive Note.Alike (declared : List Dependency) : Note → Note → Prop
  | refl (n : Note) : Alike declared n n
  | redundant {d e : Dependency} (hd : d ∈ declared) (he : e ∈ declared) (hid : d.id = e.id)
      (alone : Dependency) : Alike declared (.redundant d alone) (.redundant e alone)

/-- Two resolutions file the same dependencies and leave related notes in the same order. -/
structure Resolution.Alike (N : Note → Note → Prop) (a b : Resolution) : Prop where
  dependencies_eq : a.dependencies = b.dependencies
  notes : List.Forall₂ N a.report.notes b.report.notes

theorem Resolution.Alike.eq {a b : Resolution} (h : Alike Eq a b) : a = b := by
  obtain ⟨a, ⟨notes⟩⟩ := a
  obtain ⟨b, ⟨notes'⟩⟩ := b
  obtain ⟨hd, hn⟩ := h
  rw [List.forall₂_eq_eq_eq] at hn
  cases hd
  cases hn
  rfl

namespace Resolver

open Dependency

variable {r : Resolver} {declared declared' discovered discovered' : List Dependency}

/-! ## What only looks at which products there are -/

section Products

variable (hp : declared.Perm declared') (hq : discovered.Perm discovered')

theorem ids_eq_of_perm {ds es : List Dependency} (h : ds.Perm es) : ids ds = ids es :=
  Catalog.ofList_congr fun _ => (h.map Dependency.id).mem_iff

include hp in
theorem checkPolicy_eq_of_perm : r.checkPolicy declared = r.checkPolicy declared' := by
  unfold checkPolicy policyConflict?
  rw [hp.any_eq, ids_eq_of_perm hp]

include hp hq in
theorem candidates_eq_of_perm :
    r.candidates declared discovered = r.candidates declared' discovered' := by
  unfold candidates recommendations
  dsimp only
  rw [ids_eq_of_perm (hp.append ((hq.filter _).filter _))]

include hq in
theorem unaccounted?_eq_of_perm {s : DependencySet} :
    r.unaccounted? discovered s = r.unaccounted? discovered' s := by
  unfold unaccounted? recommendations
  rw [ids_eq_of_perm (hq.filter _)]

include hq in
theorem unusedOptional_eq_of_perm : r.unusedOptional discovered = r.unusedOptional discovered' := by
  unfold unusedOptional recommendations
  simp only [(hq.filter _).any_eq]

end Products

/-! ## Settling a candidate -/

section Settling

variable {id : ProductId}

/-- The entries for one product merge alike in any order. -/
theorem mergeAll_entries_eq_of_perm {first first' : Dependency} {rest rest' : List Dependency}
    (hp : (first :: rest).Perm (first' :: rest')) (hid : ∀ d ∈ first :: rest, d.id = id)
    (hv : ∀ d ∈ first :: rest, d.Valid) (hr : ∀ d ∈ first :: rest, d.IsRead) :
    mergeAll first rest = mergeAll first' rest' := by
  obtain ⟨rfl, hid⟩ := List.forall_mem_cons.1 hid
  rw [mergeAll, mergeAll, mergedParts_eq_of_perm hp hid hv hr]

theorem exists_cons_of_perm {first : Dependency} {rest l : List Dependency}
    (hp : (first :: rest).Perm l) : ∃ first' rest', l = first' :: rest' :=
  List.exists_cons_of_ne_nil fun h => List.cons_ne_nil first rest (h ▸ hp).eq_nil

variable {N : Note → Note → Prop}

theorem redundancy_agree {own own' others others' : List Dependency} {m : Dependency}
    (hown : own.Perm own') (hothers : others.Perm others') (hid : ∀ d ∈ others, d.id = id)
    (hv : ∀ d ∈ others, d.Valid) (hr : ∀ d ∈ others, d.IsRead)
    (hN : ∀ d e alone, own.head? = some d → own'.head? = some e →
      N (.redundant d alone) (.redundant e alone)) :
    Agree (Option.Rel N) (redundancy own others m) (redundancy own' others' m) := by
  cases own with
  | nil =>
      obtain rfl := hown.nil_eq
      exact .ok .none
  | cons d own =>
      obtain ⟨e, own', rfl⟩ := exists_cons_of_perm hown
      cases others with
      | nil =>
          obtain rfl := hothers.nil_eq
          exact .ok .none
      | cons recommended more =>
          obtain ⟨recommended', more', rfl⟩ := exists_cons_of_perm hothers
          simp only [redundancy]
          rw [mergeAll_entries_eq_of_perm hothers hid hv hr]
          refine .bind_same fun alone => ?_
          by_cases h : m = alone
          · rw [if_pos h, if_pos h]
            exact .ok (.some (hN d e alone rfl rfl))
          · rw [if_neg h, if_neg h]
            exact .ok .none

/-- Two settled candidates are the same dependency with related notes. -/
def Related (N : Note → Note → Prop) (x y : Dependency × Option Note) : Prop :=
  x.1 = y.1 ∧ Option.Rel N x.2 y.2

theorem settle_agree (hp : declared.Perm declared') (hq : discovered.Perm discovered')
    (hv : ∀ d ∈ declared ++ discovered, d.Valid) (hr : ∀ d ∈ declared ++ discovered, d.IsRead)
    (hN : ∀ d e alone, (entriesFor id declared).head? = some d →
      (entriesFor id declared').head? = some e → N (.redundant d alone) (.redundant e alone)) :
    Agree (Option.Rel (Related N)) (r.settle declared discovered id)
      (r.settle declared' discovered' id) := by
  have hown : (entriesFor id declared).Perm (entriesFor id declared') := hp.filter _
  have hothers : (entriesFor id (r.recommendations discovered)).Perm
      (entriesFor id (r.recommendations discovered')) := (hq.filter _).filter _
  have hmem : ∀ d ∈ entriesFor id declared ++ entriesFor id (r.recommendations discovered),
      d ∈ declared ++ discovered ∧ d.id = id := by
    intro d hd
    rw [List.mem_append, mem_entriesFor, mem_entriesFor, mem_recommendations] at hd
    rw [List.mem_append]
    rcases hd with ⟨hd, hid⟩ | ⟨⟨hd, _⟩, hid⟩
    · exact ⟨.inl hd, hid⟩
    · exact ⟨.inr hd, hid⟩
  have hright {d : Dependency} (hd : d ∈ entriesFor id (r.recommendations discovered)) :=
    hmem d (List.mem_append_right _ hd)
  have hall := hown.append hothers
  cases h : entriesFor id declared ++ entriesFor id (r.recommendations discovered) with
  | nil =>
      rw [h] at hall
      rw [settle_of_nil h, settle_of_nil hall.nil_eq.symm]
      exact .ok .none
  | cons first rest =>
      rw [h] at hall hmem
      obtain ⟨first', rest', h'⟩ := exists_cons_of_perm hall
      rw [h'] at hall
      rw [settle_of_cons h, settle_of_cons h', hown.any_eq,
        mergeAll_entries_eq_of_perm hall (fun d hd => (hmem d hd).2)
          (fun d hd => hv d (hmem d hd).1) fun d hd => hr d (hmem d hd).1]
      refine .bind_same fun m => ?_
      refine (redundancy_agree hown hothers (fun d hd => (hright hd).2)
        (fun d hd => hv d (hright hd).1) (fun d hd => hr d (hright hd).1) hN).bind ?_
      exact fun _ _ hnote => .ok (.some ⟨rfl, hnote⟩)

end Settling

/-! ## The whole resolution -/

section Whole

variable {N : Note → Note → Prop}

theorem conclude_agree {settled settled' : List (Dependency × Option Note)}
    (hq : discovered.Perm discovered') (hs : List.Forall₂ (Related N) settled settled')
    (hN : ∀ n, N n n) :
    Agree (Resolution.Alike N) (r.conclude discovered settled)
      (r.conclude discovered' settled') := by
  have hfst : settled.map Prod.fst = settled'.map Prod.fst := by
    rw [← List.forall₂_eq_eq_eq]
    exact List.rel_map (fun _ _ h => h.1) hs
  have hsnd : List.Forall₂ N (settled.filterMap Prod.snd) (settled'.filterMap Prod.snd) :=
    List.rel_filterMap (fun _ _ h => h.2) hs
  unfold conclude outcome
  rw [hfst, unaccounted?_eq_of_perm hq, unusedOptional_eq_of_perm hq]
  cases r.unaccounted? discovered' (.ofList (settled'.map Prod.fst)) with
  | some id => exact .error _
  | none => exact .ok ⟨rfl, List.rel_append hsnd (List.forall₂_same.2 fun n _ => hN n)⟩

theorem resolve_agree (hp : declared.Perm declared') (hq : discovered.Perm discovered')
    (hv : ∀ d ∈ declared ++ discovered, d.Valid) (hr : ∀ d ∈ declared ++ discovered, d.IsRead)
    (hN : ∀ n, N n n)
    (hfirst : ∀ id d e alone, (entriesFor id declared).head? = some d →
      (entriesFor id declared').head? = some e → N (.redundant d alone) (.redundant e alone)) :
    Agree (Resolution.Alike N) (r.resolve declared discovered)
      (r.resolve declared' discovered') := by
  rw [resolve_eq, resolve_eq, checkPolicy_eq_of_perm hp, candidates_eq_of_perm hp hq]
  refine .bind_same fun _ => ?_
  refine (Agree.mapM fun id _ => settle_agree hp hq hv hr (hfirst id)).bind fun s s' hs => ?_
  exact conclude_agree hq (List.rel_filterMap (fun _ _ h => h) hs) hN

/-- With the same declarations in the same order no note differs. -/
theorem resolve_eq_of_perm (hq : discovered.Perm discovered')
    (hv : ∀ d ∈ declared ++ discovered, d.Valid) (hr : ∀ d ∈ declared ++ discovered, d.IsRead) :
    r.resolve declared discovered = r.resolve declared discovered' := by
  refine Agree.eq_of_agree ((resolve_agree (.refl _) hq hv hr (fun _ => rfl) ?_).mono
    fun _ _ h => h.eq)
  intro id d e alone hd he
  rw [Option.some.inj (hd.symm.trans he)]

/-- Neither the order of the descriptors matters nor that of the entries in each. -/
theorem resolve_flatten_eq_of_perm {descriptors sorted descriptors' : List (List Dependency)}
    (hentries : List.Forall₂ List.Perm descriptors sorted) (hfiles : sorted.Perm descriptors')
    (hv : ∀ d ∈ declared ++ descriptors.flatten, d.Valid)
    (hr : ∀ d ∈ declared ++ descriptors.flatten, d.IsRead) :
    r.resolve declared descriptors.flatten = r.resolve declared descriptors'.flatten :=
  resolve_eq_of_perm ((List.Perm.flatten_congr hentries).trans hfiles.flatten) hv hr

end Whole

/-- In another order of what is discovered a resolution is the same, whether it succeeds or fails.
In another order of what is declared it fails alike, or files the same dependencies and leaves the
same notes, except that a note of redundancy may name another declaration of its product. -/
theorem resolve_of_perm (hv : ∀ d ∈ declared ++ discovered, d.Valid)
    (hr : ∀ d ∈ declared ++ discovered, d.IsRead) :
    (∀ discovered', discovered.Perm discovered' →
      r.resolve declared discovered = r.resolve declared discovered') ∧
    ∀ declared', declared.Perm declared' →
      Agree (Resolution.Alike (Note.Alike declared)) (r.resolve declared discovered)
        (r.resolve declared' discovered) := by
  refine ⟨fun discovered' hq => resolve_eq_of_perm hq hv hr, fun declared' hp => ?_⟩
  refine resolve_agree hp (.refl _) hv hr .refl fun id d e alone hd he => ?_
  obtain ⟨hd, hdid⟩ := mem_entriesFor.1 (List.mem_of_mem_head? hd)
  obtain ⟨he, heid⟩ := mem_entriesFor.1 (List.mem_of_mem_head? he)
  exact .redundant hd (hp.mem_iff.2 he) (hdid.trans heid.symm) alone

theorem resolve_of_perm_declared_twice :
    let bar (minimum : Version) (maximum : Bound) : Dependency :=
      ⟨⟨"com.foo", "bar"⟩, minimum, maximum, none, false⟩
    let r : Resolver := ⟨⟨"com.example", "service"⟩, .empty, .empty⟩
    let a := bar (.orderable ⟨⟨1, 0, 0⟩, .release⟩) (.major 1)
    let b := bar (.orderable ⟨⟨1, 1, 0⟩, .release⟩) (.major 1)
    let c := bar (.orderable ⟨⟨1, 2, 0⟩, .release⟩) (.minor 1 3)
    let d := bar (.freeform ⟨⟨1, 2, 5⟩, "1.2.5-dirty"⟩) (.major 1)
    let alone : Dependency := { c with recommended := some c.minimum }
    r.resolve [a, b] [c, d] = r.resolve [a, b] [d, c] ∧
      Agree (Resolution.Alike (Note.Alike [a, b])) (r.resolve [a, b] [c, d])
        (r.resolve [b, a] [c, d]) ∧
      (r.resolve [a, b] [c, d]).map (·.report.notes) = .ok [.redundant a alone] ∧
      (r.resolve [b, a] [c, d]).map (·.report.notes) = .ok [.redundant b alone] := by
  intro bar r a b c d alone
  have hv : ∀ x ∈ [a, b] ++ [c, d], x.Valid := by decide +kernel
  have hr : ∀ x ∈ [a, b] ++ [c, d], x.IsRead := by
    intro x hx
    simp only [List.mem_append, List.mem_cons, List.not_mem_nil, or_false] at hx
    rcases hx with (rfl | rfl) | rfl | rfl
    · exact ⟨⟨"1.0.0", by decide +kernel⟩, nofun⟩
    · exact ⟨⟨"1.1.0", by decide +kernel⟩, nofun⟩
    · exact ⟨⟨"1.2.0", by decide +kernel⟩, nofun⟩
    · exact ⟨⟨"1.2.5-dirty", by decide +kernel⟩, nofun⟩
  have ha : (r.resolve [a, b] [c, d]).map (·.report.notes) = .ok [.redundant a alone] := by
    decide +kernel
  have hb : (r.resolve [b, a] [c, d]).map (·.report.notes) = .ok [.redundant b alone] := by
    decide +kernel
  obtain ⟨hdiscovered, hdeclared⟩ := resolve_of_perm (r := r) hv hr
  exact ⟨hdiscovered [d, c] (.swap d c []), hdeclared [b, a] (.swap b a []), ha, hb⟩

end Resolver

end ProductLock
