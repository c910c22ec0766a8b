import ProductLock.Proofs.MergeExtension
import ProductLock.Proofs.ResolutionRedundancy

/-!
# The notes of a resolution

A resolution notes that a declaration is redundant when two merges come out equal, that of all
entries for the product and that of the discovered ones alone. This file says what that comes to in
terms of the entries: the declared ones ask for no more than the discovered ones do
(`exists_redundancy_iff`).

Settling a candidate leaves one note at most, and that is about the candidate. So the notes of
redundancy stand in the order of the candidates, which is that of their ids, and no product has two
of them (`notes_eq`, `filter_notes_eq_singleton`). The notes on optional products that nothing
recommends come after all of them.
-/

namespace ProductLock

/-- The note calls a declaration of the product redundant. -/
def Note.isRedundancyOf (id : ProductId) : Note → Bool
  | .redundant declared _ => declared.id = id
  | .unusedOptional _ => false

/-- The product that the note is about. -/
def Note.id : Note → ProductId
  | .redundant declared _ => declared.id
  | .unusedOptional id => id

theorem Note.isRedundancyOf_iff {n : Note} {id : ProductId} :
    n.isRedundancyOf id = true ↔ ∃ d alone, n = .redundant d alone ∧ d.id = id := by
  cases n <;> simp [isRedundancyOf]

theorem Note.id_of_isRedundancyOf {n : Note} {id : ProductId} (h : n.isRedundancyOf id = true) :
    n.id = id := by
  obtain ⟨d, alone, rfl, rfl⟩ := isRedundancyOf_iff.1 h
  rfl

namespace Resolver

open Dependency

variable {r : Resolver} {declared discovered : List Dependency} {id : ProductId} {d : Dependency}

/-- What the dependencies merge into. -/
def MergesTo (ds : List Dependency) (m : Dependency) : Prop :=
  ∃ first rest, ds = first :: rest ∧ mergeAll first rest = .ok m

section Resolved

variable {res : Resolution} (h : r.resolve declared discovered = .ok res)

include h

/-- The notes of redundancy come first, in the order of their products. -/
theorem notes_eq : ∃ redundancies, res.report.notes =
      redundancies ++ (r.unusedOptional discovered).map .unusedOptional ∧
    (∀ n ∈ redundancies, ∃ d alone, n = .redundant d alone) ∧
    redundancies.Pairwise fun m n => compare m.id n.id = .lt := by
  obtain ⟨_, settled, hs, _, rfl⟩ := resolve_eq_ok_iff.1 h
  have hnote {x : Dependency × Option Note} (hx : x ∈ settled) {n : Note} (hn : x.2 = some n) :
      ∃ d alone, n = .redundant d alone ∧ d.id = x.1.id := by
    have hsettles := settles_of_mem hs hx
    rw [hn] at hsettles
    exact hsettles.redundant
  refine ⟨settled.filterMap Prod.snd, rfl, fun n hn => ?_, ?_⟩
  · obtain ⟨x, hx, hn⟩ := List.mem_filterMap.1 hn
    obtain ⟨d, alone, rfl, _⟩ := hnote hx hn
    exact ⟨d, alone, rfl⟩
  · have hasc : settled.Pairwise fun x y => compare x.1.id y.1.id = .lt := by
      have hids : ((settled.map Prod.fst).map Dependency.id).Pairwise
          fun a b => compare a b = .lt := by
        rw [map_id_settled hs]
        exact Catalog.ascending _
      rw [List.pairwise_map, List.pairwise_map] at hids
      exact hids
    refine List.pairwise_filterMap.2 (hasc.imp_of_mem fun hx hy hlt m hm n hn => ?_)
    obtain ⟨d, alone, rfl, hd⟩ := hnote hx hm
    obtain ⟨d', alone', rfl, hd'⟩ := hnote hy hn
    show compare d.id d'.id = .lt
    rwa [hd, hd']

/-- The first declaration of a product is noted as redundant when the discovered dependencies alone
merge into what all entries merge into. -/
theorem redundant_mem_notes_iff_merged {alone : Dependency} :
    .redundant d alone ∈ res.report.notes ∧ d.id = id ↔ ∃ own recommended more,
      entriesFor id declared = d :: own ∧ entriesFor id discovered = recommended :: more ∧
        mergeAll recommended more = .ok alone ∧
        mergeAll d (own ++ recommended :: more) = .ok alone := by
  have hp := (resolve_eq_ok_iff.1 h).1
  have hmem {own : List Dependency} (hown : entriesFor id declared = d :: own) :
      d ∈ declared ∧ d.id = id := by
    rw [← mem_entriesFor, hown]
    exact .head own
  rw [redundant_mem_notes_iff h]
  constructor
  · rintro ⟨⟨id', hc, x, hx⟩, hid⟩
    obtain ⟨_, _, hd, hdid⟩ := hx.redundant
    cases hd
    obtain rfl : id' = id := hdid.symm.trans hid
    obtain ⟨own, recommended, more, hown, hothers, ha, hm, _⟩ := settles_redundant_iff.1 hx
    rw [entriesFor_recommendations ((mem_candidates_of_checkPolicy hp).1 hc).1] at hothers
    exact ⟨own, recommended, more, hown, hothers, ha, hm⟩
  · rintro ⟨own, recommended, more, hown, hothers, ha, hm⟩
    obtain ⟨hd, rfl⟩ := hmem hown
    have hne : d.id ≠ r.product := (checkPolicy_eq_ok_iff.1 hp).1 d hd
    rw [← entriesFor_recommendations hne] at hothers
    exact ⟨⟨d.id, (mem_candidates_of_checkPolicy hp).2 ⟨hne, .inl ⟨d, hd, rfl⟩⟩, _,
      settles_redundant_iff.2 ⟨own, recommended, more, hown, hothers, ha, hm, rfl⟩⟩, rfl⟩

/-- No product has two notes of redundancy. -/
theorem filter_notes_eq_singleton {n : Note} (hn : n ∈ res.report.notes)
    (hid : n.isRedundancyOf id = true) : res.report.notes.filter (·.isRedundancyOf id) = [n] := by
  obtain ⟨redundancies, hnotes, _, hascending⟩ := notes_eq h
  let catalog : Catalog Note.id := ⟨redundancies, hascending⟩
  have hunused : ((r.unusedOptional discovered).map Note.unusedOptional).filter
      (·.isRedundancyOf id) = [] := by
    refine List.filter_eq_nil_iff.2 fun x hx => ?_
    obtain ⟨_, _, rfl⟩ := List.mem_map.1 hx
    exact Bool.false_ne_true
  have hfilter : res.report.notes.filter (·.isRedundancyOf id) =
      catalog.toList.filter (·.isRedundancyOf id) := by
    rw [hnotes, List.filter_append, hunused, List.append_nil]
  rw [hfilter]
  refine eq_singleton_of_nodup (catalog.nodup.filter _) fun x => ?_
  have hn : n ∈ catalog.toList.filter (·.isRedundancyOf id) := by
    rw [← hfilter]
    exact List.mem_filter.2 ⟨hn, hid⟩
  constructor
  · intro hx
    obtain ⟨hx, hxid⟩ := List.mem_filter.1 hx
    refine Catalog.eq_of_key_eq (s := catalog) hx (List.mem_filter.1 hn).1 ?_
    show x.id = n.id
    rw [Note.id_of_isRedundancyOf hxid, Note.id_of_isRedundancyOf hid]
  · rintro rfl
    exact hn

/-- Where all minimums have a place in the order, a declaration is redundant exactly when what is
declared asks for no more than what is discovered. -/
theorem exists_redundancy_iff
    (ho : ∀ d ∈ declared ++ discovered, d.id = id → d.minimum.isOrderable = true) :
    (∃ n ∈ res.report.notes, n.isRedundancyOf id = true) ↔
      (∃ d ∈ declared, d.id = id) ∧ (∃ d ∈ discovered, d.id = id) ∧
        ∃ alone, MergesTo (entriesFor id discovered) alone ∧
          AsksNoMore (entriesFor id declared) (entriesFor id discovered) alone := by
  have hp := (resolve_eq_ok_iff.1 h).1
  have ho : ∀ d ∈ entriesFor id declared ++ entriesFor id discovered,
      d.minimum.isOrderable = true := by
    intro d hd
    rw [← entriesFor_append, mem_entriesFor] at hd
    exact ho d hd.1 hd.2
  constructor
  · intro hn
    obtain ⟨n, hn, hid⟩ := hn
    obtain ⟨d, alone, rfl, hdid⟩ := Note.isRedundancyOf_iff.1 hid
    obtain ⟨own, recommended, more, hown, hothers, ha, hm⟩ :=
      (redundant_mem_notes_iff_merged h).1 ⟨hn, hdid⟩
    rw [exists_id_iff, exists_id_iff]
    rw [hown, hothers] at ho ⊢
    exact ⟨List.cons_ne_nil d own, List.cons_ne_nil recommended more, alone,
      ⟨recommended, more, rfl, ha⟩, (mergeAll_eq_iff_asksNoMore ho hm ha).1 rfl⟩
  · intro hmore
    obtain ⟨⟨e, he, hid⟩, _, alone, ⟨recommended, more, hothers, ha⟩, hmore⟩ := hmore
    have hne : id ≠ r.product := hid ▸ (checkPolicy_eq_ok_iff.1 hp).1 e he
    obtain ⟨d, own, hown⟩ :=
      List.exists_cons_of_ne_nil (exists_id_iff.1 ⟨e, he, hid⟩)
    obtain ⟨x, note, first, rest, m, hcons, hm, _⟩ := settles_of_resolve h
      ((mem_candidates_of_checkPolicy hp).2 ⟨hne, .inl ⟨e, he, hid⟩⟩)
    rw [entriesFor_recommendations hne, hown, hothers, List.cons_append] at hcons
    obtain ⟨rfl, rfl⟩ := List.cons.inj hcons
    rw [hown, hothers] at ho hmore
    obtain rfl := (mergeAll_eq_iff_asksNoMore ho hm ha).2 hmore
    have hn := (redundant_mem_notes_iff_merged h).2 ⟨own, recommended, more, hown, hothers, ha, hm⟩
    exact ⟨_, hn.1, Note.isRedundancyOf_iff.2 ⟨_, _, rfl, hn.2⟩⟩

end Resolved

/-- A product whose minimums are all orderable is noted as redundantly declared just when it is both
declared and discovered and its declarations ask for no more than what is discovered of it. A
product has one such note at most, which names its first declaration and the merge of what is
discovered, and these notes stand in the order of their products before those on optional products
that nothing recommends. -/
theorem redundancy_notes {res : Resolution} (h : r.resolve declared discovered = .ok res) :
    (∀ id, (∀ d ∈ declared ++ discovered, d.id = id → d.minimum.isOrderable = true) →
      ((∃ n ∈ res.report.notes, n.isRedundancyOf id = true) ↔
        (∃ d ∈ declared, d.id = id) ∧ (∃ d ∈ discovered, d.id = id) ∧
          ∃ alone, MergesTo (entriesFor id discovered) alone ∧
            AsksNoMore (entriesFor id declared) (entriesFor id discovered) alone)) ∧
    (∀ id, (∃ n ∈ res.report.notes, n.isRedundancyOf id = true) → ∃ first alone,
      (entriesFor id declared).head? = some first ∧ MergesTo (entriesFor id discovered) alone ∧
        res.report.notes.filter (·.isRedundancyOf id) = [.redundant first alone]) ∧
    ∃ redundancies, ∃ unused : List ProductId,
      res.report.notes = redundancies ++ unused.map .unusedOptional ∧
      (∀ n ∈ redundancies, ∃ d alone, n = .redundant d alone) ∧
      redundancies.Pairwise fun m n => compare m.id n.id = .lt := by
  refine ⟨fun id ho => exists_redundancy_iff h ho, fun id hn => ?_, ?_⟩
  · obtain ⟨n, hn, hid⟩ := hn
    have hsingle := filter_notes_eq_singleton h hn hid
    obtain ⟨d, alone, rfl, hdid⟩ := Note.isRedundancyOf_iff.1 hid
    obtain ⟨own, recommended, more, hown, hothers, ha, _⟩ :=
      (redundant_mem_notes_iff_merged h).1 ⟨hn, hdid⟩
    refine ⟨d, alone, ?_, ⟨recommended, more, hothers, ha⟩, hsingle⟩
    rw [hown, List.head?_cons]
  · obtain ⟨redundancies, hnotes, hall, hascending⟩ := notes_eq h
    exact ⟨redundancies, _, hnotes, hall, hascending⟩

/-- Two declarations of `bar` ask for no more than two recommendations of it, although one of them
recommends a version that is in range. The minimum of `baz` is higher than the one discovered. -/
theorem redundancy_notes_two_products :
    let release (a b c : UInt32) : Version := .orderable ⟨⟨a, b, c⟩, .release⟩
    let bar (minimum : Version) (maximum : Bound) (recommended : Option Version) : Dependency :=
      ⟨⟨"com.foo", "bar"⟩, minimum, maximum, recommended, true⟩
    let baz (minimum : Version) : Dependency :=
      ⟨⟨"com.foo", "baz"⟩, minimum, .major 2, none, false⟩
    let r : Resolver := ⟨⟨"com.example", "service"⟩, .empty, .ofList [⟨"com.foo", "gone"⟩]⟩
    let a := bar (release 1 0 0) (.major 1) (some (release 1 2 5))
    let b := baz (release 2 1 0)
    let declared := [b, a, bar (release 1 1 0) .any none]
    let discovered := [bar (release 1 2 0) (.major 1) none, baz (release 2 0 0),
      bar (.orderable ⟨⟨1, 2, 0⟩, .candidate 1 none⟩) (.minor 1 3) (some (release 1 3 0))]
    let alone : Dependency :=
      ⟨⟨"com.foo", "bar"⟩, release 1 2 0, .minor 1 3, some (release 1 3 0), false⟩
    ∃ res, r.resolve declared discovered = .ok res ∧
      (∃ alone, MergesTo (entriesFor a.id discovered) alone ∧
        AsksNoMore (entriesFor a.id declared) (entriesFor a.id discovered) alone) ∧
      (¬ ∃ alone, MergesTo (entriesFor b.id discovered) alone ∧
        AsksNoMore (entriesFor b.id declared) (entriesFor b.id discovered) alone) ∧
      (∃ first alone, (entriesFor a.id declared).head? = some first ∧
        MergesTo (entriesFor a.id discovered) alone ∧
        res.report.notes.filter (·.isRedundancyOf a.id) = [.redundant first alone]) ∧
      res.report.notes = [.redundant a alone, .unusedOptional ⟨"com.foo", "gone"⟩] := by
  intro release bar baz r a b declared discovered alone
  have hnotes : (r.resolve declared discovered).toOption.map (·.report.notes) =
    some [.redundant a alone, .unusedOptional ⟨"com.foo", "gone"⟩] := by decide +kernel
  obtain ⟨res, h, hnotes⟩ := exists_ok_of_map_eq hnotes
  obtain ⟨hiff, hone, _⟩ := redundancy_notes h
  have ho (id : ProductId) :
      ∀ d ∈ declared ++ discovered, d.id = id → d.minimum.isOrderable = true := by
    have hall : ∀ d ∈ declared ++ discovered, d.minimum.isOrderable = true := by decide
    exact fun d hd _ => hall d hd
  have hbar : ∃ n ∈ res.report.notes, n.isRedundancyOf a.id = true := by
    rw [hnotes]
    exact ⟨.redundant a alone, .head _, by decide⟩
  have hbaz : ¬ ∃ n ∈ res.report.notes, n.isRedundancyOf b.id = true := by
    rw [hnotes]
    decide
  refine ⟨res, h, ((hiff _ (ho _)).1 hbar).2.2, fun hmore => hbaz ?_, hone a.id hbar, hnotes⟩
  exact (hiff _ (ho _)).2 ⟨⟨b, by decide, rfl⟩, ⟨baz (release 2 0 0), by decide, rfl⟩, hmore⟩

end Resolver

end ProductLock
