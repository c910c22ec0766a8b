import Mathlib.Data.List.Nodup
import ProductLock.Catalog

/-!
# What a catalog holds

A catalog is determined by its items: they are listed in strictly ascending key order, so two
catalogs with the same items list them alike (`ext_mem`). Everything else about building one is
then a matter of membership. Filing an item adds it and takes out the one that had its key;
filing a list whose keys differ adds all of it, in whatever order the list came
(`ofList_eq_of_perm`); and a catalog whose items are their own keys holds just what was filed.

The keys are compared by an order in which only equal keys compare equal, so that "filed under this
key" can be said with an equation.
-/

namespace ProductLock

theorem eq_singleton_of_nodup {α : Type} {a : α} {l : List α} (hl : l.Nodup)
    (h : ∀ x, x ∈ l ↔ x = a) : l = [a] := by
  refine List.perm_singleton.1 ((List.perm_ext_iff_of_nodup hl (List.nodup_singleton a)).2 ?_)
  simpa using h

namespace Catalog

open Std (TransOrd LawfulEqOrd)

variable {α κ : Type} [Ord κ] [LawfulEqOrd κ] {key : α → κ}

theorem nodup_keys (s : Catalog key) : (s.toList.map key).Nodup := by
  refine List.pairwise_map.2 (s.ascending.imp ?_)
  intro a b h he
  rw [he, Std.ReflOrd.compare_self] at h
  exact absurd h (by decide)

theorem nodup (s : Catalog key) : s.toList.Nodup := .of_map key s.nodup_keys

/-- No two items share a key. -/
theorem eq_of_key_eq {s : Catalog key} {a b : α} (ha : a ∈ s.toList) (hb : b ∈ s.toList)
    (h : key a = key b) : a = b :=
  List.inj_on_of_nodup_map s.nodup_keys ha hb h

theorem find?_eq_some_iff {s : Catalog key} {k : κ} {a : α} :
    s.find? k = some a ↔ a ∈ s.toList ∧ key a = k := by
  refine ⟨fun h => ⟨List.mem_of_find?_eq_some h, ?_⟩, fun h => ?_⟩
  · have hk := List.find?_some h
    simpa using hk
  · obtain ⟨ha, rfl⟩ := h
    cases h : s.find? (key a) with
    | none =>
        have := List.find?_eq_none.1 h a ha
        simp at this
    | some b =>
        have hb : key b = key a := by simpa using List.find?_some h
        rw [eq_of_key_eq (List.mem_of_find?_eq_some h) ha hb]

theorem contains_iff {s : Catalog key} {k : κ} :
    s.contains k = true ↔ ∃ a ∈ s.toList, key a = k := by
  simp [contains]

theorem mem_toList_iff_contains {s : Catalog fun k : κ => k} {k : κ} :
    k ∈ s.toList ↔ s.contains k = true := by
  simp [contains_iff]

omit [LawfulEqOrd κ] in
theorem contains_eq_isSome_find? (s : Catalog key) (k : κ) :
    s.contains k = (s.find? k).isSome := List.isSome_find?.symm

omit [LawfulEqOrd κ] in
theorem find?_map {f : α → α} (hf : ∀ a, key (f a) = key a) (s : Catalog key) (k : κ) :
    (s.map f hf).find? k = (s.find? k).map f := by
  refine List.find?_map.trans ?_
  simp only [Function.comp_def, hf]
  rfl

variable [TransOrd κ]

theorem ext_mem {s t : Catalog key} (h : ∀ a, a ∈ s.toList ↔ a ∈ t.toList) : s = t := by
  have hp : s.toList.Perm t.toList := (List.perm_ext_iff_of_nodup s.nodup t.nodup).2 h
  refine Catalog.ext (hp.eq_of_pairwise ?_ s.ascending t.ascending)
  intro a b _ _ hab hba
  exact absurd hba (Std.OrientedCmp.not_lt_of_lt hab)

theorem ext_find? {s t : Catalog key} (h : ∀ k, s.find? k = t.find? k) : s = t := by
  have hmem (u : Catalog key) (a : α) : a ∈ u.toList ↔ u.find? (key a) = some a := by
    rw [find?_eq_some_iff, and_iff_left rfl]
  refine ext_mem fun a => ?_
  rw [hmem, hmem, h]

/-! ## Filing items -/

theorem mem_insert {s : Catalog key} {a x : α} :
    x ∈ (s.insert a).toList ↔ x = a ∨ x ∈ s.toList ∧ key x ≠ key a := by
  have hx (t : Catalog key) : x ∈ t.toList ↔ t.find? (key x) = some x := by
    rw [find?_eq_some_iff]
    exact ⟨fun h => ⟨h, rfl⟩, And.left⟩
  by_cases hk : key x = key a
  · rw [hx, hk, find?_insert_self, Option.some_inj, eq_comm]
    simp
  · have hne : compare (key a) (key x) ≠ .eq := fun h => hk (LawfulEqOrd.eq_of_compare h).symm
    rw [hx, find?_insert_ne s hne, ← hx]
    refine ⟨fun h => .inr ⟨h, hk⟩, fun h => ?_⟩
    rcases h with rfl | h
    · exact absurd rfl hk
    · exact h.1

theorem contains_insert {s : Catalog key} {a : α} {k : κ} :
    (s.insert a).contains k = true ↔ key a = k ∨ s.contains k = true := by
  simp only [contains_iff, mem_insert]
  refine ⟨fun h => ?_, fun h => ?_⟩
  · obtain ⟨x, rfl | ⟨hx, _⟩, rfl⟩ := h
    · exact .inl rfl
    · exact .inr ⟨x, hx, rfl⟩
  · rcases h with rfl | ⟨x, hx, rfl⟩
    · exact ⟨a, .inl rfl, rfl⟩
    · by_cases h : key x = key a
      · exact ⟨a, .inl rfl, h.symm⟩
      · exact ⟨x, .inr ⟨hx, h⟩, rfl⟩

theorem contains_foldl_insert {l : List α} {s : Catalog key} {k : κ} :
    (l.foldl insert s).contains k = true ↔ s.contains k = true ∨ ∃ a ∈ l, key a = k := by
  induction l generalizing s with
  | nil => simp
  | cons a l ih =>
      simp only [List.foldl_cons, ih, contains_insert, List.mem_cons, exists_eq_or_imp, or_assoc,
        or_left_comm]

theorem contains_ofList {l : List α} {k : κ} :
    (ofList l : Catalog key).contains k = true ↔ ∃ a ∈ l, key a = k := by
  rw [ofList, contains_foldl_insert]
  simp [contains_iff, empty]

/-- Filing items under keys that differ among themselves, and from those that are taken, only
adds to a catalog. -/
theorem mem_foldl_insert {l : List α} {s : Catalog key} {x : α} (hl : (l.map key).Nodup)
    (hs : ∀ a ∈ l, s.contains (key a) = false) :
    x ∈ (l.foldl insert s).toList ↔ x ∈ s.toList ∨ x ∈ l := by
  induction l generalizing s with
  | nil => simp
  | cons a l ih =>
      obtain ⟨hal, hl⟩ := List.nodup_cons.1 hl
      have hs' : ∀ b ∈ l, (s.insert a).contains (key b) = false := by
        intro b hb
        rw [Bool.eq_false_iff, Ne, contains_insert, not_or]
        refine ⟨fun h => hal ?_, by simp [hs b (.tail a hb)]⟩
        exact h ▸ List.mem_map_of_mem hb
      have hx : x ∈ s.toList → key x ≠ key a := by
        intro h he
        have := contains_iff.2 ⟨x, h, he⟩
        rw [hs a (.head l)] at this
        exact absurd this (by decide)
      rw [List.foldl_cons, ih hl hs', mem_insert, List.mem_cons]
      grind

/-- Of the items that are filed under one key, the last is found. -/
theorem find?_foldl_insert {l : List α} {s : Catalog key} {k : κ} :
    (l.foldl insert s).find? k =
      (l.reverse.find? fun a => compare (key a) k == .eq).or (s.find? k) := by
  induction l generalizing s with
  | nil => rfl
  | cons a l ih =>
      rw [List.foldl_cons, ih, List.reverse_cons, List.find?_append, Option.or_assoc]
      congr 1
      by_cases hk : key a = k
      · subst hk
        rw [find?_insert_self, List.find?_singleton, Std.ReflOrd.compare_self]
        rfl
      · have hne : compare (key a) k ≠ .eq := fun h => hk (LawfulEqOrd.eq_of_compare h)
        rw [find?_insert_ne s hne, List.find?_singleton, beq_false_of_ne hne]
        rfl

theorem mem_ofList_of_nodup {l : List α} {x : α} (hl : (l.map key).Nodup) :
    x ∈ (ofList l : Catalog key).toList ↔ x ∈ l := by
  rw [ofList, mem_foldl_insert hl fun _ _ => rfl]
  simp [empty]

/-- Items whose keys differ are all filed, in the order of the keys. -/
theorem toList_ofList_perm {l : List α} (hl : (l.map key).Nodup) :
    (ofList l : Catalog key).toList.Perm l :=
  (List.perm_ext_iff_of_nodup (nodup _) (.of_map key hl)).2 fun _ => mem_ofList_of_nodup hl

/-- The order in which the items of a catalog are filed does not matter. -/
theorem ofList_eq_of_perm {s : Catalog key} {l : List α} (h : l.Perm s.toList) : ofList l = s := by
  have hl : (l.map key).Nodup := (h.map key).nodup_iff.2 s.nodup_keys
  exact ext_mem fun a => (mem_ofList_of_nodup hl).trans h.mem_iff

/-! ## Catalogs of keys -/

theorem mem_toList_ofList {l : List κ} {k : κ} :
    k ∈ (ofList l : Catalog fun k : κ => k).toList ↔ k ∈ l := by
  rw [mem_toList_iff_contains, contains_ofList]
  simp

theorem ofList_congr {l m : List κ} (h : ∀ k, k ∈ l ↔ k ∈ m) :
    (ofList l : Catalog fun k : κ => k) = ofList m :=
  ext_mem fun k => by rw [mem_toList_ofList, mem_toList_ofList, h k]

end Catalog

end ProductLock
