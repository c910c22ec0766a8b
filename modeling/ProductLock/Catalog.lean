/-!
# Catalogs

A catalog files items under a key: at most one item per key, listed in strictly ascending key
order. The order is part of the type, so a catalog is determined by what it answers to `find?`, and
anything printed from `toList` comes out in key order without being sorted again. Filing an item
under a key that is taken replaces the item that was there.

Insertion is a single pass that replaces on collision. That is what makes the laws of `find?` and
of membership hold with no side condition on the list.
-/

namespace ProductLock

open Std (TransOrd LawfulEqOrd)

/-- Items of type `α`, filed under `key`. -/
@[ext]
structure Catalog {α κ : Type} [Ord κ] (key : α → κ) where
  toList : List α
  ascending : toList.Pairwise fun a b => compare (key a) (key b) = .lt

namespace Catalog

variable {α κ : Type} [Ord κ] {key : α → κ}

instance [DecidableEq α] : DecidableEq (Catalog key) := fun s t =>
  decidable_of_iff (s.toList = t.toList) ⟨Catalog.ext, congrArg toList⟩

def empty : Catalog key := ⟨[], .nil⟩

instance : EmptyCollection (Catalog key) := ⟨empty⟩

instance : Inhabited (Catalog key) := ⟨empty⟩

def size (s : Catalog key) : Nat := s.toList.length

def isEmpty (s : Catalog key) : Bool := s.toList.isEmpty

def find? (s : Catalog key) (k : κ) : Option α :=
  s.toList.find? fun a => compare (key a) k == .eq

def contains (s : Catalog key) (k : κ) : Bool :=
  s.toList.any fun a => compare (key a) k == .eq

@[simp] theorem find?_empty (k : κ) : (empty : Catalog key).find? k = none := rfl

/-- Files `a` in an ascending list, in place of the item that has its key, if any. -/
def place (key : α → κ) (a : α) : List α → List α
  | [] => [a]
  | b :: l =>
      match compare (key a) (key b) with
      | .lt => a :: b :: l
      | .eq => a :: l
      | .gt => b :: place key a l

theorem mem_of_mem_place {a x : α} {l : List α} (h : x ∈ place key a l) : x = a ∨ x ∈ l := by
  induction l with
  | nil => simpa [place] using h
  | cons b l ih =>
      simp only [place] at h
      split at h <;> grind

variable [TransOrd κ]

theorem place_ascending {a : α} {l : List α}
    (h : l.Pairwise fun a b => compare (key a) (key b) = .lt) :
    (place key a l).Pairwise fun a b => compare (key a) (key b) = .lt := by
  induction l with
  | nil => simp [place]
  | cons b l ih =>
      obtain ⟨hb, hl⟩ := List.pairwise_cons.1 h
      simp only [place]
      split
      next hab =>
        refine List.pairwise_cons.2 ⟨fun x hx => ?_, h⟩
        rcases List.mem_cons.1 hx with rfl | hx
        · exact hab
        · exact Std.TransCmp.lt_trans hab (hb x hx)
      next hab =>
        exact List.pairwise_cons.2
          ⟨fun x hx => Std.TransCmp.lt_of_eq_of_lt hab (hb x hx), hl⟩
      next hab =>
        refine List.pairwise_cons.2 ⟨fun x hx => ?_, ih hl⟩
        rcases mem_of_mem_place hx with rfl | hx
        · exact Std.OrientedCmp.lt_of_gt hab
        · exact hb x hx

/-- Files `a`, in place of the item that has its key, if any. -/
def insert (s : Catalog key) (a : α) : Catalog key :=
  ⟨place key a s.toList, place_ascending s.ascending⟩

/-- Files the items one after another, so that of two with one key the later stays. -/
def ofList (l : List α) : Catalog key := l.foldl insert empty

omit [TransOrd κ] in
theorem filter_ascending {p : α → Bool} (s : Catalog key) :
    (s.toList.filter p).Pairwise fun a b => compare (key a) (key b) = .lt :=
  s.ascending.sublist List.filter_sublist

def filter (p : α → Bool) (s : Catalog key) : Catalog key :=
  ⟨s.toList.filter p, filter_ascending s⟩

/-- Changes every item, leaving each under its key. -/
def map (f : α → α) (hf : ∀ a, key (f a) = key a) (s : Catalog key) : Catalog key :=
  ⟨s.toList.map f, List.pairwise_map.2 (s.ascending.imp fun h => by rwa [hf, hf])⟩

/-! ## What the catalog answers after a change -/

theorem find?_insert_self (s : Catalog key) (a : α) : (s.insert a).find? (key a) = some a := by
  show (place key a s.toList).find? _ = _
  induction s.toList with
  | nil => simp [place]
  | cons b l ih =>
      simp only [place]
      split
      next => simp
      next => simp
      next h =>
        have : compare (key b) (key a) = .lt := Std.OrientedCmp.lt_of_gt h
        simpa [List.find?_cons, this] using ih

theorem find?_insert_ne (s : Catalog key) {a : α} {k : κ} (hk : compare (key a) k ≠ .eq) :
    (s.insert a).find? k = s.find? k := by
  show (place key a s.toList).find? _ = s.toList.find? _
  have hk' : (compare (key a) k == .eq) = false := by simpa using hk
  induction s.toList with
  | nil => simp [place, hk']
  | cons b l ih =>
      simp only [place]
      split
      next => simp [List.find?_cons, hk']
      next h =>
        have : compare (key b) k ≠ .eq := fun hb => hk (Std.TransCmp.eq_trans h hb)
        have : (compare (key b) k == .eq) = false := by simpa using this
        simp [hk', this]
      next => simp only [List.find?_cons, ih]

end Catalog

end ProductLock
