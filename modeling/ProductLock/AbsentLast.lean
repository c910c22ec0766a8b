/-!
# What is absent comes last

In two places an optional item is compared with another so that a missing one stands above every
item that is there: an open number of a bound counts as infinity, and a tag stands above the builds
past it. Such a comparison is as good an order as that of the items.
-/

namespace ProductLock

open Std (TransCmp TransOrd LawfulEqOrd)

variable {α β : Type} [Ord β]

def compareLast : Option β → Option β → Ordering
  | none, none => .eq
  | some _, none => .lt
  | none, some _ => .gt
  | some a, some b => compare a b

/-- Compares two items by a part that may be missing. -/
def compareLastOn (part? : α → Option β) (a b : α) : Ordering :=
  compareLast (part? a) (part? b)

theorem compareLast_eq_eq_iff [LawfulEqOrd β] {a b : Option β} :
    compareLast a b = .eq ↔ a = b := by
  cases a <;> cases b <;> simp [compareLast]

instance [TransOrd β] : TransCmp (compareLast : Option β → Option β → Ordering) where
  eq_swap {a b} := by
    match a, b with
    | none, none | none, some _ | some _, none => rfl
    | some _, some _ => exact Std.OrientedOrd.eq_swap
  isLE_trans {a b c} h₁ h₂ := by
    match a, b, c with
    | none, _, none | some _, _, none => rfl
    | _, none, some _ => exact absurd h₂ (by simp [compareLast])
    | none, some _, some _ => exact absurd h₁ (by simp [compareLast])
    | some a, some b, some c => exact TransOrd.isLE_trans h₁ h₂

instance [TransOrd β] (part? : α → Option β) : TransCmp (compareLastOn part?) where
  eq_swap {a b} := @Std.OrientedCmp.eq_swap _ compareLast _ (part? a) (part? b)
  isLE_trans {a b c} := @TransCmp.isLE_trans _ compareLast _ (part? a) (part? b) (part? c)

end ProductLock
