import Mathlib.Order.Bounds.Defs
import ProductLock.Proofs.Outcomes

/-!
# Searching in ascending order

A list in ascending order can be searched for the first key that passes a test, for the first that
a function answers to, or by taking a step for each key until one fails. Each time the search ends
at the least of the keys in question, which is how a result can be told without the list
(`exists_first_iff_isLeast`).
-/

namespace ProductLock

open Std (LawfulOrderOrd)

variable {κ β ε : Type} [Ord κ] [LE κ] [LawfulOrderOrd κ] {l : List κ}
  (hl : l.Pairwise fun a b => compare a b = .lt)

include hl

/-- The first key with a property is the least. -/
theorem exists_first_iff_isLeast {P : κ → Prop} {k : κ} :
    (∃ before after, l = before ++ k :: after ∧ (∀ x ∈ before, ¬ P x) ∧ P k) ↔
      IsLeast {x | x ∈ l ∧ P x} k := by
  refine ⟨fun h => ?_, fun h => ?_⟩
  · obtain ⟨before, after, rfl, hbefore, hk⟩ := h
    refine ⟨⟨List.mem_append_right before (.head after), hk⟩, fun x hx => ?_⟩
    obtain ⟨hx, hpx⟩ := hx
    rw [← LawfulOrderOrd.isLE_compare]
    rcases List.mem_append.1 hx with hx | hx
    · exact absurd hpx (hbefore x hx)
    · rcases List.mem_cons.1 hx with rfl | hx
      · exact Std.ReflOrd.isLE_rfl
      · have hlt := (List.pairwise_cons.1 (List.pairwise_append.1 hl).2.1).1 x hx
        rw [hlt]
        rfl
  · obtain ⟨⟨hk, hpk⟩, hle⟩ := h
    obtain ⟨before, after, rfl⟩ := List.append_of_mem hk
    refine ⟨before, after, rfl, fun x hx hpx => ?_, hpk⟩
    have hkx : k ≤ x := hle ⟨List.mem_append_left _ hx, hpx⟩
    have hlt := (List.pairwise_append.1 hl).2.2 x hx k (.head after)
    exact Std.OrientedCmp.not_lt_of_isLE ((LawfulOrderOrd.isLE_compare k x).2 hkx) hlt

theorem find?_eq_some_iff_isLeast {p : κ → Bool} {k : κ} :
    l.find? p = some k ↔ IsLeast {x | x ∈ l ∧ p x = true} k := by
  rw [List.find?_eq_some_iff_append, ← exists_first_iff_isLeast hl]
  simp [and_comm, and_left_comm]

theorem findSome?_eq_some_iff_isLeast {f : κ → Option β} {b : β} :
    l.findSome? f = some b ↔ ∃ k, IsLeast {x | x ∈ l ∧ ∃ b, f x = some b} k ∧ f k = some b := by
  have hnone (x : κ) : f x = none ↔ ¬ ∃ b, f x = some b := by
    rw [← Option.isSome_iff_exists, Bool.not_eq_true, Option.isSome_eq_false_iff,
      Option.isNone_iff_eq_none]
  simp only [List.findSome?_eq_some_iff, hnone, ← exists_first_iff_isLeast hl]
  refine ⟨fun h => ?_, fun h => ?_⟩
  · obtain ⟨before, k, after, hcons, hk, hbefore⟩ := h
    exact ⟨k, ⟨before, after, hcons, hbefore, b, hk⟩, hk⟩
  · obtain ⟨k, ⟨before, after, hcons, hbefore, _⟩, hk⟩ := h
    exact ⟨before, k, after, hcons, hk, hbefore⟩

theorem mapM_eq_error_iff_isLeast {f : κ → Except ε β} {e : ε} : l.mapM f = .error e ↔
    ∃ k, IsLeast {x | x ∈ l ∧ ∃ e, f x = .error e} k ∧ f k = .error e := by
  have hok (x : κ) : (∃ b, f x = .ok b) ↔ ¬ ∃ e, f x = .error e := by
    cases f x <;> simp
  simp only [mapM_eq_error_iff, hok, ← exists_first_iff_isLeast hl]
  refine ⟨fun h => ?_, fun h => ?_⟩
  · obtain ⟨before, k, after, hcons, hbefore, hk⟩ := h
    exact ⟨k, ⟨before, after, hcons, hbefore, e, hk⟩, hk⟩
  · obtain ⟨k, ⟨before, after, hcons, hbefore, _⟩, hk⟩ := h
    exact ⟨before, k, after, hcons, hbefore, hk⟩

/-- Of keys that an ascending list has one is the least. -/
theorem exists_isLeast {s : Set κ} (hs : s.Nonempty) (hsub : ∀ x ∈ s, x ∈ l) :
    ∃ k, IsLeast s k := by
  classical
  have hmem : {x | x ∈ l ∧ decide (x ∈ s) = true} = s := by
    refine Set.ext fun x => ?_
    show x ∈ l ∧ decide (x ∈ s) = true ↔ x ∈ s
    rw [decide_eq_true_iff]
    exact and_iff_right_of_imp (hsub x)
  obtain ⟨x, hx⟩ := hs
  cases hfind : l.find? fun x => decide (x ∈ s) with
  | none => exact absurd (decide_eq_true hx) (List.find?_eq_none.1 hfind x (hsub x hx))
  | some k =>
      rw [find?_eq_some_iff_isLeast hl, hmem] at hfind
      exact ⟨k, hfind⟩

end ProductLock
