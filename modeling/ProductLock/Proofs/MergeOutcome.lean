import ProductLock.Proofs.BoundGrammar
import ProductLock.Proofs.MergeSuccess

/-!
# How a merge ends

A merge on one product ends in one of four ways, and which of them it is depends on two values only,
the minimum and the maximum that the merge takes. This file says what these are without a word on
how they are found (`TakesMinimum`, `TakesMaximum`), and tells the four ways apart by them: there is
no minimum to take, the maximum does not admit it, the two are the same release, or nothing is
wrong.

That nothing else can be wrong is a matter of texts. What was merged is checked by the rules for any
dependency, and the only one it can still break forbids a minimum that reads like the maximum. A
whole release reads like the bound that pins it. No other version reads like a bound, since an `x`
where a version has its third number makes a text no version at all, and a freeform version that
reads like a release would have been read as one (`Version.CanArise.text_eq_text_bound_iff`). This
is why a freeform version is asked to come from a text here, while an orderable one may be put
together from any parts.
-/

namespace ProductLock

/-- An orderable version may be put together from any parts, but a freeform one is as it was read.
This leaves out a freeform version whose numbers were changed after that, while its text was not. -/
def Version.CanArise (v : Version) : Prop := v.isOrderable = false → v.IsRead

/-- Only a whole release reads like a bound, and only like the bound that pins it. -/
theorem Version.CanArise.text_eq_text_bound_iff {v : Version} {b : Bound} (hv : v.CanArise) :
    v.text = b.text ↔ ∃ r, v = .orderable ⟨r, .release⟩ ∧ b = .exact r := by
  cases v with
  | orderable v =>
      have h : (Version.orderable v).text = b.text ↔ v.suffix = .release ∧ b = .exact v.base :=
        OrderableVersion.text_eq_text_bound_iff
      rw [h]
      constructor
      · intro h
        obtain ⟨hs, hb⟩ := h
        exact ⟨v.base, by rw [← hs], hb⟩
      · intro h
        obtain ⟨r, ⟨⟩, hb⟩ := h
        exact ⟨rfl, hb⟩
  | freeform v =>
      refine iff_of_false (fun h => ?_) nofun
      have hread := (hv rfl).read?_text
      rw [h] at hread
      exact Bound.read?_text_ne_freeform b v hread

namespace Dependency

/-- The minimum that a merge takes: the highest that has a place in the order or, where none has
one, the one that all dependencies have. -/
inductive TakesMinimum (ds : List Dependency) : Version → Prop
  | highest {v : OrderableVersion} (mem : ∃ e ∈ ds, e.minimum = .orderable v)
      (le : ∀ e ∈ ds, ∀ u, e.minimum = .orderable u → u ≤ v) : TakesMinimum ds (.orderable v)
  | common {v : FreeformVersion} (eq : ∀ e ∈ ds, e.minimum = .freeform v) :
      TakesMinimum ds (.freeform v)

/-- The maximum that a merge takes, the tightest one. -/
structure TakesMaximum (ds : List Dependency) (b : Bound) : Prop where
  mem : ∃ e ∈ ds, e.maximum = b
  le : ∀ e ∈ ds, b ≤ e.maximum

variable {d : Dependency} {ds : List Dependency} {v w : Version} {b : Bound}

theorem takesMaximum_iff : TakesMaximum (d :: ds) b ↔ (upper d ds).maximum = b := by
  constructor
  · intro h
    obtain ⟨⟨e, he, rfl⟩, hle⟩ := h
    exact Std.le_antisymm (upper_maximum_le he) (hle _ upper_mem)
  · rintro rfl
    exact ⟨⟨_, upper_mem, rfl⟩, fun _ he => upper_maximum_le he⟩

/-- Freeform minimums that can arise are the same version if they are the same text. -/
theorem eq_common {v : FreeformVersion} (hr : ∀ e ∈ d :: ds, e.minimum.CanArise)
    (hf : ∀ e ∈ d :: ds, e.minimum.isOrderable = false)
    (ht : ∀ e ∈ ds, e.minimum.text = d.minimum.text) (hd : d.minimum = .freeform v) :
    ∀ e ∈ d :: ds, e.minimum = .freeform v := by
  have hread : ∀ e ∈ d :: ds, e.minimum.IsRead := fun e he => hr e he (hf e he)
  have ht : ∀ e ∈ d :: ds, e.minimum.text = d.minimum.text := List.forall_mem_cons.2 ⟨rfl, ht⟩
  intro e he
  rw [← hd]
  exact (hread e he).eq_of_text_eq (hread d (.head ds)) (ht e he)

/-- The minimum of the dependency that is chosen for it is the one that a merge takes. -/
theorem takesMinimum_iff (hr : ∀ e ∈ d :: ds, e.minimum.CanArise) :
    TakesMinimum (d :: ds) v ↔ ∃ l, lower d ds = .ok l ∧ l.minimum = v := by
  constructor
  · intro h
    cases h with
    | highest hmem hle =>
        obtain ⟨e, he, hev⟩ := hmem
        obtain ⟨l, u, hl, hlmem, hlu, hmax⟩ := lower_of_orderable he hev
        refine ⟨l, hl, ?_⟩
        rw [hlu, Std.le_antisymm (hle l hlmem u hlu) (hmax e he _ hev)]
    | common heq =>
        have hf : ∀ e ∈ d :: ds, e.minimum.orderable? = none := by
          intro e he
          rw [heq e he]
          rfl
        have ht : ∀ e ∈ ds, e.minimum.text = d.minimum.text := by
          intro e he
          rw [heq e (.tail d he), heq d (.head ds)]
        refine ⟨d, ?_, heq d (.head ds)⟩
        rw [lower_of_freeform hf, if_pos ht]
  · intro h
    obtain ⟨l, hl, rfl⟩ := h
    cases hm : l.minimum with
    | orderable u =>
        obtain ⟨l', u', hl', hmem, hu', hmax⟩ := lower_of_orderable (lower_mem hl) hm
        obtain rfl : l = l' := Except.ok.inj (hl.symm.trans hl')
        obtain rfl : u = u' := Version.orderable.inj (hm.symm.trans hu')
        exact .highest ⟨l, hmem, hm⟩ hmax
    | freeform u =>
        obtain ⟨hf, rfl, ht⟩ := of_lower_freeform hl hm
        exact .common (eq_common hr (fun e he => isOrderable_eq_false_iff.2 (hf e he)) ht hm)

/-- A freeform minimum is that of every dependency, also of the one with the tightest maximum, and
a valid dependency admits its own minimum. -/
theorem orderable_of_not_admits (hv : ∀ e ∈ ds, e.Valid) (hmin : TakesMinimum ds v)
    (hmax : TakesMaximum ds b) (h : b.admits v.base = false) :
    ∃ e ∈ ds, ∃ w, v = .orderable w ∧ e.minimum = v := by
  cases hmin with
  | @highest w hmem _ =>
      obtain ⟨e, he, hew⟩ := hmem
      exact ⟨e, he, w, rfl, hew⟩
  | common heq =>
      obtain ⟨e, he, rfl⟩ := hmax.mem
      have hadmits := (hv e he).minimum_le
      rw [heq e he, h] at hadmits
      cases hadmits

end Dependency

end ProductLock
