import Mathlib.Data.List.Forall2

/-!
# Steps that can fail

A computation in several steps gives a result exactly when each of its steps does, and it fails as
the first step does that fails. The lemmas here take such a computation apart into its steps. A
failure that no step can end in is not one of the whole.

Two computations with the same steps can be compared step by step: they agree if the steps of the
one fail just as those of the other, or give results that are related.
-/

namespace ProductLock

variable {ε ε' α β γ δ : Type}

theorem bind_eq_ok_iff {x : Except ε α} {f : α → Except ε β} {b : β} :
    x >>= f = .ok b ↔ ∃ a, x = .ok a ∧ f a = .ok b := by
  cases x with
  | error e => simp [bind, Except.bind]
  | ok a => simp [bind, Except.bind]

theorem bind_eq_error_iff {x : Except ε α} {f : α → Except ε β} {e : ε} :
    x >>= f = .error e ↔ x = .error e ∨ ∃ a, x = .ok a ∧ f a = .error e := by
  cases x with
  | error e => simp [bind, Except.bind]
  | ok a => simp [bind, Except.bind]

theorem pure_eq_ok_iff {a b : α} : (pure a : Except ε α) = .ok b ↔ a = b := by
  simp [pure, Except.pure]

theorem mapError_eq_ok_iff {x : Except ε α} {f : ε → ε'} {a : α} :
    x.mapError f = .ok a ↔ x = .ok a := by
  cases x with
  | error e => exact ⟨nofun, nofun⟩
  | ok b =>
      show (.ok b : Except ε' α) = .ok a ↔ (.ok b : Except ε α) = .ok a
      rw [Except.ok.injEq, Except.ok.injEq]

theorem mapError_eq_error_iff {x : Except ε α} {f : ε → ε'} {e : ε'} :
    x.mapError f = .error e ↔ ∃ e', x = .error e' ∧ e = f e' := by
  cases x with
  | error e' =>
      show (.error (f e') : Except ε' α) = .error e ↔ _
      simp [eq_comm]
  | ok a => exact ⟨nofun, nofun⟩

/-! A computation that gives what there is, or fails if there is nothing. -/

theorem elim_eq_ok_iff {x : Option α} {e : ε} {a : α} :
    x.elim (.error e) .ok = (.ok a : Except ε α) ↔ x = some a := by
  cases x with
  | none => exact ⟨nofun, nofun⟩
  | some b => rw [Option.elim_some, Except.ok.injEq, Option.some.injEq]

theorem elim_eq_error_iff {x : Option α} {e e' : ε} :
    x.elim (.error e) .ok = (.error e' : Except ε α) ↔ x = none ∧ e' = e := by
  cases x with
  | none => rw [Option.elim_none, Except.error.injEq, and_iff_right rfl, eq_comm]
  | some b => exact ⟨nofun, fun h => nomatch h.1⟩

/-- A computation of which something can be told that only a result has. -/
theorem exists_ok_of_map_eq {x : Except ε α} {f : α → β} {b : β}
    (h : x.toOption.map f = some b) : ∃ a, x = .ok a ∧ f a = b := by
  cases x with
  | error e => cases h
  | ok a => exact ⟨a, rfl, Option.some.inj h⟩

/-- A step for each item gives the list of their results. -/
theorem mapM_eq_ok_iff {f : α → Except ε β} {l : List α} {bs : List β} :
    l.mapM f = .ok bs ↔ l.map f = bs.map .ok := by
  induction l generalizing bs with
  | nil => cases bs <;> simp [pure_eq_ok_iff]
  | cons a l ih =>
      simp only [List.mapM_cons, bind_eq_ok_iff, pure_eq_ok_iff, ih, List.map_cons]
      cases bs with
      | nil => simp
      | cons b bs => simp

theorem mapM_congr {f g : α → Except ε β} {l : List α} (h : ∀ a ∈ l, f a = g a) :
    l.mapM f = l.mapM g := by
  induction l with
  | nil => rfl
  | cons a l ih =>
      obtain ⟨ha, hl⟩ := List.forall_mem_cons.1 h
      rw [List.mapM_cons, List.mapM_cons, ha, ih hl]

/-- Where a step for each item gives a list, what holds of every result holds of its members. -/
theorem forall_of_mapM {f : α → Except ε β} {P : β → Prop} {l : List α}
    {bs : List β} (h : l.mapM f = .ok bs) (hf : ∀ a ∈ l, ∀ b, f a = .ok b → P b) :
    ∀ b ∈ bs, P b := by
  intro b hb
  have hok : (.ok b : Except ε β) ∈ l.map f := by
    rw [mapM_eq_ok_iff.1 h]
    exact List.mem_map_of_mem hb
  obtain ⟨a, ha, hab⟩ := List.mem_map.1 hok
  exact hf a ha b hab

/-- A step for each item fails as the first item does that fails. -/
theorem mapM_eq_error_iff {f : α → Except ε β} {l : List α} {e : ε} :
    l.mapM f = .error e ↔ ∃ before a after, l = before ++ a :: after ∧
      (∀ x ∈ before, ∃ b, f x = .ok b) ∧ f a = .error e := by
  induction l with
  | nil => simp [pure, Except.pure]
  | cons x l ih =>
      have htail (b : β) : (l.mapM f >>= fun bs => pure (b :: bs)) = .error e ↔
          l.mapM f = .error e := by
        simp [bind_eq_error_iff, pure, Except.pure]
      simp only [List.mapM_cons, bind_eq_error_iff (x := f x), htail, ih]
      refine ⟨fun h => ?_, fun h => ?_⟩
      · rcases h with hx | ⟨b, hx, before, a, after, rfl, hbefore, ha⟩
        · exact ⟨[], x, l, rfl, nofun, hx⟩
        · exact ⟨x :: before, a, after, rfl, List.forall_mem_cons.2 ⟨⟨b, hx⟩, hbefore⟩, ha⟩
      · obtain ⟨before, a, after, hl, hbefore, ha⟩ := h
        cases before with
        | nil =>
            obtain ⟨rfl, rfl⟩ := List.cons.inj hl
            exact .inl ha
        | cons y before =>
            obtain ⟨rfl, rfl⟩ := List.cons.inj hl
            obtain ⟨⟨b, hx⟩, hbefore⟩ := List.forall_mem_cons.1 hbefore
            exact .inr ⟨b, hx, before, a, after, rfl, hbefore, ha⟩

/-- Steps taken one after another fail as the first of them does that fails. -/
theorem foldlM_eq_error_iff {f : β → α → Except ε β} {l : List α} {b : β} {e : ε} :
    l.foldlM f b = .error e ↔ ∃ before a after c, l = before ++ a :: after ∧
      before.foldlM f b = .ok c ∧ f c a = .error e := by
  induction l generalizing b with
  | nil => simp [pure, Except.pure]
  | cons x l ih =>
      rw [List.foldlM_cons, bind_eq_error_iff]
      simp only [ih]
      refine ⟨fun h => ?_, fun h => ?_⟩
      · rcases h with hx | ⟨c, hx, before, a, after, d, rfl, hbefore, ha⟩
        · exact ⟨[], x, l, b, rfl, rfl, hx⟩
        · refine ⟨x :: before, a, after, d, rfl, ?_, ha⟩
          rw [List.foldlM_cons, bind_eq_ok_iff]
          exact ⟨c, hx, hbefore⟩
      · obtain ⟨before, a, after, d, hl, hbefore, ha⟩ := h
        cases before with
        | nil =>
            obtain ⟨rfl, rfl⟩ := List.cons.inj hl
            obtain rfl := pure_eq_ok_iff.1 hbefore
            exact .inl ha
        | cons y before =>
            obtain ⟨rfl, rfl⟩ := List.cons.inj hl
            rw [List.foldlM_cons, bind_eq_ok_iff] at hbefore
            obtain ⟨c, hx, hbefore⟩ := hbefore
            exact .inr ⟨c, hx, before, a, after, d, rfl, hbefore, ha⟩

/-- Where each item of a list gives a result, what can be said of the items by their results is a
map of the results. -/
theorem map_eq_map_of_ok {f : α → Except ε β} {g : α → γ} {k : β → γ} {l : List α} {bs : List β}
    (h : l.map f = bs.map .ok) (hg : ∀ a ∈ l, ∀ b, f a = .ok b → g a = k b) :
    l.map g = bs.map k := by
  induction l generalizing bs with
  | nil =>
      obtain rfl := List.map_eq_nil_iff.1 h.symm
      rfl
  | cons a l ih =>
      cases bs with
      | nil => cases h
      | cons b bs =>
          obtain ⟨ha, hl⟩ := List.cons.inj h
          obtain ⟨hga, hgl⟩ := List.forall_mem_cons.1 hg
          exact congrArg₂ List.cons (hga b ha) (ih hl hgl)

/-! ## Failures that cannot occur -/

theorem bind_ne_error {x : Except ε α} {f : α → Except ε β} {e : ε} (hx : x ≠ .error e)
    (hf : ∀ a, f a ≠ .error e) : x >>= f ≠ .error e := by
  rw [Ne, bind_eq_error_iff, not_or]
  exact ⟨hx, fun h => h.elim fun a ha => hf a ha.2⟩

theorem mapM_ne_error {f : α → Except ε β} {l : List α} {e : ε}
    (hf : ∀ a ∈ l, f a ≠ .error e) : l.mapM f ≠ .error e := by
  intro h
  obtain ⟨before, a, after, rfl, _, ha⟩ := mapM_eq_error_iff.1 h
  exact hf a (List.mem_append_right before (.head after)) ha

theorem mapError_ne_error {x : Except ε α} {f : ε → ε'} {e : ε'} (hf : ∀ e', e ≠ f e') :
    x.mapError f ≠ .error e := by
  intro h
  obtain ⟨e', _, he⟩ := mapError_eq_error_iff.1 h
  exact hf e' he

/-! ## Two computations side by side -/

/-- Both fail alike, or both give results and these are related. -/
inductive Agree (R : α → β → Prop) : Except ε α → Except ε β → Prop
  | error (e : ε) : Agree R (.error e) (.error e)
  | ok {a : α} {b : β} (h : R a b) : Agree R (.ok a) (.ok b)

namespace Agree

variable {R : α → β → Prop} {S : γ → δ → Prop}

theorem bind {x : Except ε α} {y : Except ε β} {f : α → Except ε γ} {g : β → Except ε δ}
    (h : Agree R x y) (hfg : ∀ a b, R a b → Agree S (f a) (g b)) : Agree S (x >>= f) (y >>= g) := by
  cases h with
  | error e => exact .error e
  | ok h => exact hfg _ _ h

theorem bind_same {x : Except ε α} {f : α → Except ε γ} {g : α → Except ε δ}
    (hfg : ∀ a, Agree S (f a) (g a)) : Agree S (x >>= f) (x >>= g) := by
  cases x with
  | error e => exact .error e
  | ok a => exact hfg a

theorem mono {R' : α → β → Prop} {x : Except ε α} {y : Except ε β} (h : Agree R x y)
    (hR : ∀ a b, R a b → R' a b) : Agree R' x y := by
  cases h with
  | error e => exact .error e
  | ok h => exact .ok (hR _ _ h)

theorem mapM {f : γ → Except ε α} {g : γ → Except ε β} {l : List γ}
    (h : ∀ c ∈ l, Agree R (f c) (g c)) : Agree (List.Forall₂ R) (l.mapM f) (l.mapM g) := by
  induction l with
  | nil => exact .ok .nil
  | cons c l ih =>
      obtain ⟨hc, hl⟩ := List.forall_mem_cons.1 h
      simp only [List.mapM_cons]
      exact hc.bind fun a b hab => (ih hl).bind fun as bs habs => .ok (.cons hab habs)

/-- To agree on equal results is to be equal. -/
theorem eq_of_agree {x y : Except ε α} (h : Agree Eq x y) : x = y := by
  cases h with
  | error e => rfl
  | ok h => rw [h]

end Agree

end ProductLock
