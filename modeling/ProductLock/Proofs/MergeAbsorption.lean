import ProductLock.Proofs.MergeOutcome

/-!
# A merge absorbs what went into it

What came of a merge has the highest minimum of its inputs and their tightest maximum, so beside any
of these inputs it still has both. The recommendation needs an argument, because it may be nobody's:
a merge that is offered nothing in its range recommends its own minimum. Offered along with the
inputs, that minimum is the only recommendation in range, or none at all if it is freeform, and
either way it is recommended again (`recommendation_absorbs`).

`Combines` puts together what a merge is, so that all of this is said of any list of dependencies
and not of a first one and the others. It includes that the merged dependency is valid, and since
the same dependency comes out again, there is nothing left to check.

A resolution marks what it merged as optional or not, and no merge looks at that mark. Where the
marked dependency comes first it is absorbed as well, and then the freeform minimums need not have
been read: the first dependency is the one whose freeform minimum is taken
(`mergeAll_withOptional_absorbs`).
-/

namespace ProductLock.Dependency

variable {d e m : Dependency} {ds es : List Dependency} {v : Version} {b : Bound}

/-- What a merge recommends outdoes what its inputs do, also when it is offered along with them. -/
theorem recommendation_absorbs (hm : m.recommended = some (recommendation v b ds)) (hmem : m ∈ es)
    (hsub : ∀ x ∈ es, x = m ∨ x ∈ ds) : recommendation v b es = recommendation v b ds := by
  rcases recommendation_cases v b es with ⟨w, hw, ⟨x, hx, hxw⟩, hrange, hbest⟩ | ⟨hw, hnone⟩
  · rw [hw]
    rcases hsub x hx with rfl | hx
    · exact Option.some.inj (hxw.symm.trans hm)
    · rcases recommendation_cases v b ds with ⟨u, hu, _, hurange, hubest⟩ | ⟨_, hunone⟩
      · rw [hu] at hm ⊢
        rw [Std.le_antisymm (hubest x hx w hxw hrange) (hbest m hmem u hm hurange)]
      · rw [hunone x hx w hxw] at hrange
        cases hrange
  · rcases recommendation_cases v b ds with ⟨u, hu, _, hurange, _⟩ | ⟨hu, _⟩
    · rw [hu] at hm
      rw [hnone m hmem u hm] at hurange
      cases hurange
    · rw [hw, hu]

section First

variable {l : Dependency}

/-- Put before some of the dependencies that a minimum was chosen from, a dependency with this
minimum has it chosen again. -/
theorem lower_absorbs (hl : lower d ds = .ok l) (hm : m.minimum = l.minimum) (hsub : es ⊆ d :: ds) :
    ∃ l', lower m es = .ok l' ∧ l'.minimum = l.minimum := by
  cases hv : l.minimum with
  | orderable v =>
      have hm : m.minimum = .orderable v := hm.trans hv
      obtain ⟨l₁, v₁, hl₁, _, hv₁, hmax⟩ := lower_of_orderable (lower_mem hl) hv
      obtain rfl : l = l₁ := Except.ok.inj (hl.symm.trans hl₁)
      obtain rfl : v = v₁ := Version.orderable.inj (hv.symm.trans hv₁)
      obtain ⟨l', w, hl', hmem, hw, hmax'⟩ := lower_of_orderable (.head es) hm
      have hwv : w ≤ v := by
        rcases List.mem_cons.1 hmem with rfl | hmem
        · rw [Version.orderable.inj (hw.symm.trans hm)]
          exact Std.le_refl v
        · exact hmax l' (hsub hmem) w hw
      rw [Std.le_antisymm hwv (hmax' m (.head es) v hm)] at hw
      exact ⟨l', hl', hw⟩
  | freeform v =>
      have hm : m.minimum = .freeform v := hm.trans hv
      obtain ⟨hf, rfl, ht⟩ := of_lower_freeform hl hv
      have ht : ∀ e ∈ l :: ds, e.minimum.text = l.minimum.text := List.forall_mem_cons.2 ⟨rfl, ht⟩
      have hfes : ∀ e ∈ m :: es, e.minimum.orderable? = none :=
        List.forall_mem_cons.2 ⟨by rw [hm]; rfl, fun e he => hf e (hsub he)⟩
      have htes : ∀ e ∈ es, e.minimum.text = m.minimum.text := by
        intro e he
        rw [ht e (hsub he), hv, hm]
      exact ⟨m, by rw [lower_of_freeform hfes, if_pos htes], hm⟩

theorem upper_absorbs (hm : m.maximum = (upper d ds).maximum) (hsub : es ⊆ d :: ds) :
    (upper m es).maximum = (upper d ds).maximum := by
  have hmem : upper m es ∈ m :: es := upper_mem
  refine Std.le_antisymm (hm ▸ upper_maximum_le (.head es)) ?_
  rcases List.mem_cons.1 hmem with he | he
  · rw [he, hm]
    exact Std.le_refl _
  · exact upper_maximum_le (hsub he)

/-- What came of a merge takes the place of any of its inputs, marked optional or not. -/
theorem mergeAll_withOptional_absorbs (h : mergeAll d ds = .ok m) (hsub : es ⊆ d :: ds)
    (isOptional : Bool) : mergeAll (m.withOptional isOptional) es = .ok m := by
  obtain ⟨hid, l, hl, hadmits, hvalid, rfl⟩ := mergeAll_eq_ok_iff.1 h
  obtain ⟨l', hl', hmin⟩ := lower_absorbs (m := (joined d ds l).withOptional isOptional) hl rfl hsub
  have hmax : (upper ((joined d ds l).withOptional isOptional) es).maximum = (upper d ds).maximum :=
    upper_absorbs rfl hsub
  have hrec : recommendation l.minimum (upper d ds).maximum
      ((joined d ds l).withOptional isOptional :: es) =
        recommendation l.minimum (upper d ds).maximum (d :: ds) :=
    recommendation_absorbs rfl (.head es) fun x hx => (List.mem_cons.1 hx).imp_right (hsub ·)
  have hjoined : joined d ds l = joined ((joined d ds l).withOptional isOptional) es l' := by
    rw [joined.eq_def _ es, hmin, hmax, hrec]
    rfl
  have hids : ∀ e ∈ d :: ds, e.id = d.id := List.forall_mem_cons.2 ⟨rfl, hid⟩
  refine mergeAll_eq_ok_iff.2 ⟨fun e he => hids e (hsub he), l', hl', ?_, hjoined ▸ hvalid, hjoined⟩
  rw [hmax, hmin]
  exact hadmits

end First

end ProductLock.Dependency
