import ProductLock.Proofs.DependencyText
import ProductLock.Proofs.MergeChoice

/-!
# The order of the inputs does not matter to a merge

Each choice of a merge is a least item, and a least item is the same in any order of the list if
only equal items are level. For the recommendation that is so because versions are linearly
ordered. For the other two choices the text of a dependency breaks the ties, and among dependencies
on one product with versions that were read the text leaves none.

One choice is not a least item. Where no minimum has a place in the order, the first dependency of
the list stands for all, and another order of the list puts another one first. That can not be seen
in the outcome. All minimums are the same version then, and one that the tightest maximum admits,
because that maximum belongs to a valid dependency with this very minimum; so the dependency that
was chosen never gets into an error.
-/

namespace ProductLock

/-- The least item of a list, if it has any. -/
def least? {α : Type} (cmp : α → α → Ordering) : List α → Option α
  | [] => none
  | a :: l => some (leastBy cmp a l)

theorem least?_eq_of_perm {α : Type} {cmp : α → α → Ordering} [Std.TransCmp cmp] {l m : List α}
    (hp : l.Perm m) (heq : ∀ x ∈ l, ∀ y ∈ l, cmp x y = .eq → x = y) :
    least? cmp l = least? cmp m := by
  cases l with
  | nil => rw [hp.nil_eq]
  | cons a l =>
      cases m with
      | nil => exact absurd hp.symm.nil_eq (List.cons_ne_nil a l).symm
      | cons b m => exact congrArg some (leastBy_eq_of_perm hp heq)

namespace Dependency

theorem recommendation_eq_of_perm {v : Version} {b : Bound} {ds es : List Dependency}
    (hp : ds.Perm es) : recommendation v b ds = recommendation v b es := by
  have hleast (l : List Dependency) : recommendation v b l =
      (least? (fun a b => compare b a) ((l.filterMap fun d =>
        d.recommended.bind Version.orderable?).filter (inRange v b))).elim v .orderable := by
    unfold recommendation
    simp only []
    cases (l.filterMap fun d => d.recommended.bind Version.orderable?).filter (inRange v b) <;> rfl
  rw [hleast, hleast, least?_eq_of_perm ((hp.filterMap _).filter _)]
  intro x _ y _ h
  exact (Std.LawfulEqOrd.eq_of_compare h).symm

theorem minimumTexts_eq_of_perm {ds es : List Dependency} (hp : ds.Perm es) :
    minimumTexts ds = minimumTexts es := by
  unfold minimumTexts
  rw [Catalog.ofList_congr fun t => (hp.map (·.minimum.text)).mem_iff]

section Perm

variable {d e : Dependency} {ds es : List Dependency}

theorem orderableMinimums_perm (hp : ds.Perm es) :
    (orderableMinimums ds).Perm (orderableMinimums es) :=
  (List.reverse_perm _).trans ((hp.filterMap _).trans (List.reverse_perm _).symm)

/-- Among dependencies on one product the text leaves no ties. -/
theorem eq_of_text_eq (hid : ∀ x ∈ d :: ds, x.id = d.id) (hr : ∀ x ∈ d :: ds, x.IsRead) :
    ∀ x ∈ d :: ds, ∀ y ∈ d :: ds, x.text = y.text → x = y := by
  intro x hx y hy h
  exact eq_of_id_eq_of_text_eq ((hid x hx).trans (hid y hy).symm) (hr x hx) (hr y hy) h

theorem upper_eq_of_perm (hp : (d :: ds).Perm (e :: es))
    (htext : ∀ x ∈ d :: ds, ∀ y ∈ d :: ds, x.text = y.text → x = y) : upper d ds = upper e es := by
  refine leastBy_eq_of_perm hp fun x hx y hy h => htext x hx y hy ?_
  exact Std.LawfulEqOrd.eq_of_compare (Ordering.then_eq_eq.1 h).2

/-- A minimum with a place in the order is chosen by the same dependency in any order. -/
theorem lower_eq_of_perm_of_orderable (hp : (d :: ds).Perm (e :: es))
    (htext : ∀ x ∈ d :: ds, ∀ y ∈ d :: ds, x.text = y.text → x = y)
    {x : Dependency} {v : OrderableVersion} (hx : x ∈ d :: ds) (hv : x.minimum = .orderable v) :
    lower d ds = lower e es := by
  have hleast {f : Dependency} {fs : List Dependency} (hx : x ∈ f :: fs) :
      ∃ p, least? compareLower (orderableMinimums (f :: fs)) = some p ∧
        lower f fs = .ok p.2 := by
    have hmem : (v, x) ∈ orderableMinimums (f :: fs) :=
      mem_orderableMinimums.2 ⟨hx, hv⟩
    unfold lower
    cases hl : orderableMinimums (f :: fs) with
    | nil =>
        rw [hl] at hmem
        cases hmem
    | cons p ps => exact ⟨_, rfl, rfl⟩
  have heq : least? compareLower (orderableMinimums (d :: ds)) =
      least? compareLower (orderableMinimums (e :: es)) := by
    refine least?_eq_of_perm (orderableMinimums_perm hp) fun p hp q hq h => ?_
    obtain ⟨h₁, h₂⟩ := Ordering.then_eq_eq.1 h
    have hp := (mem_orderableMinimums.1 hp).1
    have hq := (mem_orderableMinimums.1 hq).1
    refine Prod.ext (Std.LawfulEqOrd.eq_of_compare h₁).symm ?_
    exact htext _ hp _ hq (Std.LawfulEqOrd.eq_of_compare h₂)
  obtain ⟨p, hpl, hpd⟩ := hleast hx
  obtain ⟨q, hql, hqe⟩ := hleast (hp.mem_iff.1 hx)
  obtain rfl : p = q := Option.some.inj (hpl.symm.trans (heq.trans hql))
  rw [hpd, hqe]

/-- Where no minimum has a place in the order, the outcome is the same up to the dependency that
stands for all, and then all minimums are the same. -/
theorem lower_of_perm_of_freeform (hp : (d :: ds).Perm (e :: es))
    (hid : ∀ x ∈ d :: ds, x.id = d.id) (hr : ∀ x ∈ d :: ds, x.minimum.IsRead)
    (hf : ∀ x ∈ d :: ds, x.minimum.orderable? = none) :
    lower d ds = lower e es ∨
      lower d ds = .ok d ∧ lower e es = .ok e ∧ ∀ x ∈ d :: ds, x.minimum = d.minimum := by
  have he : e ∈ d :: ds := hp.mem_iff.2 (.head es)
  rw [lower_of_freeform hf, lower_of_freeform fun x hx => hf x (hp.mem_iff.2 hx)]
  by_cases hds : ∀ x ∈ ds, x.minimum.text = d.minimum.text
  · have hall : ∀ x ∈ d :: ds, x.minimum.text = d.minimum.text :=
      List.forall_mem_cons.2 ⟨rfl, hds⟩
    have hall' : ∀ x ∈ es, x.minimum.text = e.minimum.text := by
      intro x hx
      rw [hall x (hp.mem_iff.2 (.tail e hx)), hall e he]
    rw [if_pos hds, if_pos hall']
    refine .inr ⟨rfl, rfl, fun x hx => ?_⟩
    exact (hr x hx).eq_of_text_eq (hr d (.head ds)) (hall x hx)
  · have hall' : ¬ ∀ x ∈ es, x.minimum.text = e.minimum.text := by
      intro h
      have h : ∀ x ∈ e :: es, x.minimum.text = e.minimum.text := List.forall_mem_cons.2 ⟨rfl, h⟩
      refine hds fun x hx => ?_
      rw [h x (hp.mem_iff.1 (.tail d hx)), h d (hp.mem_iff.1 (.head ds))]
    rw [if_neg hds, if_neg hall', minimumTexts_eq_of_perm hp, hid e he]
    exact .inl rfl

/-- In another order either the same dependency gives the minimum, or all minimums are the same and
whichever dependency comes first gives it. -/
theorem lower_of_perm (hp : (d :: ds).Perm (e :: es)) (hid : ∀ x ∈ d :: ds, x.id = d.id)
    (hr : ∀ x ∈ d :: ds, x.IsRead) :
    lower d ds = lower e es ∨
      lower d ds = .ok d ∧ lower e es = .ok e ∧ ∀ x ∈ d :: ds, x.minimum = d.minimum := by
  by_cases hf : ∀ x ∈ d :: ds, x.minimum.orderable? = none
  · exact lower_of_perm_of_freeform hp hid (fun x hx => (hr x hx).minimum) hf
  · simp only [not_forall] at hf
    obtain ⟨x, hx, hne⟩ := hf
    cases hm : x.minimum with
    | orderable v => exact .inl (lower_eq_of_perm_of_orderable hp (eq_of_text_eq hid hr) hx hm)
    | freeform v =>
        rw [hm] at hne
        exact absurd rfl hne

/-- What is merged before the last check is the same in whatever order the dependencies come. -/
theorem mergedParts_eq_of_perm (hp : (d :: ds).Perm (e :: es)) (hid : ∀ x ∈ ds, x.id = d.id)
    (hv : ∀ x ∈ d :: ds, x.Valid) (hr : ∀ x ∈ d :: ds, x.IsRead) :
    mergedParts d ds = mergedParts e es := by
  have hid' : ∀ x ∈ d :: ds, x.id = d.id := List.forall_mem_cons.2 ⟨rfl, hid⟩
  have hide : e.id = d.id := hid' e (hp.mem_iff.2 (.head es))
  have hies : ∀ x ∈ es, x.id = e.id := by
    intro x hx
    rw [hide, hid' x (hp.mem_iff.2 (.tail e hx))]
  have hu : upper d ds = upper e es := upper_eq_of_perm hp (eq_of_text_eq hid' hr)
  have hjoined {l l' : Dependency} (h : l.minimum = l'.minimum) :
      joined d ds l = joined e es l' := by
    rw [joined, joined, hu, h, hide, recommendation_eq_of_perm hp]
  rw [mergedParts_of_same hid, mergedParts_of_same hies]
  rcases lower_of_perm hp hid' hr with hl | ⟨hld, hle, hsame⟩
  · rw [hl, hu, hide]
    cases lower e es with
    | error err => rfl
    | ok l =>
        simp only [Except.bind]
        rw [hjoined rfl]
  · have hmin : d.minimum = e.minimum := (hsame e (hp.mem_iff.2 (.head es))).symm
    have hadm : (upper d ds).maximum.admits d.minimum.base = true := by
      have hmem : upper d ds ∈ d :: ds := upper_mem
      have := (hv _ hmem).minimum_le
      rwa [hsame _ hmem] at this
    rw [hld, hle]
    simp only [Except.bind]
    rw [if_pos hadm, if_pos (by rw [← hu, ← hmin]; exact hadm), hjoined hmin]

/-- Merging gives the same outcome, error or not, in whatever order the dependencies come. -/
theorem mergeAll_eq_of_perm (hp : (d :: ds).Perm (e :: es)) (hid : ∀ x ∈ ds, x.id = d.id)
    (hv : ∀ x ∈ d :: ds, x.Valid) (hr : ∀ x ∈ d :: ds, x.IsRead) :
    mergeAll d ds = mergeAll e es := by
  rw [mergeAll, mergeAll, mergedParts_eq_of_perm hp hid hv hr]

theorem mergeAll_eq_of_perm_conflict :
    let a : Dependency :=
      ⟨⟨"com.foo", "bar"⟩, .orderable ⟨⟨1, 0, 0⟩, .release⟩, .major 1, none, false⟩
    let b : Dependency := ⟨⟨"com.foo", "bar"⟩, .freeform ⟨⟨1, 2, 0⟩, "1.2.0-dirty"⟩, .major 1,
      none, true⟩
    let c : Dependency := ⟨⟨"com.foo", "bar"⟩, .orderable ⟨⟨2, 1, 0⟩, .release⟩, .major 2, none,
      false⟩
    mergeAll a [b, c] = .error (.disjointRanges a.id c a c.minimum a.maximum) ∧
      mergeAll a [b, c] = mergeAll c [a, b] := by
  intro a b c
  have hr : ∀ x ∈ [a, b, c], x.IsRead := by
    intro x hx
    simp only [List.mem_cons, List.not_mem_nil, or_false] at hx
    rcases hx with rfl | rfl | rfl
    · exact ⟨⟨"1.0.0", by decide +kernel⟩, nofun⟩
    · exact ⟨⟨"1.2.0-dirty", by decide +kernel⟩, nofun⟩
    · exact ⟨⟨"2.1.0", by decide +kernel⟩, nofun⟩
  refine ⟨by decide +kernel, ?_⟩
  exact mergeAll_eq_of_perm (by decide +kernel) (by decide) (by decide +kernel) hr

end Perm

end Dependency

end ProductLock
