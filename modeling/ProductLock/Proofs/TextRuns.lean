import Mathlib.Data.List.TakeWhile

/-!
# Runs of characters and where texts are cut

A run of characters of one kind goes on until a character of another kind, or to the end of the
text. So where a run is put before what does not continue it, the two can be told apart again
(`EndsRun.append_inj`), and it is in this way that the parts of a text are determined by the text.

Cutting a text at all characters of one kind is undone from the left: the first piece is what stands
before the first such character, and the other pieces are those of what stands behind it.
-/

namespace ProductLock.Text

variable {p : Char → Bool} {a b r s : List Char} {x y : Char}

/-! ## Runs -/

/-- A run of characters of one kind is over: there is no more text, or one of another kind. -/
def EndsRun (p : Char → Bool) (rest : List Char) : Prop := ∀ c ∈ rest.head?, p c = false

theorem endsRun_nil : EndsRun p [] := nofun

theorem endsRun_cons (hx : p x = false) : EndsRun p (x :: r) := by
  rintro _ ⟨⟩
  exact hx

theorem EndsRun.takeWhile_append (hr : EndsRun p r) (cs : List Char) :
    (cs ++ r).takeWhile p = cs.takeWhile p := by
  induction cs with
  | nil =>
      cases r with
      | nil => rfl
      | cons x r => simp [hr x rfl]
  | cons c cs ih => simp only [List.cons_append, List.takeWhile_cons, ih]

theorem EndsRun.dropWhile_append (hr : EndsRun p r) (cs : List Char) :
    (cs ++ r).dropWhile p = cs.dropWhile p ++ r := by
  induction cs with
  | nil =>
      cases r with
      | nil => rfl
      | cons x r => simp [hr x rfl]
  | cons c cs ih =>
      simp only [List.cons_append, List.dropWhile_cons, ih]
      split <;> rfl

/-- Two runs and what follows them are told apart by the text. -/
theorem EndsRun.append_inj (hr : EndsRun p r) (hs : EndsRun p s) (ha : ∀ c ∈ a, p c = true)
    (hb : ∀ c ∈ b, p c = true) (h : a ++ r = b ++ s) : a = b ∧ r = s := by
  have hab : a.takeWhile p = b.takeWhile p := by
    rw [← hr.takeWhile_append, h, hs.takeWhile_append]
  rw [List.takeWhile_eq_self_iff.2 ha, List.takeWhile_eq_self_iff.2 hb] at hab
  rw [hab] at h
  exact ⟨hab, List.append_cancel_left h⟩

/-- A run of characters of one kind ends at the first of another kind. -/
theorem takeWhile_append_cons (ha : ∀ c ∈ a, p c = true) (hx : p x = false) :
    (a ++ x :: r).takeWhile p = a := by
  rw [(endsRun_cons hx).takeWhile_append, List.takeWhile_eq_self_iff.2 ha]

theorem dropWhile_append_cons (ha : ∀ c ∈ a, p c = true) (hx : p x = false) :
    (a ++ x :: r).dropWhile p = x :: r := by
  rw [(endsRun_cons hx).dropWhile_append, List.dropWhile_eq_nil_iff.2 ha, List.nil_append]

theorem append_cons_inj (ha : ∀ c ∈ a, p c = true) (hb : ∀ c ∈ b, p c = true)
    (hx : p x = false) (hy : p y = false) (h : a ++ x :: r = b ++ y :: s) : a = b ∧ r = s := by
  obtain ⟨hab, hrs⟩ := (endsRun_cons hx).append_inj (endsRun_cons hy) ha hb h
  exact ⟨hab, (List.cons.inj hrs).2⟩

/-! ## Cuts -/

/-- A text that holds one of the characters it is cut at is cut at the first of them. -/
theorem splitOnP_cases (p : Char → Bool) (cs : List Char) :
    cs.splitOnP p = [cs] ∨ ∃ first x rest, cs = first ++ x :: rest ∧
      cs.splitOnP p = first :: rest.splitOnP p ∧ cs.filter p = x :: rest.filter p ∧ p x = true := by
  induction cs with
  | nil => exact .inl rfl
  | cons c cs ih =>
      rw [List.splitOnP_cons_eq_if_modifyHead]
      by_cases hc : p c = true
      · rw [if_pos hc, List.filter_cons_of_pos hc]
        exact .inr ⟨[], c, cs, rfl, rfl, rfl, hc⟩
      · rw [if_neg hc, List.filter_cons_of_neg hc]
        rcases ih with h | ⟨first, x, rest, hcs, hsplit, hfilter, hx⟩
        · rw [h]
          exact .inl rfl
        · rw [hsplit, hcs]
          exact .inr ⟨c :: first, x, rest, rfl, rfl, hcs ▸ hfilter, hx⟩

/-- What was cut into two pieces or more begins with the first and the character after it. -/
theorem of_splitOnP_eq_cons_cons {cs first second : List Char} {more : List (List Char)}
    (h : cs.splitOnP p = first :: second :: more) :
    ∃ x rest, cs = first ++ x :: rest ∧ rest.splitOnP p = second :: more ∧
      cs.filter p = x :: rest.filter p ∧ p x = true := by
  rcases splitOnP_cases p cs with hs | ⟨_, x, rest, hcs, hs, hfilter, hx⟩
  · rw [hs] at h
    cases h
  · rw [hs] at h
    obtain ⟨rfl, hrest⟩ := List.cons.inj h
    exact ⟨x, rest, hcs, hrest, hfilter, hx⟩

theorem of_splitOnP_eq_singleton {cs piece : List Char} (h : cs.splitOnP p = [piece]) :
    cs = piece := by
  rcases splitOnP_cases p cs with hs | ⟨_, _, rest, _, hs, _⟩
  · exact (List.cons.inj (hs.symm.trans h)).1
  · exact absurd (List.cons.inj (hs.symm.trans h)).2 (List.splitOnP_ne_nil p rest)

end ProductLock.Text
