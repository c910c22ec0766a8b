import ProductLock.Bound.Roundtrip
import ProductLock.Dependency.Reading
import ProductLock.Proofs.Outcomes

/-!
# The characters of versions and bounds

A version that was read, of either kind, and every bound are written in letters, digits, dots and
dashes. No such character is blank, and none is one of the marks that stand around versions and
bounds in longer texts, so a version or a bound can be cut out of a text at the first character of
another kind.

A version that was read is also the only one with its text: reading the text again gives it back.
That says more than injectivity of the text on orderable versions, since a freeform version keeps
whatever text it was read from.
-/

namespace ProductLock

namespace Text

def isVersionChar (c : Char) : Bool := c.isAlphanum || c == '.' || c == '-'

theorem isAlphanum_iff {c : Char} :
    c.isAlphanum = true ↔ ((65 ≤ c.toNat ∧ c.toNat ≤ 90) ∨ (97 ≤ c.toNat ∧ c.toNat ≤ 122)) ∨
      (48 ≤ c.toNat ∧ c.toNat ≤ 57) := by
  have hdef : c.isAlphanum = ((decide (65 ≤ c.val ∧ c.val ≤ 90) ||
      (decide (97 ≤ c.val) && decide (c.val ≤ 122))) ||
      (decide (48 ≤ c.val) && decide (c.val ≤ 57))) := rfl
  rw [hdef]
  simp only [Bool.or_eq_true, Bool.and_eq_true, decide_eq_true_eq, UInt32.le_iff_toNat_le]
  rfl

theorem isAlphanum_of_isDigit {c : Char} (h : c.isDigit = true) : c.isAlphanum = true := by
  rw [Char.isAlphanum, h, Bool.or_true]

theorem isVersionChar_of_isAlphanum {c : Char} (h : c.isAlphanum = true) :
    isVersionChar c = true := by
  rw [isVersionChar, h, Bool.true_or, Bool.true_or]

theorem isVersionChar_of_isDigit {c : Char} (h : c.isDigit = true) : isVersionChar c = true :=
  isVersionChar_of_isAlphanum (isAlphanum_of_isDigit h)

theorem isVersionChar_iff {c : Char} :
    isVersionChar c = true ↔ (((65 ≤ c.toNat ∧ c.toNat ≤ 90) ∨ (97 ≤ c.toNat ∧ c.toNat ≤ 122)) ∨
      (48 ≤ c.toNat ∧ c.toNat ≤ 57)) ∨ c = '.' ∨ c = '-' := by
  rw [← isAlphanum_iff, isVersionChar]
  simp only [Bool.or_eq_true, beq_iff_eq, or_assoc]

theorem toNat_of_isVersionChar {c : Char} (h : isVersionChar c = true) :
    0x2D ≤ c.toNat ∧ c.toNat ≤ 0x7A := by
  rcases isVersionChar_iff.1 h with h | rfl | rfl
  · omega
  · decide
  · decide

theorem isBlank_of_isVersionChar {c : Char} (h : isVersionChar c = true) : isBlank c = false := by
  have hc := toNat_of_isVersionChar h
  simp only [isBlank, Bool.or_eq_false_iff, Bool.and_eq_false_iff, decide_eq_false_iff_not,
    beq_eq_false_iff_ne]
  omega

/-- The marks that stand around versions all come before the dash. -/
theorem ne_of_isVersionChar {c x : Char} (h : isVersionChar c = true) (hx : x.toNat < 0x2D) :
    c ≠ x := by
  intro he
  have hc := toNat_of_isVersionChar h
  rw [he] at hc
  omega

/-- A character of a text that was cut is a separator or in one of the pieces. -/
theorem of_mem_splitOnP {p : Char → Bool} {cs : List Char} {c : Char} (hc : c ∈ cs) :
    p c = true ∨ ∃ piece ∈ cs.splitOnP p, c ∈ piece := by
  induction cs with
  | nil => cases hc
  | cons b cs ih =>
      rw [List.splitOnP_cons_eq_if_modifyHead]
      obtain ⟨first, rest, hs⟩ := List.exists_cons_of_ne_nil (List.splitOnP_ne_nil p cs)
      rw [hs] at ih ⊢
      by_cases hb : p b = true
      · rw [if_pos hb]
        rcases List.mem_cons.1 hc with rfl | hc
        · exact .inl hb
        · refine (ih hc).imp id fun h => ?_
          obtain ⟨piece, hp, hm⟩ := h
          exact ⟨piece, .tail _ hp, hm⟩
      · rw [if_neg hb, List.modifyHead_cons]
        rcases List.mem_cons.1 hc with rfl | hc
        · exact .inr ⟨_, .head _, .head _⟩
        · refine (ih hc).imp id fun h => ?_
          obtain ⟨piece, hp, hm⟩ := h
          rcases List.mem_cons.1 hp with rfl | hp
          · exact ⟨_, .head _, .tail _ hm⟩
          · exact ⟨piece, .tail _ hp, hm⟩

end Text

open Text (isVersionChar)

theorem Numeral.isVersionChar_of_mem {n : UInt32} {c : Char} (h : c ∈ (text n).toList) :
    isVersionChar c = true := by
  rw [text, String.toList_ofList] at h
  exact Text.isVersionChar_of_isDigit (isDigit_of_mem_digits h)

theorem Release.isVersionChar_of_mem {r : Release} {c : Char} (h : c ∈ r.text.toList) :
    isVersionChar c = true := by
  simp only [text, String.toList_append, List.mem_append] at h
  rcases h with (((h | h) | h) | h) | h
  · exact Numeral.isVersionChar_of_mem h
  · obtain rfl := List.mem_singleton.1 h
    rfl
  · exact Numeral.isVersionChar_of_mem h
  · obtain rfl := List.mem_singleton.1 h
    rfl
  · exact Numeral.isVersionChar_of_mem h

theorem Revision.isAlphanum_of_isHashDigit {c : Char} (h : isHashDigit c = true) :
    c.isAlphanum = true := by
  simp only [isHashDigit, Bool.or_eq_true, Bool.and_eq_true, decide_eq_true_eq] at h
  rcases h with h | h
  · exact Text.isAlphanum_of_isDigit h
  · have ha : 97 ≤ c.toNat := h.1
    have hf : c.toNat ≤ 102 := h.2
    exact Text.isAlphanum_iff.2 (.inl (.inr ⟨ha, by omega⟩))

theorem Revision.isVersionChar_of_mem {r : Revision} {c : Char} (hr : IsHash r.hash)
    (h : c ∈ r.text.toList) : isVersionChar c = true := by
  simp only [text, String.toList_append, List.mem_append] at h
  rcases h with ((h | h) | h) | h
  · obtain rfl := List.mem_singleton.1 h
    rfl
  · exact Numeral.isVersionChar_of_mem h
  · have hmark : "-g".toList.all isVersionChar = true := by decide
    exact List.all_eq_true.1 hmark c h
  · exact Text.isVersionChar_of_isAlphanum (isAlphanum_of_isHashDigit (hr.2 c h))

theorem Suffix.isVersionChar_of_mem {s : Suffix} {c : Char} (hs : s.HasHash)
    (h : c ∈ s.text.toList) : isVersionChar c = true := by
  have hrc : ∀ x ∈ "-rc".toList, isVersionChar x = true := List.all_eq_true.1 (by decide)
  match s with
  | .release => cases h
  | .candidate n none =>
      rw [text, String.toList_append, List.mem_append] at h
      rcases h with h | h
      · exact hrc c h
      · exact Numeral.isVersionChar_of_mem h
  | .candidate n (some r) =>
      rw [text, String.toList_append, String.toList_append, List.mem_append, List.mem_append] at h
      rcases h with (h | h) | h
      · exact hrc c h
      · exact Numeral.isVersionChar_of_mem h
      · exact Revision.isVersionChar_of_mem (hs r rfl) h
  | .revision r => exact Revision.isVersionChar_of_mem (hs r rfl) h

/-! ## Versions that were read -/

theorem FreeformVersion.isVersionChar_of_read? {cs : List Char} {v : FreeformVersion}
    (h : read? cs = some v) {c : Char} (hc : c ∈ cs) : isVersionChar c = true := by
  have hdigit {ds : List Char} {n : UInt32} (hn : Numeral.readPadded? ds = some n) {x : Char}
      (hx : x ∈ ds) : isVersionChar x = true :=
    Text.isVersionChar_of_isDigit ((Numeral.readPadded?_eq_some_iff.1 hn).2.1 x hx)
  unfold read? at h
  split at h
  next a b d segments rest hs hf =>
    split at h
    next hsegments =>
      simp only [Option.bind_eq_bind, Option.bind_eq_some_iff] at h
      obtain ⟨_, ha, _, hb, _, hd, _⟩ := h
      rcases Text.of_mem_splitOnP (p := isSeparator) hc with hsep | ⟨piece, hp, hm⟩
      · rw [isSeparator, Bool.or_eq_true] at hsep
        rw [isVersionChar, Bool.or_assoc, Bool.or_eq_true, Bool.or_eq_true]
        exact .inr hsep
      · rw [hs] at hp
        simp only [List.mem_cons] at hp
        rcases hp with rfl | rfl | rfl | hp
        · exact hdigit ha hm
        · exact hdigit hb hm
        · exact hdigit hd hm
        · have := List.all_eq_true.1 hsegments piece hp
          rw [isSegment, Bool.and_eq_true, List.all_eq_true] at this
          exact Text.isVersionChar_of_isAlphanum (this.2 c hm)
    next => cases h
  next => cases h

namespace Version

theorem read_eq_ok_iff {s : String} {v : Version} : read s = .ok v ↔ read? s = some v :=
  elim_eq_ok_iff

/-- Some text reads as the version. -/
def IsRead (v : Version) : Prop := ∃ s, read? s = some v

theorem IsRead.read?_text {v : Version} (h : v.IsRead) : read? v.text = some v := by
  obtain ⟨s, hs⟩ := h
  rw [text_of_read? hs, hs]

theorem IsRead.eq_of_text_eq {v w : Version} (hv : v.IsRead) (hw : w.IsRead)
    (h : v.text = w.text) : v = w :=
  Option.some.inj (by rw [← hv.read?_text, ← hw.read?_text, h])

theorem IsRead.isVersionChar_of_mem {v : Version} (hv : v.IsRead) {c : Char}
    (hc : c ∈ v.text.toList) : isVersionChar c = true := by
  have h := hv.read?_text
  unfold read? at h
  rcases Option.or_eq_some_iff.1 h with h | ⟨_, h⟩
  · obtain ⟨w, hw, rfl⟩ := Option.map_eq_some_iff.1 h
    have hh := (OrderableVersion.read?_eq_some_iff.1 hw).2
    have hc : c ∈ (w.base.text ++ w.suffix.text).toList := hc
    rw [String.toList_append, List.mem_append] at hc
    rcases hc with hc | hc
    · exact Release.isVersionChar_of_mem hc
    · exact Suffix.isVersionChar_of_mem hh hc
  · obtain ⟨w, hw, _⟩ := Option.map_eq_some_iff.1 h
    exact FreeformVersion.isVersionChar_of_read? hw hc

theorem IsRead.text_ne_nil {v : Version} (h : v.IsRead) : v.text.toList ≠ [] := by
  intro he
  have h := h.read?_text
  have hnone : read? "" = none := by decide
  rw [String.toList_eq_nil_iff.1 he, hnone] at h
  cases h

end Version

/-! ## Bounds -/

namespace Bound

theorem isVersionChar_of_mem {b : Bound} {c : Char} (hc : c ∈ b.text.toList) :
    isVersionChar c = true := by
  have hx : ∀ x ∈ "x.x.x".toList, isVersionChar x = true := List.all_eq_true.1 (by decide)
  have hxx : ∀ x ∈ ".x.x".toList, isVersionChar x = true := List.all_eq_true.1 (by decide)
  cases b with
  | any => exact hx c hc
  | major n =>
      rw [text, String.toList_append, List.mem_append] at hc
      rcases hc with hc | hc
      · exact Numeral.isVersionChar_of_mem hc
      · exact hxx c hc
  | minor m n =>
      simp only [text, String.toList_append, List.mem_append] at hc
      rcases hc with ((hc | hc) | hc) | hc
      · exact Numeral.isVersionChar_of_mem hc
      · obtain rfl := List.mem_singleton.1 hc
        rfl
      · exact Numeral.isVersionChar_of_mem hc
      · exact hxx c (List.mem_of_mem_drop (i := 2) hc)
  | exact r => exact Release.isVersionChar_of_mem hc

theorem read?_text {b : Bound} : read? b.text = some b := read?_eq_some_iff.2 rfl

theorem read_eq_ok_iff {s : String} {b : Bound} : read s = .ok b ↔ s = b.text :=
  elim_eq_ok_iff.trans read?_eq_some_iff

theorem eq_of_text_eq {b c : Bound} (h : b.text = c.text) : b = c :=
  Option.some.inj (by rw [← read?_text, ← read?_text, h])

theorem text_ne_nil {b : Bound} : b.text.toList ≠ [] := by
  intro he
  have h : read? b.text = some b := read?_text
  have hnone : read? "" = none := by decide
  rw [String.toList_eq_nil_iff.1 he, hnone] at h
  cases h

end Bound

end ProductLock
