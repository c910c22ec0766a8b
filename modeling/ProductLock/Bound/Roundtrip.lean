import ProductLock.Bound
import ProductLock.Version.Roundtrip

/-!
# Reading bounds back

A bound is written as three pieces with dots between them, and no piece holds a dot. An `x` is no
numeral, so the pieces tell the four shapes apart: reading accepts exactly the texts of bounds
(`read?_eq_some_iff`), and the wildcard forms are exactly those that leave the last number open.
-/

namespace ProductLock.Bound

def piece (n : Option UInt32) : List Char := n.elim ['x'] Numeral.digits

def pieces (b : Bound) : List (List Char) := [piece b.major?, piece b.minor?, piece b.patch?]

theorem toList_text (b : Bound) : b.text.toList = ['.'].intercalate b.pieces := by
  cases b with
  | any => rfl
  | major => simp [text, pieces, piece, major?, minor?, patch?, Numeral.text]
  | minor => simp [text, pieces, piece, major?, minor?, patch?, Numeral.text]
  | exact r => exact r.toList_text

theorem splitOn_eq_pieces_iff {cs : List Char} {b : Bound} :
    cs.splitOn '.' = b.pieces ↔ cs = b.text.toList := by
  have h (n : Option UInt32) : '.' ∉ piece n := by
    cases n with
    | none => decide
    | some n => exact Numeral.not_mem_digits rfl
  rw [toList_text]
  refine Text.splitOn_eq_iff (by simp [pieces]) fun l hl => ?_
  simp only [pieces, List.mem_cons, List.not_mem_nil, or_false] at hl
  rcases hl with rfl | rfl | rfl <;> exact h _

theorem digits_ne_x {n : UInt32} : Numeral.digits n ≠ ['x'] := fun h => by
  have : 'x' ∈ Numeral.digits n := by simp [h]
  exact Numeral.not_mem_digits rfl this

theorem pieces_of_readWildcard? {s : String} {b : Bound} (h : readWildcard? s = some b) :
    s.toList.splitOn '.' = b.pieces ∧ b.patch? = none := by
  unfold readWildcard? at h
  split at h
  next hs =>
    obtain ⟨⟩ := h
    exact ⟨hs, rfl⟩
  next hs =>
    obtain ⟨n, hn, rfl⟩ := Option.map_eq_some_iff.1 h
    rw [hs, Numeral.read?_eq_some_iff.1 hn]
    exact ⟨rfl, rfl⟩
  next hs =>
    simp only [Option.bind_eq_bind, Option.bind_eq_some_iff, Numeral.read?_eq_some_iff] at h
    obtain ⟨_, rfl, _, rfl, ⟨⟩⟩ := h
    exact ⟨hs, rfl⟩
  next => simp at h

theorem readWildcard?_of_pieces {s : String} {b : Bound} (hs : s.toList.splitOn '.' = b.pieces)
    (hb : b.patch? = none) : readWildcard? s = some b := by
  unfold readWildcard?
  cases b with
  | any => simp [hs, pieces, piece, major?, minor?, patch?]
  | major n => simp [hs, pieces, piece, major?, minor?, patch?, digits_ne_x, Numeral.read?_digits]
  | minor m n => simp [hs, pieces, piece, major?, minor?, patch?, digits_ne_x, Numeral.read?_digits]
  | exact r => simp [patch?] at hb

theorem readWildcard?_eq_some_iff {s : String} {b : Bound} :
    readWildcard? s = some b ↔ s = b.text ∧ b.patch? = none := by
  rw [← String.toList_inj, ← splitOn_eq_pieces_iff]
  exact ⟨pieces_of_readWildcard?, fun ⟨hs, hb⟩ => readWildcard?_of_pieces hs hb⟩

theorem readWildcard?_exact {r : Release} : readWildcard? (exact r).text = none := by
  cases h : readWildcard? (exact r).text with
  | none => rfl
  | some b =>
      obtain ⟨hs, hb⟩ := pieces_of_readWildcard? h
      rw [splitOn_eq_pieces_iff.2 rfl] at hs
      simp only [pieces, hb, List.cons.injEq, and_true] at hs
      exact absurd hs.2.2 digits_ne_x

/-- Reading accepts the texts of bounds and nothing else. -/
theorem read?_eq_some_iff {s : String} {b : Bound} : read? s = some b ↔ s = b.text := by
  unfold read?
  constructor
  · intro h
    rcases Option.or_eq_some_iff.1 h with h | ⟨_, h⟩
    · exact (readWildcard?_eq_some_iff.1 h).1
    · obtain ⟨r, hr, rfl⟩ := Option.map_eq_some_iff.1 h
      exact String.toList_inj.1 (Release.read?_eq_some_iff.1 hr)
  · rintro rfl
    rw [Option.or_eq_some_iff]
    match b with
    | .any | .major _ | .minor .. => exact .inl (readWildcard?_eq_some_iff.2 ⟨rfl, rfl⟩)
    | .exact r =>
        exact .inr ⟨readWildcard?_exact, by simp [text, Release.read?_eq_some_iff]⟩

end ProductLock.Bound
