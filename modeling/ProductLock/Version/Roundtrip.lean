import ProductLock.Text
import ProductLock.Version.Reading

/-!
# Reading versions back

The text of a version is put together from pieces: the three numbers of its release with dots
between them, and what follows with a dash before each piece. No piece of the one kind holds a dot
and none of the other a dash, as long as every hash is made of hexadecimal digits, so cutting the
text gives back the pieces, and reading accepts exactly what is a text of the version
(`OrderableVersion.read?_eq_some_iff`). Whatever the kind of version that is read, its text is the
text that was read (`Version.text_of_read?`).
-/

namespace ProductLock

namespace Release

def pieces (r : Release) : List (List Char) :=
  [Numeral.digits r.major, Numeral.digits r.minor, Numeral.digits r.patch]

theorem toList_text (r : Release) : r.text.toList = ['.'].intercalate r.pieces := by
  simp [text, Numeral.text, pieces]

theorem splitOn_eq_pieces_iff {cs : List Char} {r : Release} :
    cs.splitOn '.' = r.pieces ↔ cs = r.text.toList := by
  rw [toList_text]
  refine Text.splitOn_eq_iff (by simp [pieces]) fun l hl => ?_
  simp only [pieces, List.mem_cons, List.not_mem_nil, or_false] at hl
  rcases hl with rfl | rfl | rfl <;> exact Numeral.not_mem_digits rfl

theorem read?_eq_some_iff {cs : List Char} {r : Release} :
    read? cs = some r ↔ cs = r.text.toList := by
  rw [← splitOn_eq_pieces_iff]
  unfold read?
  split
  next a b c hs =>
    simp only [Option.bind_eq_bind, Option.bind_eq_some_iff, Numeral.read?_eq_some_iff, hs, pieces]
    constructor
    · rintro ⟨_, rfl, _, rfl, _, rfl, ⟨⟩⟩
      rfl
    · intro h
      simp only [List.cons.injEq, and_true] at h
      exact ⟨_, h.1, _, h.2.1, _, h.2.2, rfl⟩
  next hs =>
    simp only [reduceCtorEq, false_iff]
    exact fun h => hs _ _ _ h

theorem dash_not_mem_text {r : Release} : '-' ∉ r.text.toList := by
  have hd (n : UInt32) : '-' ∉ Numeral.digits n := Numeral.not_mem_digits rfl
  simp [toList_text, pieces, hd]

end Release

namespace Revision

/-- A hash that can be read back: hexadecimal digits in lower case, at least one. -/
def IsHash (s : String) : Prop := s.toList ≠ [] ∧ ∀ c ∈ s.toList, isHashDigit c = true

def pieces (r : Revision) : List (List Char) := [Numeral.digits r.commits, 'g' :: r.hash.toList]

theorem read?_eq_some_iff {n h : List Char} {r : Revision} :
    read? n h = some r ↔ [n, h] = r.pieces ∧ IsHash r.hash := by
  unfold read?
  split
  next digits =>
    simp only [List.all_eq_true]
    split
    next hh =>
      simp only [Option.map_eq_some_iff, Numeral.read?_eq_some_iff, pieces, List.cons.injEq,
        true_and, and_true]
      constructor
      · rintro ⟨_, rfl, rfl⟩
        simpa [IsHash] using hh
      · rintro ⟨⟨rfl, rfl⟩, _⟩
        exact ⟨r.commits, rfl, by simp⟩
    next hh =>
      simp only [reduceCtorEq, false_iff, pieces, List.cons.injEq, and_true, true_and]
      rintro ⟨⟨_, rfl⟩, h⟩
      exact hh h
  next hg =>
    simp only [reduceCtorEq, false_iff, pieces, List.cons.injEq, and_true]
    rintro ⟨⟨_, rfl⟩, _⟩
    exact hg _ rfl

theorem dash_not_mem_pieces {r : Revision} (h : IsHash r.hash) : ∀ l ∈ r.pieces, '-' ∉ l := by
  simp only [pieces, List.mem_cons, List.not_mem_nil, or_false, forall_eq_or_imp, forall_eq, not_or]
  exact ⟨Numeral.not_mem_digits rfl, by decide, fun hd => absurd (h.2 _ hd) (by decide)⟩

end Revision

namespace Suffix

def candidatePiece (n : UInt32) : List Char := 'r' :: 'c' :: Numeral.digits n

/-- The pieces that have a dash before them. -/
def pieces : Suffix → List (List Char)
  | .release => []
  | .candidate n none => [candidatePiece n]
  | .candidate n (some r) => candidatePiece n :: r.pieces
  | .revision r => r.pieces

/-- The hash, if there is one, can be read back. -/
def HasHash (s : Suffix) : Prop := ∀ r, s.revision? = some r → Revision.IsHash r.hash

theorem dash_not_mem_pieces {s : Suffix} (h : s.HasHash) : ∀ l ∈ s.pieces, '-' ∉ l := by
  have hc (n : UInt32) : '-' ∉ candidatePiece n := by
    have : '-' ∉ Numeral.digits n := Numeral.not_mem_digits rfl
    simp [candidatePiece, this]
  match s with
  | .release => simp [pieces]
  | .candidate n none => simp [pieces, hc]
  | .candidate n (some r) =>
      exact List.forall_mem_cons.2 ⟨hc n, Revision.dash_not_mem_pieces (h r rfl)⟩
  | .revision r => exact Revision.dash_not_mem_pieces (h r rfl)

end Suffix

namespace OrderableVersion

def pieces (v : OrderableVersion) : List (List Char) := v.base.text.toList :: v.suffix.pieces

theorem toList_text (v : OrderableVersion) : v.text.toList = ['-'].intercalate v.pieces := by
  match v with
  | ⟨_, .release⟩ => simp [text, pieces, Suffix.pieces, Suffix.text]
  | ⟨_, .candidate _ none⟩ =>
      simp [text, pieces, Suffix.pieces, Suffix.text, Suffix.candidatePiece, Numeral.text]
  | ⟨_, .candidate _ (some _)⟩ =>
      simp [text, pieces, Suffix.pieces, Suffix.text, Suffix.candidatePiece, Revision.pieces,
        Revision.text, Numeral.text]
  | ⟨_, .revision _⟩ =>
      simp [text, pieces, Suffix.pieces, Suffix.text, Revision.pieces, Revision.text, Numeral.text]

theorem splitOn_eq_pieces_iff {cs : List Char} {v : OrderableVersion} (h : v.suffix.HasHash) :
    cs.splitOn '-' = v.pieces ↔ cs = v.text.toList := by
  rw [toList_text]
  exact Text.splitOn_eq_iff (by simp [pieces]) (List.forall_mem_cons.2
    ⟨Release.dash_not_mem_text, Suffix.dash_not_mem_pieces h⟩)

theorem candidate?_eq_some_iff {cs : List Char} {n : UInt32} :
    candidate? cs = some n ↔ cs = Suffix.candidatePiece n := by
  unfold candidate?
  split
  next => simp [Numeral.read?_eq_some_iff, Suffix.candidatePiece]
  next h =>
    simp only [reduceCtorEq, false_iff]
    exact fun hc => h _ hc

theorem splitOn_of_read? {cs : List Char} {v : OrderableVersion} (h : read? cs = some v) :
    cs.splitOn '-' = v.pieces ∧ v.suffix.HasHash := by
  unfold read? at h
  split at h
  next hs =>
    simp only [Option.bind_eq_bind, Option.bind_eq_some_iff, Release.read?_eq_some_iff] at h
    obtain ⟨_, rfl, ⟨⟩⟩ := h
    exact ⟨hs, nofun⟩
  next hs =>
    simp only [Option.bind_eq_bind, Option.bind_eq_some_iff, Release.read?_eq_some_iff,
      candidate?_eq_some_iff] at h
    obtain ⟨_, rfl, _, rfl, ⟨⟩⟩ := h
    exact ⟨hs, nofun⟩
  next hs =>
    simp only [Option.bind_eq_bind, Option.bind_eq_some_iff, Release.read?_eq_some_iff,
      Revision.read?_eq_some_iff] at h
    obtain ⟨_, rfl, _, ⟨hp, hh⟩, ⟨⟩⟩ := h
    exact ⟨by rw [hs, hp]; rfl, by rintro _ ⟨⟩; exact hh⟩
  next hs =>
    simp only [Option.bind_eq_bind, Option.bind_eq_some_iff, Release.read?_eq_some_iff,
      candidate?_eq_some_iff, Revision.read?_eq_some_iff] at h
    obtain ⟨_, rfl, _, rfl, _, ⟨hp, hh⟩, ⟨⟩⟩ := h
    exact ⟨by rw [hs, hp]; rfl, by rintro _ ⟨⟩; exact hh⟩
  next => simp at h

theorem read?_of_splitOn {cs : List Char} {v : OrderableVersion} (hs : cs.splitOn '-' = v.pieces)
    (hh : v.suffix.HasHash) : read? cs = some v := by
  obtain ⟨base, suffix⟩ := v
  have hb := Release.read?_eq_some_iff.2 (rfl : base.text.toList = _)
  have hc (n : UInt32) := candidate?_eq_some_iff.2 (rfl : Suffix.candidatePiece n = _)
  unfold read?
  match suffix with
  | .release => simp [hs, pieces, Suffix.pieces, hb]
  | .candidate n none => simp [hs, pieces, Suffix.pieces, hb, hc]
  | .candidate n (some r) =>
      have hr := Revision.read?_eq_some_iff.2 ⟨rfl, hh r rfl⟩
      simp [hs, pieces, Suffix.pieces, Revision.pieces, hb, hc, hr]
  | .revision r =>
      have hr := Revision.read?_eq_some_iff.2 ⟨rfl, hh r rfl⟩
      simp [hs, pieces, Suffix.pieces, Revision.pieces, hb, hr]

/-- Reading accepts the texts of versions and nothing else. -/
theorem read?_eq_some_iff {cs : List Char} {v : OrderableVersion} :
    read? cs = some v ↔ cs = v.text.toList ∧ v.suffix.HasHash := by
  constructor
  · intro h
    obtain ⟨hs, hh⟩ := splitOn_of_read? h
    exact ⟨(splitOn_eq_pieces_iff hh).1 hs, hh⟩
  · rintro ⟨hcs, hh⟩
    exact read?_of_splitOn ((splitOn_eq_pieces_iff hh).2 hcs) hh

end OrderableVersion

theorem FreeformVersion.text_of_read? {cs : List Char} {v : FreeformVersion}
    (h : read? cs = some v) : v.text = String.ofList cs := by
  unfold read? at h
  split at h
  · split at h
    · simp only [Option.bind_eq_bind, Option.bind_eq_some_iff] at h
      obtain ⟨_, _, _, _, _, _, ⟨⟩⟩ := h
      rfl
    · simp at h
  · simp at h

namespace Version

theorem read?_text {v : OrderableVersion} (h : v.suffix.HasHash) :
    read? v.text = some (.orderable v) := by
  have := OrderableVersion.read?_eq_some_iff.2 ⟨rfl, h⟩
  simp [read?, this]

/-- A version that is read has the text that was read. -/
theorem text_of_read? {s : String} {v : Version} (h : read? s = some v) : v.text = s := by
  unfold read? at h
  rcases Option.or_eq_some_iff.1 h with h | ⟨_, h⟩
  · obtain ⟨v, hv, rfl⟩ := Option.map_eq_some_iff.1 h
    exact String.toList_inj.1 (OrderableVersion.read?_eq_some_iff.1 hv).1.symm
  · obtain ⟨v, hv, rfl⟩ := Option.map_eq_some_iff.1 h
    exact (FreeformVersion.text_of_read? hv).trans String.ofList_toList

end Version

end ProductLock
