/-!
# Characters and lines

A character is blank when it has the Unicode property White_Space; names may not hold one, and a
line of a lock file ends at its last character that is not blank. Text is compared and sorted by
code point throughout, which is the order of `String` and of the UTF-8 bytes alike.

Where a text escapes a character by its code, the code is written in hexadecimal digits.
-/

namespace ProductLock.Text

/-- The Unicode property White_Space. -/
def isBlank (c : Char) : Bool :=
  let n := c.toNat
  (9 ≤ n && n ≤ 13) || n == 0x20 || n == 0x85 || n == 0xA0 || n == 0x1680
    || (0x2000 ≤ n && n ≤ 0x200A) || n == 0x2028 || n == 0x2029 || n == 0x202F || n == 0x205F
    || n == 0x3000

def trimRight (cs : List Char) : List Char := (cs.reverse.dropWhile isBlank).reverse

/-- The pieces of a cut text hold none of the characters it was cut at. -/
theorem eq_false_of_mem_splitOnP {p : Char → Bool} {cs piece : List Char}
    (h : piece ∈ cs.splitOnP p) : ∀ c ∈ piece, p c = false := by
  induction cs generalizing piece with
  | nil =>
      obtain rfl : piece = [] := by simpa [List.splitOnP_nil] using h
      simp
  | cons c cs ih =>
      rw [List.splitOnP_cons_eq_if_modifyHead] at h
      split at h
      · rcases List.mem_cons.1 h with rfl | h
        · simp
        · exact ih h
      next hc =>
        obtain ⟨first, rest, hs⟩ := List.exists_cons_of_ne_nil (List.splitOnP_ne_nil p cs)
        rw [hs] at h ih
        rw [List.modifyHead_cons] at h
        rcases List.mem_cons.1 h with rfl | h
        · exact List.forall_mem_cons.2 ⟨by simpa using hc, ih (.head rest)⟩
        · exact ih (.tail first h)

theorem not_mem_of_mem_splitOn {x : Char} {cs piece : List Char} (h : piece ∈ cs.splitOn x) :
    x ∉ piece := fun hx => by
  have := eq_false_of_mem_splitOnP h x hx
  simp at this

/-- Cutting at a character undoes joining pieces that do not hold it. -/
theorem splitOn_eq_iff {x : Char} {cs : List Char} {pieces : List (List Char)} (hne : pieces ≠ [])
    (h : ∀ l ∈ pieces, x ∉ l) : cs.splitOn x = pieces ↔ cs = [x].intercalate pieces := by
  constructor
  · rintro rfl
    exact (List.intercalate_splitOn x).symm
  · rintro rfl
    exact List.splitOn_intercalate x h hne

/-- The lines of a text without their line feeds; what follows the last line feed is a line too. -/
def lines (s : String) : List (List Char) := s.toList.splitOn '\n'

end ProductLock.Text

namespace ProductLock.Hexadecimal

def digit? (c : Char) : Option Nat :=
  if c.isDigit then some (c.toNat - '0'.toNat)
  else if 'a' ≤ c ∧ c ≤ 'f' then some (c.toNat - 'a'.toNat + 10)
  else if 'A' ≤ c ∧ c ≤ 'F' then some (c.toNat - 'A'.toNat + 10)
  else none

/-- The value of hexadecimal digits in either case, most significant first. -/
def value? (cs : List Char) : Option Nat :=
  cs.foldlM (fun n c => (digit? c).map (16 * n + ·)) 0

/-- The last hexadecimal digit of a number, in lower case. -/
def digit (n : Nat) : Char := Nat.digitChar (n % 16)

end ProductLock.Hexadecimal
