/-!
# Numerals of 32 bits

Every number in a version or a bound is a decimal numeral below `2 ^ 32`. Two spellings are told
apart. A *plain* numeral has no needless leading zero, so it is the one text of its value, and a
text built from plain numerals can be read back exactly. A *padded* numeral may start with zeros;
where one is allowed the text is kept beside the value, because the value alone no longer
determines it.

`read?_eq_some_iff` says the first half: a plain numeral is read exactly when it is the digits of
its value.
-/

namespace ProductLock.Numeral

/-- The decimal digits of `n`, most significant first. -/
def digits (n : UInt32) : List Char := Nat.toDigits 10 n.toNat

def text (n : UInt32) : String := String.ofList (digits n)

/-- The value of a nonempty run of digits, if it fits in 32 bits. -/
def readPadded? (cs : List Char) : Option UInt32 :=
  let n := Nat.ofDigitChars 10 cs 0
  if cs ≠ [] ∧ cs.all Char.isDigit ∧ n < UInt32.size then some (UInt32.ofNat n) else none

/-- No leading zero, save for zero itself. -/
def isPlain : List Char → Bool
  | '0' :: _ :: _ => false
  | _ => true

def read? (cs : List Char) : Option UInt32 :=
  if isPlain cs then readPadded? cs else none

/-! ## Digits and their value -/

theorem isDigit_of_mem_digits {n : UInt32} {c : Char} (h : c ∈ digits n) : c.isDigit = true :=
  Nat.isDigit_of_mem_toDigits (by decide) (by decide) h

theorem not_mem_digits {n : UInt32} {c : Char} (h : c.isDigit = false) : c ∉ digits n :=
  fun hc => by simp [isDigit_of_mem_digits hc] at h

theorem digits_ne_nil {n : UInt32} : digits n ≠ [] := Nat.toDigits_ne_nil

theorem toNat_of_isDigit {c : Char} (h : c.isDigit = true) : 48 ≤ c.toNat ∧ c.toNat ≤ 57 :=
  Char.isDigit_iff_toNat.1 h

theorem digitChar_of_isDigit {c : Char} (h : c.isDigit = true) :
    Nat.digitChar (c.toNat - 48) = c := by
  have := toNat_of_isDigit h
  apply Char.toNat_inj.1
  rw [Nat.toNat_digitChar_of_lt_ten (by omega)]
  omega

/-- Digits after a positive number extend its decimal form. -/
theorem toDigits_append {cs : List Char} (h : ∀ c ∈ cs, c.isDigit = true) {n : Nat} (hn : 0 < n) :
    Nat.toDigits 10 n ++ cs = Nat.toDigits 10 (Nat.ofDigitChars 10 cs n) := by
  induction cs generalizing n with
  | nil => simp
  | cons c cs ih =>
      obtain ⟨hc, hcs⟩ := List.forall_mem_cons.1 h
      have := toNat_of_isDigit hc
      have hlt : c.toNat - 48 < 10 := by omega
      have step := Nat.toDigits_append_toDigits (b := 10) (by decide) hn hlt
      rw [Nat.toDigits_of_lt_base hlt, digitChar_of_isDigit hc] at step
      rw [Nat.ofDigitChars_cons, show '0'.toNat = 48 from rfl, ← ih hcs (by omega), ← step,
        List.append_assoc, List.singleton_append]

theorem toDigits_ofDigitChars {cs : List Char} (hne : cs ≠ []) (hd : ∀ c ∈ cs, c.isDigit = true)
    (hp : isPlain cs = true) : Nat.toDigits 10 (Nat.ofDigitChars 10 cs 0) = cs := by
  cases cs with
  | nil => exact absurd rfl hne
  | cons c cs =>
      obtain ⟨hc, hcs⟩ := List.forall_mem_cons.1 hd
      have := toNat_of_isDigit hc
      rw [Nat.ofDigitChars_cons, Nat.mul_zero, Nat.zero_add, show '0'.toNat = 48 from rfl]
      by_cases hz : c = '0'
      · subst hz
        cases cs with
        | nil => rfl
        | cons => simp [isPlain] at hp
      · have hz : c.toNat ≠ 48 := fun h => hz (Char.toNat_inj.1 h)
        rw [← toDigits_append hcs (by omega), Nat.toDigits_of_lt_base (by omega),
          digitChar_of_isDigit hc, List.singleton_append]

theorem toDigits_eq_cons {n : Nat} (hn : 0 < n) :
    ∃ c cs, Nat.toDigits 10 n = c :: cs ∧ c ≠ '0' := by
  induction n using Nat.strongRecOn with
  | _ n ih =>
      by_cases h : n < 10
      · exact ⟨n.digitChar, [], Nat.toDigits_of_lt_base h,
          fun hz => absurd (Nat.digitChar_eq_zero.1 hz) (by omega)⟩
      · obtain ⟨c, cs, hcs, hc⟩ := ih (n / 10) (by omega) (by omega)
        rw [Nat.toDigits_of_base_le (by decide) (by omega), hcs]
        exact ⟨c, cs ++ [(n % 10).digitChar], rfl, hc⟩

theorem isPlain_digits {n : UInt32} : isPlain (digits n) = true := by
  unfold digits
  by_cases hn : n.toNat = 0
  · simp [hn, isPlain]
  · obtain ⟨c, cs, hcs, hc⟩ := toDigits_eq_cons (Nat.pos_of_ne_zero hn)
    rw [hcs]
    unfold isPlain
    split
    next h => exact absurd (List.cons.inj h).1 hc
    next => rfl

/-! ## Reading -/

theorem readPadded?_eq_some_iff {cs : List Char} {n : UInt32} :
    readPadded? cs = some n ↔
      cs ≠ [] ∧ (∀ c ∈ cs, c.isDigit = true) ∧ Nat.ofDigitChars 10 cs 0 = n.toNat := by
  unfold readPadded?
  simp only [List.all_eq_true]
  split
  next h =>
    obtain ⟨hne, hd, hlt⟩ := h
    constructor
    · rintro ⟨rfl⟩
      exact ⟨hne, hd, (UInt32.toNat_ofNat_of_lt hlt).symm⟩
    · rintro ⟨_, _, he⟩
      rw [he, UInt32.ofNat_toNat]
  next h =>
    simp only [reduceCtorEq, false_iff]
    rintro ⟨hne, hd, he⟩
    exact h ⟨hne, hd, he ▸ n.toNat_lt⟩

/-- A plain numeral is read exactly when it is the digits of its value. -/
theorem read?_eq_some_iff {cs : List Char} {n : UInt32} : read? cs = some n ↔ cs = digits n := by
  unfold read?
  constructor
  · split
    next hp =>
      intro h
      obtain ⟨hne, hd, he⟩ := readPadded?_eq_some_iff.1 h
      rw [digits, ← he, toDigits_ofDigitChars hne hd hp]
    next => simp
  · rintro rfl
    rw [if_pos isPlain_digits]
    exact readPadded?_eq_some_iff.2 ⟨digits_ne_nil, fun _ h => isDigit_of_mem_digits h,
      Nat.ofDigitChars_toDigits (by decide) (by decide)⟩

theorem read?_digits {n : UInt32} : read? (digits n) = some n := read?_eq_some_iff.2 rfl

end ProductLock.Numeral
