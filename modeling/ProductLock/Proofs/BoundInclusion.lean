import ProductLock.Proofs.VersionRange

/-!
# Tighter bounds admit less

A bound admits the releases that lie at or below it in the order of bounds. So a tighter bound
admits nothing that a looser one does not, and the tighter of two bounds admits what both admit.

For the converse there has to be a release between a bound and whatever is not as tight. It is the
bound with its last pinned number counted up and zeros after it (`Bound.exists_release_between`),
which takes a number that can be counted up in 32 bits: `1.4294967295.x` admits as much as `1.x.x`
does and is tighter all the same.

Bounds are compared here by the heights of their numbers, an open number being as high as the first
that does not fit in 32 bits.
-/

namespace ProductLock.Bound

/-- The height of a number of a bound; an open one lies above all that can be pinned. -/
def height (n : Option UInt32) : Nat := n.elim 4294967296 UInt32.toNat

theorem height_le (n : Option UInt32) : height n ≤ 4294967296 := by
  cases n with
  | none => exact Nat.le_refl _
  | some n => exact Nat.le_of_lt n.toNat_lt

theorem compareLast_eq_compare_height {m n : Option UInt32} :
    compareLast m n = compare (height m) (height n) := by
  match m, n with
  | none, none => exact (Nat.compare_eq_eq.2 rfl).symm
  | none, some n => exact (Nat.compare_eq_gt.2 n.toNat_lt).symm
  | some m, none => exact (Nat.compare_eq_lt.2 m.toNat_lt).symm
  | some m, some n =>
      show compareOfLessAndEq m n = compareOfLessAndEq m.toNat n.toNat
      simp only [compareOfLessAndEq, UInt32.lt_iff_toNat_lt, UInt32.toNat_inj]

variable {a b : Bound} {r : Release}

/-- The first number in which two bounds differ decides which of them is tighter. -/
theorem le_iff_heights : a ≤ b ↔
    height a.major? < height b.major? ∨ height a.major? = height b.major? ∧
      (height a.minor? < height b.minor? ∨ height a.minor? = height b.minor? ∧
        height a.patch? ≤ height b.patch?) := by
  have h : a ≤ b ↔ ((compareLast a.major? b.major?).then ((compareLast a.minor? b.minor?).then
    (compareLast a.patch? b.patch?))).isLE = true := Iff.rfl
  rw [h]
  simp only [compareLast_eq_compare_height, Ordering.isLE_then_iff_or, Nat.compare_eq_lt,
    Nat.compare_eq_eq, Nat.isLE_compare]

theorem exact_le_iff : exact r ≤ a ↔
    r.major.toNat < height a.major? ∨ r.major.toNat = height a.major? ∧
      (r.minor.toNat < height a.minor? ∨ r.minor.toNat = height a.minor? ∧
        r.patch.toNat ≤ height a.patch?) := le_iff_heights

theorem le_exact_iff : a ≤ exact r ↔
    height a.major? < r.major.toNat ∨ height a.major? = r.major.toNat ∧
      (height a.minor? < r.minor.toNat ∨ height a.minor? = r.minor.toNat ∧
        height a.patch? ≤ r.patch.toNat) := le_iff_heights

/-- Numbers that are left open put no limit on those of a tighter bound. -/
theorem le_minor_iff {x y : UInt32} : a ≤ minor x y ↔
    height a.major? < x.toNat ∨ height a.major? = x.toNat ∧ height a.minor? ≤ y.toNat := by
  have hpatch := height_le a.patch?
  have h : a ≤ minor x y ↔ height a.major? < x.toNat ∨ height a.major? = x.toNat ∧
    (height a.minor? < y.toNat ∨ height a.minor? = y.toNat ∧ height a.patch? ≤ 4294967296) :=
    le_iff_heights
  refine h.trans ?_
  omega

theorem le_major_iff {x : UInt32} : a ≤ major x ↔ height a.major? ≤ x.toNat := by
  have hminor := height_le a.minor?
  have hpatch := height_le a.patch?
  have h : a ≤ major x ↔ height a.major? < x.toNat ∨ height a.major? = x.toNat ∧
    (height a.minor? < 4294967296 ∨ height a.minor? = 4294967296 ∧
      height a.patch? ≤ 4294967296) := le_iff_heights
  refine h.trans ?_
  omega

theorem le_any : a ≤ any := by
  have hmajor := height_le a.major?
  have hminor := height_le a.minor?
  have hpatch := height_le a.patch?
  refine le_iff_heights.2 ?_
  show height a.major? < 4294967296 ∨ height a.major? = 4294967296 ∧
    (height a.minor? < 4294967296 ∨ height a.minor? = 4294967296 ∧ height a.patch? ≤ 4294967296)
  omega

theorem tighter_admits_iff :
    (tighter a b).admits r = true ↔ a.admits r = true ∧ b.admits r = true := by
  unfold tighter
  split
  next h =>
    have hle : b ≤ a := (Std.LawfulOrderOrd.isGE_compare a b).1 (by rw [h]; rfl)
    exact ⟨fun hb => ⟨admits_of_le hle hb, hb⟩, And.right⟩
  next h =>
    have hle : a ≤ b := Ordering.isLE_iff_ne_gt.2 h
    exact ⟨fun ha => ⟨ha, admits_of_le hle ha⟩, And.left⟩

/-- A bound whose pinned numbers are those of a release lies at or above it. -/
theorem admits_of_accepts (h : a.accepts r = true) : a.admits r = true := by
  have hpart {n : Option UInt32} {m : UInt32} (hn : n.all (· == m) = true) :
      m.toNat < height n ∨ m.toNat = height n := by
    cases n with
    | none => exact .inl m.toNat_lt
    | some n =>
        obtain rfl : n = m := by simpa using hn
        exact .inr rfl
  rw [accepts, Bool.and_eq_true, Bool.and_eq_true] at h
  obtain ⟨⟨hmajor, hminor⟩, hpatch⟩ := h
  refine admits_iff_le.2 (exact_le_iff.2 ((hpart hmajor).imp_right fun h => ⟨h, ?_⟩))
  exact (hpart hminor).imp_right fun h => ⟨h, (hpart hpatch).elim Nat.le_of_lt Nat.le_of_eq⟩

/-- The bound pins one of its numbers to `n`. -/
def Pins (b : Bound) (n : UInt32) : Prop :=
  b.major? = some n ∨ b.minor? = some n ∨ b.patch? = some n

theorem toNat_add_one {n : UInt32} (h : n ≠ 4294967295) : (n + 1).toNat = n.toNat + 1 := by
  have hne : n.toNat ≠ 4294967295 := fun he => h (UInt32.toNat_inj.1 he)
  have hlt := n.toNat_lt
  rw [UInt32.toNat_add, UInt32.toNat_one, Nat.mod_eq_of_lt (by omega)]

/-- Right above a bound there is a release, and whatever is not as tight lies at or above it. -/
theorem exists_release_between (hlimit : ∀ n, b.Pins n → n ≠ 4294967295) (h : ¬ a ≤ b) :
    ∃ r, exact r ≤ a ∧ ¬ exact r ≤ b := by
  have hzero : (0 : UInt32).toNat = 0 := rfl
  -- In each case the last number that `b` pins is counted up, and zeros follow it.
  cases b with
  | any => exact absurd le_any h
  | major x =>
      have hx := toNat_add_one (hlimit x (.inl rfl))
      rw [le_major_iff] at h
      refine ⟨⟨x + 1, 0, 0⟩, exact_le_iff.2 ?_, fun hle => ?_⟩
      · simp only [hx, hzero]
        omega
      · have hle : (x + 1).toNat ≤ x.toNat := le_major_iff.1 hle
        omega
  | minor x y =>
      have hy := toNat_add_one (hlimit y (.inr (.inl rfl)))
      have hpatch := height_le a.patch?
      rw [le_minor_iff] at h
      refine ⟨⟨x, y + 1, 0⟩, exact_le_iff.2 ?_, fun hle => ?_⟩
      · simp only [hy, hzero]
        omega
      · have hle : x.toNat < x.toNat ∨ x.toNat = x.toNat ∧ (y + 1).toNat ≤ y.toNat :=
          le_minor_iff.1 hle
        omega
  | exact q =>
      have hz := toNat_add_one (hlimit q.patch (.inr (.inr rfl)))
      rw [le_exact_iff] at h
      refine ⟨⟨q.major, q.minor, q.patch + 1⟩, exact_le_iff.2 ?_, fun hle => ?_⟩
      · simp only [hz]
        omega
      · have hle : q.major.toNat < q.major.toNat ∨ q.major.toNat = q.major.toNat ∧
            (q.minor.toNat < q.minor.toNat ∨ q.minor.toNat = q.minor.toNat ∧
              (q.patch + 1).toNat ≤ q.patch.toNat) := exact_le_iff.1 hle
        omega

/-- A last number at the limit of 32 bits shuts out no release, so there the order of bounds says
more than what they admit. -/
theorem admits_at_limit {x y : UInt32} :
    (major 4294967295).admits r = any.admits r ∧
    (minor x 4294967295).admits r = (major x).admits r ∧
    (exact ⟨x, y, 4294967295⟩).admits r = (minor x y).admits r := by
  have hmajor := r.major.toNat_lt
  have hminor := r.minor.toNat_lt
  have hpatch := r.patch.toNat_lt
  have hlimit : (4294967295 : UInt32).toNat = 4294967295 := rfl
  have hadmits {b c : Bound} (h : exact r ≤ b ↔ exact r ≤ c) : b.admits r = c.admits r := by
    rwa [← admits_iff_le, ← admits_iff_le, ← Bool.eq_iff_iff] at h
  refine ⟨hadmits ?_, hadmits ?_, hadmits ?_⟩
  · refine iff_of_true (le_major_iff.2 ?_) le_any
    show r.major.toNat ≤ (4294967295 : UInt32).toNat
    omega
  · rw [le_minor_iff, le_major_iff]
    show r.major.toNat < x.toNat ∨ r.major.toNat = x.toNat ∧
      r.minor.toNat ≤ (4294967295 : UInt32).toNat ↔ r.major.toNat ≤ x.toNat
    omega
  · rw [le_exact_iff, le_minor_iff]
    show r.major.toNat < x.toNat ∨ r.major.toNat = x.toNat ∧ (r.minor.toNat < y.toNat ∨
        r.minor.toNat = y.toNat ∧ r.patch.toNat ≤ (4294967295 : UInt32).toNat) ↔
      r.major.toNat < x.toNat ∨ r.major.toNat = x.toNat ∧ r.minor.toNat ≤ y.toNat
    omega

/-- The order of bounds is linear, and it is the inclusion of what they admit: the tighter of two
bounds admits what both admit, a looser bound admits all that a tighter one does, and a bound that
admits all that another one does is no tighter, provided that it pins no number to the limit of 32
bits. A bound that admits a version admits all lower ones, and it admits whatever it accepts. -/
theorem tightness_is_inclusion :
    (∀ a b c : Bound, (a ≤ b ∨ b ≤ a) ∧ (a ≤ b → b ≤ c → a ≤ c) ∧
      (a ≤ b ↔ compare a b ≠ .gt) ∧ compare b a = (compare a b).swap ∧
      (compare a b = .eq ↔ a = b)) ∧
    (∀ (a b : Bound) (v : OrderableVersion),
      (tighter a b).admits v.base = true ↔ a.admits v.base = true ∧ b.admits v.base = true) ∧
    (∀ a b : Bound, a ≤ b →
      ∀ v : OrderableVersion, a.admits v.base = true → b.admits v.base = true) ∧
    (∀ a b : Bound, (∀ n, b.Pins n → n ≠ 4294967295) →
      (∀ v : OrderableVersion, a.admits v.base = true → b.admits v.base = true) → a ≤ b) ∧
    (∀ (a : Bound) (v w : OrderableVersion),
      v ≤ w → a.admits w.base = true → a.admits v.base = true) ∧
    ∀ (a : Bound) (v : OrderableVersion), a.accepts v.base = true → a.admits v.base = true := by
  refine ⟨fun a b c => ?_, fun _ _ _ => tighter_admits_iff, fun _ _ h _ => admits_of_le h,
    fun a b hlimit hall => ?_, fun _ _ _ => admits_base_of_le, fun _ _ => admits_of_accepts⟩
  · exact ⟨Std.le_total, Std.le_trans, Ordering.isLE_iff_ne_gt, Std.OrientedCmp.eq_swap,
      Std.compare_eq_iff_eq⟩
  · refine Decidable.byContradiction fun h => ?_
    obtain ⟨r, hra, hrb⟩ := exists_release_between hlimit h
    exact hrb (admits_iff_le.1 (hall ⟨r, .release⟩ (admits_iff_le.2 hra)))

theorem tightness_is_inclusion_wildcards :
    (∀ v : OrderableVersion,
      (minor 1 5).admits v.base = true → (major 1).admits v.base = true) ∧
    ¬ ∀ v : OrderableVersion,
      (major 1).admits v.base = true → (minor 1 5).admits v.base = true := by
  have hlimit : ∀ n, (minor 1 5).Pins n → n ≠ 4294967295 := by
    rintro _ (⟨⟨⟩⟩ | ⟨⟨⟩⟩ | ⟨⟨⟩⟩)
    · decide
    · decide
  refine ⟨tightness_is_inclusion.2.2.1 _ _ (by decide), fun hall => ?_⟩
  exact absurd (tightness_is_inclusion.2.2.2.1 _ _ hlimit hall) (by decide)

end ProductLock.Bound
