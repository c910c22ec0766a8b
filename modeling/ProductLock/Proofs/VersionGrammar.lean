import ProductLock.Proofs.VersionForm

/-!
# The grammar of versions

Which texts are versions is said here by two grammars over characters, apart from the way in which
texts are cut when they are read. In an orderable text every number is plain; in a freeform text
the first three numbers may have leading zeros, and what follows them is any run of segments. Both
grammars speak of numbers of any size.

A text is orderable if it has an orderable form whose numbers all fit in 32 bits. Every orderable
form is a freeform one as well, so what happens to a text with a number that does not fit depends
on which number that is: a candidate number or a count of commits is then one more segment, while
a text whose first three numbers do not fit is no version.
-/

namespace ProductLock

/-! ## Numbers -/

namespace Numeral

/-- A nonempty run of digits and its value, of any size. -/
structure Writes (s : String) (n : Nat) : Prop where
  ne_empty : s ≠ ""
  isDigit : ∀ c ∈ s.toList, c.isDigit = true
  value : Nat.ofDigitChars 10 s.toList 0 = n

/-- A number with no leading zero, save for zero itself. -/
structure WritesPlain (s : String) (n : Nat) : Prop extends Writes s n where
  zero : s.toList.head? = some '0' → s = "0"

theorem toList_ne_nil {s : String} (h : s ≠ "") : s.toList ≠ [] :=
  fun he => h (String.toList_eq_nil_iff.1 he)

theorem readPadded?_toList_eq_some_iff {s : String} {n : UInt32} :
    readPadded? s.toList = some n ↔ Writes s n.toNat := by
  rw [readPadded?_eq_some_iff]
  refine ⟨fun h => ⟨fun he => h.1 ?_, h.2.1, h.2.2⟩, fun h =>
    ⟨toList_ne_nil h.ne_empty, h.isDigit, h.value⟩⟩
  rw [he, String.toList_empty]

theorem isPlain_of_writesPlain {s : String} {n : Nat} (h : WritesPlain s n) :
    isPlain s.toList = true := by
  unfold isPlain
  split
  next hs =>
    have hzero := h.zero (by rw [hs]; rfl)
    rw [hzero] at hs
    cases hs
  next => rfl

/-- A plain number is the digits of its value. -/
theorem writesPlain_iff {s : String} {n : Nat} :
    WritesPlain s n ↔ s.toList = Nat.toDigits 10 n := by
  constructor
  · intro h
    rw [← h.value, toDigits_ofDigitChars (toList_ne_nil h.ne_empty) h.isDigit
      (isPlain_of_writesPlain h)]
  · intro h
    have hdigit : ∀ c ∈ s.toList, c.isDigit = true := by
      rw [h]
      exact fun _ => isDigit_of_mem_toDigits
    have hne : s ≠ "" := fun he =>
      Nat.toDigits_ne_nil (h.symm.trans (String.toList_eq_nil_iff.2 he))
    refine ⟨⟨hne, hdigit, by rw [h, Nat.ofDigitChars_ten_toDigits]⟩, fun hhead => ?_⟩
    rcases Nat.eq_zero_or_pos n with rfl | hn
    · exact String.toList_inj.1 h
    · obtain ⟨c, cs, hcs, hc⟩ := toDigits_eq_cons hn
      rw [h, hcs] at hhead
      exact absurd (Option.some.inj hhead) hc

theorem writesPlain_toDigits (n : Nat) : WritesPlain (String.ofList (Nat.toDigits 10 n)) n :=
  writesPlain_iff.2 String.toList_ofList

end Numeral

open Numeral (Writes WritesPlain)

/-- Three numbers with dots between them, each written as the grammar of numbers says. -/
def Numbers.Written (W : String → Nat → Prop) (n : Numbers) (s : String) : Prop :=
  ∃ x y z, W x n.major ∧ W y n.minor ∧ W z n.patch ∧ s = x ++ "." ++ y ++ "." ++ z

/-! ## Orderable texts -/

/-- The four forms `1.2.3`, `1.2.3-rc4`, `1.2.3-5-gabc123` and `1.2.3-rc4-5-gabc123`. -/
inductive IsOrderableText : String → VersionForm → Prop
  | release {r : String} {n : Numbers} (hr : n.Written WritesPlain r) :
      IsOrderableText r ⟨n, none, none⟩
  | candidate {r c : String} {n : Numbers} {k : Nat} (hr : n.Written WritesPlain r)
      (hc : WritesPlain c k) : IsOrderableText (r ++ "-rc" ++ c) ⟨n, some k, none⟩
  | build {r m h : String} {n : Numbers} {j : Nat} (hr : n.Written WritesPlain r)
      (hm : WritesPlain m j) (hh : Revision.IsHash h) :
      IsOrderableText (r ++ "-" ++ m ++ "-g" ++ h) ⟨n, none, some (j, h)⟩
  | candidateBuild {r c m h : String} {n : Numbers} {k j : Nat} (hr : n.Written WritesPlain r)
      (hc : WritesPlain c k) (hm : WritesPlain m j) (hh : Revision.IsHash h) :
      IsOrderableText (r ++ "-rc" ++ c ++ "-" ++ m ++ "-g" ++ h) ⟨n, some k, some (j, h)⟩

theorem Numbers.written_plain_iff {n : Numbers} {s : String} :
    n.Written WritesPlain s ↔ s.toList = n.chars := by
  constructor
  · rintro ⟨x, y, z, hx, hy, hz, rfl⟩
    simp [chars, Numeral.writesPlain_iff.1 hx, Numeral.writesPlain_iff.1 hy,
      Numeral.writesPlain_iff.1 hz]
  · intro h
    refine ⟨_, _, _, Numeral.writesPlain_toDigits _, Numeral.writesPlain_toDigits _,
      Numeral.writesPlain_toDigits _, String.toList_inj.1 ?_⟩
    simp [h, chars]

namespace IsOrderableText

theorem toList_eq_chars {s : String} {f : VersionForm} (h : IsOrderableText s f) :
    s.toList = f.chars := by
  cases h with
  | release hr =>
      simp [VersionForm.chars, VersionForm.candidateChars, VersionForm.buildChars,
        Numbers.written_plain_iff.1 hr]
  | candidate hr hc =>
      simp [VersionForm.chars, VersionForm.candidateChars, VersionForm.buildChars,
        Numbers.written_plain_iff.1 hr, Numeral.writesPlain_iff.1 hc]
  | build hr hm _ =>
      simp [VersionForm.chars, VersionForm.candidateChars, VersionForm.buildChars,
        Numbers.written_plain_iff.1 hr, Numeral.writesPlain_iff.1 hm]
  | candidateBuild hr hc hm _ =>
      simp [VersionForm.chars, VersionForm.candidateChars, VersionForm.buildChars,
        Numbers.written_plain_iff.1 hr, Numeral.writesPlain_iff.1 hc, Numeral.writesPlain_iff.1 hm]

theorem isHash {s : String} {f : VersionForm} (h : IsOrderableText s f) :
    ∀ b ∈ f.build, Revision.IsHash b.2 := by
  cases h with
  | release => nofun
  | candidate => nofun
  | build _ _ hh =>
      rintro _ ⟨⟩
      exact hh
  | candidateBuild _ _ _ hh =>
      rintro _ ⟨⟩
      exact hh

/-- Whatever the numbers, a form with a hash that can be read has a text. -/
theorem exists_text {f : VersionForm} (hh : ∀ b ∈ f.build, Revision.IsHash b.2) :
    ∃ s, IsOrderableText s f := by
  obtain ⟨n, candidate, build⟩ := f
  have hr : n.Written WritesPlain (String.ofList n.chars) :=
    Numbers.written_plain_iff.2 String.toList_ofList
  have hplain := Numeral.writesPlain_toDigits
  cases candidate with
  | none =>
      cases build with
      | none => exact ⟨_, .release hr⟩
      | some b => exact ⟨_, .build hr (hplain b.1) (hh b rfl)⟩
  | some k =>
      cases build with
      | none => exact ⟨_, .candidate hr (hplain k)⟩
      | some b => exact ⟨_, .candidateBuild hr (hplain k) (hplain b.1) (hh b rfl)⟩

theorem iff_toList_eq_chars {s : String} {f : VersionForm} :
    IsOrderableText s f ↔ s.toList = f.chars ∧ ∀ b ∈ f.build, Revision.IsHash b.2 := by
  refine ⟨fun h => ⟨h.toList_eq_chars, h.isHash⟩, fun ⟨hs, hh⟩ => ?_⟩
  obtain ⟨t, ht⟩ := exists_text hh
  obtain rfl : t = s := String.toList_inj.1 (ht.toList_eq_chars.trans hs.symm)
  exact ht

/-- A text is of one form at most. -/
theorem unique {s : String} {f g : VersionForm} (hf : IsOrderableText s f)
    (hg : IsOrderableText s g) : f = g :=
  VersionForm.eq_of_chars_eq (hf.toList_eq_chars.symm.trans hg.toList_eq_chars)

end IsOrderableText

theorem OrderableVersion.read?_eq_some_iff_isOrderableText {s : String} {v : OrderableVersion} :
    read? s.toList = some v ↔ IsOrderableText s v.form := by
  rw [read?_eq_some_iff, IsOrderableText.iff_toList_eq_chars, toList_text_eq_chars]
  refine and_congr_right fun _ => ⟨fun h b hb => ?_, fun h r hr => ?_⟩
  · obtain ⟨r, hr, rfl⟩ := Option.map_eq_some_iff.1 hb
    exact h r hr
  · exact h (r.commits.toNat, r.hash) (Option.map_eq_some_iff.2 ⟨r, hr, rfl⟩)

/-! ## Freeform texts -/

/-- Any number of segments, each with a dot or a dash before it. -/
inductive Segments : String → Prop
  | nil : Segments ""
  | cons {mark segment rest : String} (hmark : mark = "." ∨ mark = "-") (hne : segment ≠ "")
      (hchars : ∀ c ∈ segment.toList, c.isAlphanum = true) (hrest : Segments rest) :
      Segments (mark ++ segment ++ rest)

/-- Three numbers that may have leading zeros, then segments. -/
def IsFreeformText (s : String) (n : Numbers) : Prop :=
  ∃ r t, n.Written Writes r ∧ Segments t ∧ s = r ++ t

namespace FreeformVersion

theorem isSeparator_iff {c : Char} : isSeparator c = true ↔ c = '.' ∨ c = '-' := by
  simp [isSeparator]

theorem isSeparator_of_isAlphanum {c : Char} (h : c.isAlphanum = true) : isSeparator c = false := by
  rw [Bool.eq_false_iff, ne_eq, isSeparator_iff]
  rintro (rfl | rfl)
  · exact absurd h (by decide)
  · exact absurd h (by decide)

theorem isSeparator_of_isDigit {c : Char} (h : c.isDigit = true) : isSeparator c = false :=
  isSeparator_of_isAlphanum (Text.isAlphanum_of_isDigit h)

theorem isSegment_iff {s : String} :
    isSegment s.toList = true ↔ s ≠ "" ∧ ∀ c ∈ s.toList, c.isAlphanum = true := by
  rw [isSegment, Bool.and_eq_true, decide_eq_true_eq, List.all_eq_true, ne_eq,
    String.toList_eq_nil_iff]

/-- Segments after a piece are cut off it one by one. -/
theorem splitOnP_append_segments {t : String} (h : Segments t) {piece : List Char}
    (hp : ∀ c ∈ piece, isSeparator c = false) :
    ∃ segments, (piece ++ t.toList).splitOnP isSeparator = piece :: segments ∧
      segments.all isSegment = true := by
  induction h generalizing piece with
  | nil =>
      refine ⟨[], ?_, rfl⟩
      rw [String.toList_empty, List.append_nil, List.splitOnP_eq_singleton hp]
  | @cons mark segment rest hmark hne hchars _ ih =>
      -- What follows the segment is cut with the segment as its piece.
      obtain ⟨segments, hs, hall⟩ := ih fun c hc => isSeparator_of_isAlphanum (hchars c hc)
      have hx : ∃ x, mark.toList = [x] ∧ isSeparator x = true := by
        rcases hmark with rfl | rfl
        · exact ⟨'.', rfl, rfl⟩
        · exact ⟨'-', rfl, rfl⟩
      obtain ⟨x, hmark, hx⟩ := hx
      refine ⟨segment.toList :: segments, ?_, ?_⟩
      · rw [String.toList_append, String.toList_append, hmark, List.append_assoc,
          List.singleton_append, List.splitOnP_append_cons_of_forall_mem hp x hx, hs]
      · rw [List.all_cons, isSegment_iff.2 ⟨hne, hchars⟩, hall]
        rfl

theorem segments_of_splitOnP {cs piece : List Char} {segments : List (List Char)}
    (hs : cs.splitOnP isSeparator = piece :: segments) (hall : segments.all isSegment = true) :
    ∃ t, Segments t ∧ cs = piece ++ t.toList := by
  induction segments generalizing cs piece with
  | nil =>
      refine ⟨"", .nil, ?_⟩
      rw [String.toList_empty, List.append_nil, Text.of_splitOnP_eq_singleton hs]
  | cons segment segments ih =>
      obtain ⟨x, rest, rfl, hrest, _, hx⟩ := Text.of_splitOnP_eq_cons_cons hs
      rw [List.all_cons, Bool.and_eq_true] at hall
      obtain ⟨hsegment, hall⟩ := hall
      obtain ⟨t, ht, rfl⟩ := ih hrest hall
      rw [← String.toList_ofList (l := segment)] at hsegment
      obtain ⟨hne, hchars⟩ := isSegment_iff.1 hsegment
      rcases isSeparator_iff.1 hx with rfl | rfl
      · exact ⟨"." ++ String.ofList segment ++ t, .cons (.inl rfl) hne hchars ht, by simp⟩
      · exact ⟨"-" ++ String.ofList segment ++ t, .cons (.inr rfl) hne hchars ht, by simp⟩

end FreeformVersion

open FreeformVersion (isSeparator isSegment)

/-- A text is freeform if cutting it at its dots and dashes gives three numbers with dots after the
first two, and then segments. -/
theorem isFreeformText_iff {s : String} {n : Numbers} :
    IsFreeformText s n ↔ ∃ x y z segments marks,
      Writes x n.major ∧ Writes y n.minor ∧ Writes z n.patch ∧
      s.toList.splitOnP isSeparator = x.toList :: y.toList :: z.toList :: segments ∧
      s.toList.filter isSeparator = '.' :: '.' :: marks ∧ segments.all isSegment = true := by
  constructor
  · rintro ⟨_, t, ⟨x, y, z, hx, hy, hz, rfl⟩, ht, rfl⟩
    have hsep {w : String} {k : Nat} (hw : Writes w k) : ∀ c ∈ w.toList, isSeparator c = false :=
      fun c hc => FreeformVersion.isSeparator_of_isDigit (hw.isDigit c hc)
    have hchars : (x ++ "." ++ y ++ "." ++ z ++ t).toList =
        x.toList ++ '.' :: (y.toList ++ '.' :: (z.toList ++ t.toList)) := by simp
    obtain ⟨segments, hs, hall⟩ := FreeformVersion.splitOnP_append_segments ht (hsep hz)
    refine ⟨x, y, z, segments, (z.toList ++ t.toList).filter isSeparator, hx, hy, hz, ?_, ?_, hall⟩
    · rw [hchars, List.splitOnP_append_cons_of_forall_mem (hsep hx) '.' rfl,
        List.splitOnP_append_cons_of_forall_mem (hsep hy) '.' rfl, hs]
    · have hnone {w : String} {k : Nat} (hw : Writes w k) : w.toList.filter isSeparator = [] :=
        List.filter_eq_nil_iff.2 fun c hc => by simp [hsep hw c hc]
      rw [hchars, List.filter_append, hnone hx, List.nil_append, List.filter_cons_of_pos rfl,
        List.filter_append, hnone hy, List.nil_append, List.filter_cons_of_pos rfl]
  · rintro ⟨x, y, z, segments, marks, hx, hy, hz, hs, hf, hall⟩
    -- The first two cuts are undone one by one, and the marks say that both were made at dots.
    obtain ⟨c, rest, hcs, hrest, hfilter, _⟩ := Text.of_splitOnP_eq_cons_cons hs
    obtain ⟨rfl, hf⟩ := List.cons.inj (hfilter.symm.trans hf)
    obtain ⟨d, rest', rfl, hrest', hfilter', _⟩ := Text.of_splitOnP_eq_cons_cons hrest
    obtain ⟨rfl, _⟩ := List.cons.inj (hfilter'.symm.trans hf)
    obtain ⟨t, ht, rfl⟩ := FreeformVersion.segments_of_splitOnP hrest' hall
    refine ⟨_, t, ⟨x, y, z, hx, hy, hz, rfl⟩, ht, String.toList_inj.1 ?_⟩
    rw [hcs]
    simp

theorem IsFreeformText.unique {s : String} {m n : Numbers} (hm : IsFreeformText s m)
    (hn : IsFreeformText s n) : m = n := by
  obtain ⟨x, y, z, _, _, hx, hy, hz, hs, _⟩ := isFreeformText_iff.1 hm
  obtain ⟨x', y', z', _, _, hx', hy', hz', hs', _⟩ := isFreeformText_iff.1 hn
  rw [hs] at hs'
  simp only [List.cons.injEq, String.toList_inj] at hs'
  obtain ⟨rfl, rfl, rfl, _⟩ := hs'
  have hvalue {w : String} {j k : Nat} (hj : Writes w j) (hk : Writes w k) : j = k :=
    hj.value.symm.trans hk.value
  cases m
  cases n
  rw [Numbers.mk.injEq]
  exact ⟨hvalue hx hx', hvalue hy hy', hvalue hz hz'⟩

theorem FreeformVersion.read?_eq_some_iff {s : String} {v : FreeformVersion} :
    read? s.toList = some v ↔ IsFreeformText s v.base.numbers ∧ v.text = s := by
  rw [isFreeformText_iff]
  constructor
  · intro h
    have htext : v.text = s := (text_of_read? h).trans String.ofList_toList
    unfold read? at h
    split at h
    next major minor patch segments marks hs hf =>
      rw [Option.ite_none_right_eq_some] at h
      obtain ⟨hall, h⟩ := h
      simp only [Option.bind_eq_bind, Option.bind_eq_some_iff] at h
      obtain ⟨a, ha, b, hb, c, hc, h⟩ := h
      obtain rfl := Option.some.inj h
      have hwrites {cs : List Char} {n : UInt32} (hn : Numeral.readPadded? cs = some n) :
          Writes (String.ofList cs) n.toNat := by
        rwa [← Numeral.readPadded?_toList_eq_some_iff, String.toList_ofList]
      refine ⟨⟨_, _, _, segments, marks, hwrites ha, hwrites hb, hwrites hc, ?_, hf, hall⟩, htext⟩
      rw [hs, String.toList_ofList, String.toList_ofList, String.toList_ofList]
    next => cases h
  · rintro ⟨⟨x, y, z, segments, marks, hx, hy, hz, hs, hf, hall⟩, rfl⟩
    unfold read?
    rw [hs, hf]
    simp only [hall, if_true, Numeral.readPadded?_toList_eq_some_iff.2 hx,
      Numeral.readPadded?_toList_eq_some_iff.2 hy, Numeral.readPadded?_toList_eq_some_iff.2 hz,
      Option.bind_eq_bind, Option.bind_some, String.ofList_toList]
    rfl

/-! ## Orderable texts are freeform texts -/

theorem Numbers.Written.mono {W W' : String → Nat → Prop} {n : Numbers} {s : String}
    (hW : ∀ x k, W x k → W' x k) (h : n.Written W s) : n.Written W' s := by
  obtain ⟨x, y, z, hx, hy, hz, hs⟩ := h
  exact ⟨x, y, z, hW _ _ hx, hW _ _ hy, hW _ _ hz, hs⟩

namespace Segments

theorem isAlphanum_of_writesPlain {s : String} {n : Nat} (h : WritesPlain s n) :
    ∀ c ∈ s.toList, c.isAlphanum = true :=
  fun c hc => Text.isAlphanum_of_isDigit (h.isDigit c hc)

theorem cons_candidate {c t : String} {k : Nat} (hc : WritesPlain c k) (ht : Segments t) :
    Segments ("-rc" ++ c ++ t) := by
  have hchars : ∀ x ∈ ("rc" ++ c).toList, x.isAlphanum = true := by
    simpa using isAlphanum_of_writesPlain hc
  have htext : "-rc" ++ c ++ t = "-" ++ ("rc" ++ c) ++ t := String.toList_inj.1 (by simp)
  rw [htext]
  exact .cons (.inr rfl) (by simp) hchars ht

theorem build {m h : String} {j : Nat} (hm : WritesPlain m j) (hh : Revision.IsHash h) :
    Segments ("-" ++ m ++ "-g" ++ h) := by
  have hchars : ∀ x ∈ ("g" ++ h).toList, x.isAlphanum = true := by
    simpa using fun x hx => Revision.isAlphanum_of_isHashDigit (hh.2 x hx)
  have htext : "-" ++ m ++ "-g" ++ h = "-" ++ m ++ ("-" ++ ("g" ++ h) ++ "") :=
    String.toList_inj.1 (by simp)
  rw [htext]
  exact .cons (.inr rfl) hm.ne_empty (isAlphanum_of_writesPlain hm)
    (.cons (.inr rfl) (by simp) hchars .nil)

end Segments

theorem IsOrderableText.isFreeformText {s : String} {f : VersionForm} (h : IsOrderableText s f) :
    IsFreeformText s f.numbers := by
  have hplain {n : Numbers} {r : String} (hr : n.Written WritesPlain r) : n.Written Writes r :=
    hr.mono fun _ _ hx => hx.toWrites
  cases h with
  | release hr => exact ⟨_, "", hplain hr, .nil, String.append_empty.symm⟩
  | candidate hr hc =>
      exact ⟨_, _, hplain hr, .cons_candidate hc .nil, by simp [String.append_assoc]⟩
  | build hr hm hh => exact ⟨_, _, hplain hr, .build hm hh, by simp [String.append_assoc]⟩
  | candidateBuild hr hc hm hh =>
      exact ⟨_, _, hplain hr, .cons_candidate hc (.build hm hh), by simp [String.append_assoc]⟩

/-! ## Which texts are versions -/

def Numbers.Fit (n : Numbers) : Prop :=
  n.major ≤ 4294967295 ∧ n.minor ≤ 4294967295 ∧ n.patch ≤ 4294967295

/-- All numbers fit in 32 bits. -/
def VersionForm.Fits (f : VersionForm) : Prop :=
  f.numbers.Fit ∧ (∀ n ∈ f.candidate, n ≤ 4294967295) ∧ ∀ b ∈ f.build, b.1 ≤ 4294967295

theorem Numeral.exists_toNat_eq {n : Nat} (h : n ≤ 4294967295) : ∃ k : UInt32, k.toNat = n :=
  ⟨.ofNat n, UInt32.toNat_ofNat_of_lt (Nat.lt_succ_of_le h)⟩

theorem Numeral.toNat_le (n : UInt32) : n.toNat ≤ 4294967295 := Nat.le_of_lt_succ n.toNat_lt

theorem Numbers.fit_iff {n : Numbers} : n.Fit ↔ ∃ r : Release, r.numbers = n := by
  constructor
  · rintro ⟨hx, hy, hz⟩
    obtain ⟨x, hx⟩ := Numeral.exists_toNat_eq hx
    obtain ⟨y, hy⟩ := Numeral.exists_toNat_eq hy
    obtain ⟨z, hz⟩ := Numeral.exists_toNat_eq hz
    exact ⟨⟨x, y, z⟩, by rw [Release.numbers, hx, hy, hz]⟩
  · rintro ⟨r, rfl⟩
    exact ⟨Numeral.toNat_le _, Numeral.toNat_le _, Numeral.toNat_le _⟩

/-- Any candidate number and any revision make a suffix. -/
theorem Suffix.exists_of_parts (c : Option UInt32) (r : Option Revision) :
    ∃ s : Suffix, s.candidate? = c ∧ s.revision? = r := by
  cases c with
  | some n => exact ⟨.candidate n r, rfl, rfl⟩
  | none =>
      cases r with
      | none => exact ⟨.release, rfl, rfl⟩
      | some r => exact ⟨.revision r, rfl, rfl⟩

theorem VersionForm.exists_map_eq {α β : Type} {f : α → β} {o : Option β}
    (h : ∀ b ∈ o, ∃ a, f a = b) : ∃ c : Option α, c.map f = o := by
  cases o with
  | none => exact ⟨none, rfl⟩
  | some b =>
      obtain ⟨a, ha⟩ := h b rfl
      exact ⟨some a, congrArg some ha⟩

/-- The forms whose numbers fit are those that orderable versions have. -/
theorem VersionForm.fits_iff {f : VersionForm} : f.Fits ↔ ∃ v : OrderableVersion, v.form = f := by
  constructor
  · obtain ⟨n, candidate, build⟩ := f
    rintro ⟨hn, hc, hb⟩
    obtain ⟨base, rfl⟩ := Numbers.fit_iff.1 hn
    obtain ⟨c, rfl⟩ := exists_map_eq fun n h => Numeral.exists_toNat_eq (hc n h)
    have hrevision : ∀ b ∈ build, ∃ r : Revision, (r.commits.toNat, r.hash) = b := fun b h => by
      obtain ⟨k, hk⟩ := Numeral.exists_toNat_eq (hb b h)
      exact ⟨⟨k, b.2⟩, congrArg (·, b.2) hk⟩
    obtain ⟨r, rfl⟩ := exists_map_eq hrevision
    obtain ⟨s, rfl, rfl⟩ := Suffix.exists_of_parts c r
    exact ⟨⟨base, s⟩, rfl⟩
  · rintro ⟨v, rfl⟩
    refine ⟨Numbers.fit_iff.2 ⟨v.base, rfl⟩, fun n hn => ?_, fun b hb => ?_⟩
    · obtain ⟨k, _, rfl⟩ := Option.map_eq_some_iff.1 hn
      exact Numeral.toNat_le k
    · obtain ⟨r, _, rfl⟩ := Option.map_eq_some_iff.1 hb
      exact Numeral.toNat_le r.commits

namespace Version

variable {s : String}

theorem read_eq_orderable_iff {v : OrderableVersion} :
    read s = .ok (.orderable v) ↔ IsOrderableText s v.form := by
  rw [read_eq_ok_iff, ← OrderableVersion.read?_eq_some_iff_isOrderableText, read?]
  cases OrderableVersion.read? s.toList with
  | none => cases FreeformVersion.read? s.toList <;> simp
  | some w => simp

theorem orderable_read?_eq_none_iff :
    OrderableVersion.read? s.toList = none ↔ ¬ ∃ f, IsOrderableText s f ∧ f.Fits := by
  rw [Option.eq_none_iff_forall_ne_some, not_exists]
  constructor
  · rintro h f ⟨hf, hfits⟩
    obtain ⟨v, rfl⟩ := VersionForm.fits_iff.1 hfits
    exact h v (OrderableVersion.read?_eq_some_iff_isOrderableText.2 hf)
  · intro h v hv
    exact h v.form ⟨OrderableVersion.read?_eq_some_iff_isOrderableText.1 hv,
      VersionForm.fits_iff.2 ⟨v, rfl⟩⟩

theorem freeform_read?_eq_none_iff :
    FreeformVersion.read? s.toList = none ↔ ¬ ∃ n, IsFreeformText s n ∧ n.Fit := by
  rw [Option.eq_none_iff_forall_ne_some, not_exists]
  constructor
  · rintro h n ⟨hn, hfit⟩
    obtain ⟨r, rfl⟩ := Numbers.fit_iff.1 hfit
    exact h ⟨r, s⟩ (FreeformVersion.read?_eq_some_iff.2 ⟨hn, rfl⟩)
  · intro h v hv
    exact h v.base.numbers ⟨(FreeformVersion.read?_eq_some_iff.1 hv).1,
      Numbers.fit_iff.2 ⟨v.base, rfl⟩⟩

theorem read_eq_freeform_iff {v : FreeformVersion} :
    read s = .ok (.freeform v) ↔ (¬ ∃ f, IsOrderableText s f ∧ f.Fits) ∧
      IsFreeformText s v.base.numbers ∧ v.text = s := by
  rw [read_eq_ok_iff, ← orderable_read?_eq_none_iff, ← FreeformVersion.read?_eq_some_iff, read?]
  cases OrderableVersion.read? s.toList with
  | none => simp
  | some w => simp

theorem read_eq_error_iff {e : Invalid} :
    read s = .error e ↔ (¬ ∃ f, IsOrderableText s f ∧ f.Fits) ∧
      (¬ ∃ n, IsFreeformText s n ∧ n.Fit) ∧ e = .version s := by
  rw [← orderable_read?_eq_none_iff, ← freeform_read?_eq_none_iff, read, elim_eq_error_iff, read?,
    Option.or_eq_none_iff, Option.map_eq_none_iff, Option.map_eq_none_iff, and_assoc]

/-- Reading follows the two grammars: orderable texts whose numbers all fit are read with the
numbers and the hash that they write, freeform texts whose first three numbers fit are read if they
are not of the first kind, and every other text is refused. So a candidate number or a count of
commits that does not fit makes a freeform version, and a text whose first three numbers do not fit
is no version. -/
theorem read_follows_grammar (s : String) :
    ((∃ v, read s = .ok (.orderable v)) ↔ ∃ f, IsOrderableText s f ∧ f.Fits) ∧
    (∀ v, read s = .ok (.orderable v) ↔ IsOrderableText s v.form) ∧
    (∀ v, read s = .ok (.freeform v) ↔ (¬ ∃ f, IsOrderableText s f ∧ f.Fits) ∧
      IsFreeformText s v.base.numbers ∧ v.text = s) ∧
    (∀ e, read s = .error e ↔ (¬ ∃ f, IsOrderableText s f ∧ f.Fits) ∧
      (¬ ∃ n, IsFreeformText s n ∧ n.Fit) ∧ e = .version s) ∧
    (∀ f r, IsOrderableText s f → ¬ f.Fits → f.numbers = Release.numbers r →
      read s = .ok (.freeform ⟨r, s⟩)) ∧
    ∀ n, IsFreeformText s n → ¬ n.Fit → read s = .error (.version s) := by
  refine ⟨?_, fun _ => read_eq_orderable_iff, fun _ => read_eq_freeform_iff,
    fun _ => read_eq_error_iff, fun f r hf hfits hr => ?_, fun n hn hfit => ?_⟩
  · constructor
    · rintro ⟨v, hv⟩
      exact ⟨v.form, read_eq_orderable_iff.1 hv, VersionForm.fits_iff.2 ⟨v, rfl⟩⟩
    · rintro ⟨f, hf, hfits⟩
      obtain ⟨v, rfl⟩ := VersionForm.fits_iff.1 hfits
      exact ⟨v, read_eq_orderable_iff.2 hf⟩
  · refine read_eq_freeform_iff.2 ⟨fun ⟨g, hg, hgfits⟩ => ?_, hr ▸ hf.isFreeformText, rfl⟩
    exact hfits (hf.unique hg ▸ hgfits)
  · have hother (m : Numbers) (hm : IsFreeformText s m) : ¬ m.Fit := hn.unique hm ▸ hfit
    refine read_eq_error_iff.2 ⟨fun ⟨f, hf, hfits⟩ => ?_, fun ⟨m, hm, hmfit⟩ => ?_, rfl⟩
    · -- An orderable form of the text has the same three numbers, and these do not fit.
      exact hother f.numbers hf.isFreeformText hfits.1
    · exact hother m hm hmfit

theorem read_follows_grammar_overflow :
    read "1.2.3-rc4294967296" = .ok (.freeform ⟨⟨1, 2, 3⟩, "1.2.3-rc4294967296"⟩) ∧
    read "1.2.4294967296-rc4" = .error (.version "1.2.4294967296-rc4") := by
  have hcandidate : IsOrderableText "1.2.3-rc4294967296" ⟨⟨1, 2, 3⟩, some 4294967296, none⟩ :=
    IsOrderableText.iff_toList_eq_chars.2 ⟨by decide +kernel, nofun⟩
  have hpatch : IsOrderableText "1.2.4294967296-rc4" ⟨⟨1, 2, 4294967296⟩, some 4, none⟩ :=
    IsOrderableText.iff_toList_eq_chars.2 ⟨by decide +kernel, nofun⟩
  exact ⟨(read_follows_grammar _).2.2.2.2.1 _ ⟨1, 2, 3⟩ hcandidate
      (fun h => absurd (h.2.1 _ rfl) (by decide)) rfl,
    (read_follows_grammar _).2.2.2.2.2 _ hpatch.isFreeformText
      (fun h => absurd h.2.2 (by decide))⟩

end Version

end ProductLock
