import ProductLock.Proofs.TextRuns
import ProductLock.Proofs.VersionText

/-!
# The forms of an orderable version

An orderable version is written as three numbers, then the number of a candidate if it is one or
past one, then a count of commits and a hash if it is a build past a tag. What is written so is a
`VersionForm`. Its numbers may be of any size and its hash any text, and still no two forms are
written alike (`VersionForm.eq_of_chars_eq`): from left to right, every number ends at a character
that is no digit, and a dash has a letter after it only where a candidate begins. The hash comes
last, so that nothing has to be found behind it.

So the text of an orderable version is never read as another one, whatever its hash is, and it is
read as an orderable version at all just when the hash is one that can be read.
-/

namespace ProductLock

open Text (EndsRun endsRun_nil endsRun_cons)

namespace Numeral

variable {m n : Nat} {r s : List Char}

theorem isDigit_of_mem_toDigits {c : Char} (h : c ∈ Nat.toDigits 10 n) : c.isDigit = true :=
  Nat.isDigit_of_mem_toDigits (by decide) (by decide) h

theorem eq_of_toDigits_eq (h : Nat.toDigits 10 m = Nat.toDigits 10 n) : m = n := by
  rw [← Nat.ofDigitChars_ten_toDigits (n := m), h, Nat.ofDigitChars_ten_toDigits]

/-- A number ends at the first character that is no digit. -/
theorem toDigits_append_inj (hr : EndsRun Char.isDigit r) (hs : EndsRun Char.isDigit s)
    (h : Nat.toDigits 10 m ++ r = Nat.toDigits 10 n ++ s) : m = n ∧ r = s := by
  obtain ⟨hd, hrs⟩ := hr.append_inj hs (fun _ => isDigit_of_mem_toDigits)
    (fun _ => isDigit_of_mem_toDigits) h
  exact ⟨eq_of_toDigits_eq hd, hrs⟩

theorem toDigits_append_ne_cons {c : Char} (hc : c.isDigit = false) :
    Nat.toDigits 10 n ++ r ≠ c :: s := by
  intro h
  obtain ⟨d, ds, hd⟩ := List.exists_cons_of_ne_nil (Nat.toDigits_ne_nil (b := 10) (n := n))
  have hdigit : d.isDigit = true := isDigit_of_mem_toDigits (n := n) (by rw [hd]; exact .head ds)
  rw [hd] at h
  rw [(List.cons.inj h).1, hc] at hdigit
  cases hdigit

end Numeral

/-! ## Forms and their texts -/

/-- Three numbers of any size. -/
structure Numbers where
  major : Nat
  minor : Nat
  patch : Nat
deriving DecidableEq

/-- What is written in one of the four forms, with numbers of any size and any hash. -/
structure VersionForm where
  numbers : Numbers
  candidate : Option Nat
  build : Option (Nat × String)
deriving DecidableEq

def Numbers.chars (n : Numbers) : List Char :=
  Nat.toDigits 10 n.major ++ '.' :: (Nat.toDigits 10 n.minor ++ '.' :: Nat.toDigits 10 n.patch)

namespace VersionForm

def candidateChars (candidate : Option Nat) : List Char :=
  candidate.elim [] fun n => '-' :: 'r' :: 'c' :: Nat.toDigits 10 n

def buildChars (build : Option (Nat × String)) : List Char :=
  build.elim [] fun b => '-' :: (Nat.toDigits 10 b.1 ++ '-' :: 'g' :: b.2.toList)

def chars (f : VersionForm) : List Char :=
  f.numbers.chars ++ (candidateChars f.candidate ++ buildChars f.build)

theorem endsRun_buildChars (b : Option (Nat × String)) : EndsRun Char.isDigit (buildChars b) := by
  cases b with
  | none => exact endsRun_nil
  | some b => exact endsRun_cons rfl

theorem endsRun_suffixChars (n : Option Nat) (b : Option (Nat × String)) :
    EndsRun Char.isDigit (candidateChars n ++ buildChars b) := by
  cases n with
  | none => exact endsRun_buildChars b
  | some n => exact endsRun_cons rfl

theorem eq_of_buildChars_eq {b c : Option (Nat × String)} (h : buildChars b = buildChars c) :
    b = c := by
  match b, c with
  | none, none => rfl
  | none, some _ => cases h
  | some _, none => cases h
  | some (m, s), some (n, t) =>
      obtain ⟨rfl, hhash⟩ := Numeral.toDigits_append_inj (endsRun_cons rfl) (endsRun_cons rfl)
        (List.cons.inj h).2
      obtain rfl : s = t := String.toList_inj.1 (List.cons.inj (List.cons.inj hhash).2).2
      rfl

/-- A count of commits does not begin with a letter, so it is no candidate number. -/
theorem buildChars_ne_candidateChars {b c : Option (Nat × String)} {n : Nat} :
    buildChars b ≠ candidateChars (some n) ++ buildChars c := by
  intro h
  cases b with
  | none => cases h
  | some b => exact Numeral.toDigits_append_ne_cons rfl (List.cons.inj h).2

theorem eq_of_suffixChars_eq {m n : Option Nat} {b c : Option (Nat × String)}
    (h : candidateChars m ++ buildChars b = candidateChars n ++ buildChars c) : m = n ∧ b = c := by
  match m, n with
  | none, none => exact ⟨rfl, eq_of_buildChars_eq h⟩
  | none, some n => exact absurd h buildChars_ne_candidateChars
  | some m, none => exact absurd h.symm buildChars_ne_candidateChars
  | some m, some n =>
      have h := (List.cons.inj (List.cons.inj (List.cons.inj h).2).2).2
      obtain ⟨rfl, hb⟩ := Numeral.toDigits_append_inj (endsRun_buildChars b)
        (endsRun_buildChars c) h
      exact ⟨rfl, eq_of_buildChars_eq hb⟩

end VersionForm

theorem Numbers.append_inj {m n : Numbers} {r s : List Char}
    (hr : EndsRun Char.isDigit r) (hs : EndsRun Char.isDigit s)
    (h : m.chars ++ r = n.chars ++ s) : m = n ∧ r = s := by
  obtain ⟨major, minor, patch⟩ := m
  obtain ⟨major', minor', patch'⟩ := n
  simp only [chars, List.append_assoc, List.cons_append] at h
  obtain ⟨rfl, hminor⟩ := Numeral.toDigits_append_inj (endsRun_cons rfl) (endsRun_cons rfl) h
  obtain ⟨rfl, hpatch⟩ := Numeral.toDigits_append_inj (endsRun_cons rfl) (endsRun_cons rfl)
    (List.cons.inj hminor).2
  obtain ⟨rfl, hrs⟩ := Numeral.toDigits_append_inj hr hs (List.cons.inj hpatch).2
  exact ⟨rfl, hrs⟩

/-- No two forms are written alike. -/
theorem VersionForm.eq_of_chars_eq {f g : VersionForm} (h : f.chars = g.chars) : f = g := by
  obtain ⟨hn, h⟩ := Numbers.append_inj (endsRun_suffixChars _ _) (endsRun_suffixChars _ _) h
  obtain ⟨hc, hb⟩ := eq_of_suffixChars_eq h
  cases f
  cases g
  simp only at hn hc hb
  rw [hn, hc, hb]

/-! ## The forms that orderable versions have -/

def Release.numbers (r : Release) : Numbers := ⟨r.major.toNat, r.minor.toNat, r.patch.toNat⟩

theorem Release.numbers_inj {r s : Release} (h : r.numbers = s.numbers) : r = s := by
  obtain ⟨_, _, _⟩ := r
  obtain ⟨_, _, _⟩ := s
  simpa [numbers, UInt32.toNat_inj] using h

theorem Release.toList_text_eq_chars (r : Release) : r.text.toList = r.numbers.chars := by
  simp [text, numbers, Numbers.chars, Numeral.text, Numeral.digits]

namespace Suffix

def candidate? : Suffix → Option UInt32
  | .candidate n _ => some n
  | .revision _ | .release => none

/-- A suffix is a candidate number and a revision, each of which may be missing. -/
theorem eq_of_parts {s t : Suffix} (h : s.candidate? = t.candidate?)
    (h' : s.revision? = t.revision?) : s = t := by
  cases s <;> cases t <;> simp_all [candidate?, revision?]

theorem toList_text_eq_chars (s : Suffix) :
    s.text.toList = VersionForm.candidateChars (s.candidate?.map UInt32.toNat)
      ++ VersionForm.buildChars (s.revision?.map fun r => (r.commits.toNat, r.hash)) := by
  have hrevision (r : Revision) :
      r.text.toList = VersionForm.buildChars (some (r.commits.toNat, r.hash)) := by
    simp [Revision.text, VersionForm.buildChars, Numeral.text, Numeral.digits]
  cases s with
  | release => rfl
  | candidate n r =>
      cases r with
      | none =>
          simp [text, candidate?, revision?, VersionForm.candidateChars, VersionForm.buildChars,
            Numeral.text, Numeral.digits]
      | some r =>
          simp [text, candidate?, revision?, VersionForm.candidateChars, Numeral.text,
            Numeral.digits, hrevision]
  | revision r => exact hrevision r

end Suffix

namespace OrderableVersion

/-- The form that a version is written in. -/
def form (v : OrderableVersion) : VersionForm :=
  ⟨v.base.numbers, v.suffix.candidate?.map UInt32.toNat,
    v.suffix.revision?.map fun r => (r.commits.toNat, r.hash)⟩

theorem toList_text_eq_chars (v : OrderableVersion) : v.text.toList = v.form.chars := by
  rw [text, String.toList_append, Release.toList_text_eq_chars, Suffix.toList_text_eq_chars]
  rfl

theorem eq_of_form_eq {v w : OrderableVersion} (h : v.form = w.form) : v = w := by
  obtain ⟨base, suffix⟩ := v
  obtain ⟨base', suffix'⟩ := w
  simp only [form, VersionForm.mk.injEq] at h
  obtain ⟨hbase, hcandidate, hrevision⟩ := h
  have hcandidate := (Option.map_inj_right fun _ _ => UInt32.toNat_inj.1).1 hcandidate
  have hrevision : suffix.revision? = suffix'.revision? := by
    refine (Option.map_inj_right fun q r hqr => ?_).1 hrevision
    obtain ⟨hcommits, hhash⟩ := Prod.mk.inj hqr
    cases q
    cases r
    simp only at hcommits hhash
    rw [UInt32.toNat_inj.1 hcommits, hhash]
  rw [Release.numbers_inj hbase, Suffix.eq_of_parts hcandidate hrevision]

/-- The text determines the version, also where the hash is none that could be read. -/
theorem eq_of_text_eq {v w : OrderableVersion} (h : v.text = w.text) : v = w := by
  refine eq_of_form_eq (VersionForm.eq_of_chars_eq ?_)
  rw [← toList_text_eq_chars, ← toList_text_eq_chars, h]

end OrderableVersion

namespace Version

theorem read?_text_eq_some_iff {v w : OrderableVersion} :
    read? v.text = some (.orderable w) ↔ v = w ∧ v.suffix.HasHash := by
  refine ⟨fun h => ?_, fun h => h.1 ▸ read?_text h.2⟩
  rcases Option.or_eq_some_iff.1 h with h | ⟨_, h⟩
  · obtain ⟨u, hu, ⟨⟩⟩ := Option.map_eq_some_iff.1 h
    obtain ⟨htext, hhash⟩ := OrderableVersion.read?_eq_some_iff.1 hu
    obtain rfl := OrderableVersion.eq_of_text_eq (String.toList_inj.1 htext)
    exact ⟨rfl, hhash⟩
  · obtain ⟨_, _, h⟩ := Option.map_eq_some_iff.1 h
    cases h

/-- A version that is read has the text it was read from. The text of an orderable version is read
as that version if it is no build, or one with a hash that can be read, and with any other hash it
is not read as an orderable version at all. -/
theorem read_text_roundtrip :
    (∀ s v, read s = .ok v → v.text = s) ∧
    ∀ v : OrderableVersion,
      (read v.text = .ok (.orderable v) ↔
        ∀ r, v.suffix.revision? = some r → Revision.IsHash r.hash) ∧
      ((∃ r, v.suffix.revision? = some r ∧ ¬ Revision.IsHash r.hash) →
        ∀ w, read v.text ≠ .ok (.orderable w)) := by
  refine ⟨fun s v h => text_of_read? (read_eq_ok_iff.1 h), fun v => ⟨?_, fun hr w h => ?_⟩⟩
  · rw [read_eq_ok_iff, read?_text_eq_some_iff]
    exact and_iff_right rfl
  · obtain ⟨r, hr, hhash⟩ := hr
    exact hhash ((read?_text_eq_some_iff.1 (read_eq_ok_iff.1 h)).2 r hr)

theorem read_text_roundtrip_hashes :
    let v : OrderableVersion := ⟨⟨1, 2, 3⟩, .candidate 4 (some ⟨5, "0af"⟩)⟩
    let w : OrderableVersion := ⟨⟨1, 2, 3⟩, .revision ⟨5, "0AF"⟩⟩
    read v.text = .ok (.orderable v) ∧ (∀ u, read w.text ≠ .ok (.orderable u)) ∧
      ∃ u, read "1.2.3-5-g0AF" = .ok u ∧ u.text = "1.2.3-5-g0AF" := by
  intro v w
  have hv : ∀ r, v.suffix.revision? = some r → Revision.IsHash r.hash := by
    rintro _ ⟨⟩
    exact ⟨by decide, List.all_eq_true.1 (by decide)⟩
  have hw : ¬ Revision.IsHash "0AF" := fun h => absurd (h.2 'A' (by decide)) (by decide)
  have hread : read "1.2.3-5-g0AF" = .ok (.freeform ⟨⟨1, 2, 3⟩, "1.2.3-5-g0AF"⟩) :=
    read_eq_ok_iff.2 (by decide +kernel)
  exact ⟨(read_text_roundtrip.2 v).1.2 hv, (read_text_roundtrip.2 w).2 ⟨_, rfl, hw⟩,
    _, hread, read_text_roundtrip.1 _ _ hread⟩

end Version

end ProductLock
