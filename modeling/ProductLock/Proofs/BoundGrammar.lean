import ProductLock.Proofs.VersionGrammar

/-!
# The grammar of bounds

Which texts are bounds is said here by a grammar over characters, with plain numbers of any size,
as it is for versions. There are four forms, and the last of them, a whole release, is no wildcard.

A bound has exactly one text. The text of a bound is of the form that the bound has, and any text of
that form is the text of the bound, because a plain number has one spelling
(`isBoundText_form_iff`). So reading and writing undo each other, and a text is refused in two cases
only: it is of none of the forms, or one of its numbers does not fit in 32 bits. In neither case is
there a second way to read it, as there is for a version: a number with a leading zero and one that
is too large make a freeform version at best, and that is no bound.

Nor is the text of a bound ever a freeform version (`read?_text_ne_freeform`). That matters where
the texts of versions and of bounds are compared.
-/

namespace ProductLock

open Numeral (WritesPlain)

/-- What is written in one of the four forms, with numbers of any size. -/
inductive BoundForm
  | any
  | major (major : Nat)
  | minor (major minor : Nat)
  | exact (numbers : Numbers)

/-- The four forms `x.x.x`, `1.x.x`, `1.2.x` and `1.2.3`. -/
inductive IsBoundText : String → BoundForm → Prop
  | any : IsBoundText "x.x.x" .any
  | major {x : String} {m : Nat} (hx : WritesPlain x m) : IsBoundText (x ++ ".x.x") (.major m)
  | minor {x y : String} {m n : Nat} (hx : WritesPlain x m) (hy : WritesPlain y n) :
      IsBoundText (x ++ "." ++ y ++ ".x") (.minor m n)
  | exact {r : String} {n : Numbers} (hr : n.Written WritesPlain r) : IsBoundText r (.exact n)

namespace BoundForm

/-- All numbers fit in 32 bits. -/
def Fits : BoundForm → Prop
  | any => True
  | major m => m ≤ 4294967295
  | minor m n => m ≤ 4294967295 ∧ n ≤ 4294967295
  | exact n => n.Fit

/-- At least the last number is left open. -/
def IsWildcard : BoundForm → Prop
  | any | major _ | minor .. => True
  | exact _ => False

end BoundForm

theorem Numeral.writesPlain_toNat_iff {s : String} {n : UInt32} :
    WritesPlain s n.toNat ↔ s = text n := by
  rw [writesPlain_iff, ← String.toList_inj, text, String.toList_ofList, digits]

namespace Bound

/-- The form that a bound is written in. -/
def form : Bound → BoundForm
  | any => .any
  | major a => .major a.toNat
  | minor a b => .minor a.toNat b.toNat
  | exact r => .exact r.numbers

variable {s : String} {b : Bound} {e : Invalid}

theorem written_numbers_iff {r : Release} : r.numbers.Written WritesPlain s ↔ s = r.text := by
  rw [Numbers.written_plain_iff, ← Release.toList_text_eq_chars, String.toList_inj]

theorem isBoundText_form_iff : IsBoundText s b.form ↔ s = b.text := by
  constructor
  · intro h
    cases b with
    | any =>
        cases h
        rfl
    | major a =>
        cases h with
        | major hx => rw [Numeral.writesPlain_toNat_iff.1 hx, text]
    | minor a c =>
        cases h with
        | minor hx hy =>
            rw [Numeral.writesPlain_toNat_iff.1 hx, Numeral.writesPlain_toNat_iff.1 hy, text]
    | exact r =>
        cases h with
        | exact hr => exact written_numbers_iff.1 hr
  · rintro rfl
    have hplain (n : UInt32) : WritesPlain (Numeral.text n) n.toNat :=
      Numeral.writesPlain_toNat_iff.2 rfl
    cases b with
    | any => exact .any
    | major a => exact .major (hplain a)
    | minor a c => exact .minor (hplain a) (hplain c)
    | exact r => exact .exact (written_numbers_iff.2 rfl)

/-- The forms whose numbers fit are those that bounds have. -/
theorem fits_iff {f : BoundForm} : f.Fits ↔ ∃ b : Bound, b.form = f := by
  constructor
  · intro h
    cases f with
    | any => exact ⟨any, rfl⟩
    | major m =>
        obtain ⟨a, ha⟩ := Numeral.exists_toNat_eq h
        exact ⟨major a, congrArg BoundForm.major ha⟩
    | minor m n =>
        obtain ⟨a, ha⟩ := Numeral.exists_toNat_eq h.1
        obtain ⟨c, hc⟩ := Numeral.exists_toNat_eq h.2
        exact ⟨minor a c, congrArg₂ BoundForm.minor ha hc⟩
    | exact n =>
        obtain ⟨r, hr⟩ := Numbers.fit_iff.1 h
        exact ⟨exact r, congrArg BoundForm.exact hr⟩
  · intro h
    obtain ⟨b, rfl⟩ := h
    cases b with
    | any => exact trivial
    | major a => exact Numeral.toNat_le a
    | minor a c => exact ⟨Numeral.toNat_le a, Numeral.toNat_le c⟩
    | exact r => exact Numbers.fit_iff.2 ⟨r, rfl⟩

theorem isWildcard_form_iff : b.form.IsWildcard ↔ b.patch? = none := by
  cases b with
  | any | major | minor => exact iff_of_true trivial rfl
  | exact r => exact iff_of_false id nofun

/-! ## Bounds and versions -/

theorem isSeparator_of_mem_piece {n : Option UInt32} {c : Char} (hc : c ∈ piece n) :
    FreeformVersion.isSeparator c = false := by
  cases n with
  | none =>
      obtain rfl := List.mem_singleton.1 hc
      rfl
  | some n => exact FreeformVersion.isSeparator_of_isDigit (Numeral.isDigit_of_mem_digits hc)

theorem splitOnP_text (b : Bound) :
    b.text.toList.splitOnP FreeformVersion.isSeparator = b.pieces := by
  have htext : b.text.toList =
      piece b.major? ++ '.' :: (piece b.minor? ++ '.' :: piece b.patch?) := by
    simp [toList_text, pieces]
  rw [htext, List.splitOnP_append_cons_of_forall_mem (fun _ => isSeparator_of_mem_piece) '.' rfl,
    List.splitOnP_append_cons_of_forall_mem (fun _ => isSeparator_of_mem_piece) '.' rfl,
    List.splitOnP_eq_singleton fun _ => isSeparator_of_mem_piece, pieces]

/-- A wildcard has an `x` where a version has its third number. -/
theorem not_isFreeformText (hb : b.patch? = none) (n : Numbers) : ¬ IsFreeformText b.text n := by
  intro h
  obtain ⟨x, y, z, segments, marks, _, _, hz, hs, _⟩ := isFreeformText_iff.1 h
  rw [splitOnP_text, pieces, hb] at hs
  have hx : 'x' ∈ z.toList := by
    rw [← (List.cons.inj (List.cons.inj (List.cons.inj hs).2).2).1]
    exact .head []
  exact absurd (hz.isDigit 'x' hx) (by decide)

/-- The text of a bound is no version, or an orderable one. -/
theorem read?_text_ne_freeform (b : Bound) (v : FreeformVersion) :
    Version.read? b.text ≠ some (.freeform v) := by
  intro h
  obtain ⟨horderable, hfreeform, _⟩ := Version.read_eq_freeform_iff.1 (Version.read_eq_ok_iff.2 h)
  cases b with
  | any | major | minor => exact not_isFreeformText rfl _ hfreeform
  | exact r =>
      refine horderable ⟨⟨r.numbers, none, none⟩, .release (written_numbers_iff.2 rfl), ?_⟩
      exact ⟨Numbers.fit_iff.2 ⟨r, rfl⟩, nofun, nofun⟩

/-! ## Reading -/

theorem read_eq_ok_iff_isBoundText : read s = .ok b ↔ IsBoundText s b.form := by
  rw [read_eq_ok_iff, isBoundText_form_iff]

theorem readWildcard_eq_ok_iff : readWildcard s = .ok b ↔ s = b.text ∧ b.patch? = none :=
  elim_eq_ok_iff.trans readWildcard?_eq_some_iff

theorem readWildcard_eq_ok_iff_isBoundText :
    readWildcard s = .ok b ↔ IsBoundText s b.form ∧ b.form.IsWildcard := by
  rw [readWildcard_eq_ok_iff, isBoundText_form_iff, isWildcard_form_iff]

/-- A text that cannot be read is refused as it stands. -/
theorem read_eq_error_iff : read s = .error e ↔ (¬ ∃ b, read s = .ok b) ∧ e = .bound s := by
  simp only [read, elim_eq_ok_iff, elim_eq_error_iff, Option.eq_none_iff_forall_ne_some, not_exists]

theorem readWildcard_eq_error_iff :
    readWildcard s = .error e ↔ (¬ ∃ b, readWildcard s = .ok b) ∧ e = .bound s := by
  simp only [readWildcard, elim_eq_ok_iff, elim_eq_error_iff, Option.eq_none_iff_forall_ne_some,
    not_exists]

theorem exists_read_iff : (∃ b, read s = .ok b) ↔ ∃ f, IsBoundText s f ∧ f.Fits := by
  simp only [read_eq_ok_iff_isBoundText, fits_iff]
  constructor
  · intro h
    obtain ⟨b, hb⟩ := h
    exact ⟨b.form, hb, b, rfl⟩
  · intro h
    obtain ⟨_, hf, b, rfl⟩ := h
    exact ⟨b, hf⟩

theorem exists_readWildcard_iff :
    (∃ b, readWildcard s = .ok b) ↔ ∃ f, IsBoundText s f ∧ f.Fits ∧ f.IsWildcard := by
  simp only [readWildcard_eq_ok_iff_isBoundText, fits_iff]
  constructor
  · intro h
    obtain ⟨b, hb, hw⟩ := h
    exact ⟨b.form, hb, ⟨b, rfl⟩, hw⟩
  · intro h
    obtain ⟨_, hf, ⟨b, rfl⟩, hw⟩ := h
    exact ⟨b, hf, hw⟩

/-- Reading and writing bounds undo each other. A text is read just when it is of one of the four
forms and its numbers fit, and where only a wildcard is wanted just when it is of one of the first
three; what is read has the numbers of the text and is written as that text, and every other text is
refused as it stands. Every bound is read back from its text, and pins no number after an open
one. -/
theorem read_inverts_text :
    (∀ s : String,
      ((∃ b, read s = .ok b) ↔ ∃ f, IsBoundText s f ∧ f.Fits) ∧
      ((∃ b, readWildcard s = .ok b) ↔ ∃ f, IsBoundText s f ∧ f.Fits ∧ f.IsWildcard) ∧
      (∀ b, read s = .ok b → IsBoundText s b.form ∧ b.text = s) ∧
      (∀ b, readWildcard s = .ok b → IsBoundText s b.form ∧ b.text = s) ∧
      (∀ e, read s = .error e ↔ (¬ ∃ f, IsBoundText s f ∧ f.Fits) ∧ e = .bound s) ∧
      ∀ e, readWildcard s = .error e ↔
        (¬ ∃ f, IsBoundText s f ∧ f.Fits ∧ f.IsWildcard) ∧ e = .bound s) ∧
    ∀ b : Bound, read b.text = .ok b ∧ (b.patch? = none → readWildcard b.text = .ok b) ∧
      (b.major? = none → b.minor? = none) ∧ (b.minor? = none → b.patch? = none) := by
  refine ⟨fun s => ⟨exists_read_iff, exists_readWildcard_iff, fun b h => ?_, fun b h => ?_,
    fun e => ?_, fun e => ?_⟩, fun b => ⟨read_eq_ok_iff.2 rfl, fun h => ?_, ?_, ?_⟩⟩
  · exact ⟨read_eq_ok_iff_isBoundText.1 h, (read_eq_ok_iff.1 h).symm⟩
  · exact ⟨(readWildcard_eq_ok_iff_isBoundText.1 h).1, (readWildcard_eq_ok_iff.1 h).1.symm⟩
  · rw [read_eq_error_iff, exists_read_iff]
  · rw [readWildcard_eq_error_iff, exists_readWildcard_iff]
  · exact readWildcard_eq_ok_iff.2 ⟨rfl, h⟩
  · cases b with
    | any | major => exact fun _ => rfl
    | minor | exact => nofun
  · cases b with
    | any | major | minor => exact fun _ => rfl
    | exact => nofun

/-- A number at the limit of 32 bits is read, and a whole release is a bound but no wildcard. -/
theorem read_inverts_text_limit :
    (∃ b, read "1.4294967295.x" = .ok b ∧ b.text = "1.4294967295.x") ∧
    (∃ b, read "1.2.3" = .ok b ∧ b.text = "1.2.3") ∧
    (¬ ∃ f, IsBoundText "1.2.3" f ∧ f.Fits ∧ f.IsWildcard) ∧
    ¬ ∃ f, IsBoundText "1.4294967296.x" f ∧ f.Fits := by
  have hlimit : IsBoundText "1.4294967295.x" (minor 1 4294967295).form :=
    isBoundText_form_iff.2 (by decide +kernel)
  have hexact : IsBoundText "1.2.3" (exact ⟨1, 2, 3⟩).form :=
    isBoundText_form_iff.2 (by decide +kernel)
  obtain ⟨b, hb⟩ := (read_inverts_text.1 _).1.2 ⟨_, hlimit, fits_iff.2 ⟨_, rfl⟩⟩
  obtain ⟨c, hc⟩ := (read_inverts_text.1 _).1.2 ⟨_, hexact, fits_iff.2 ⟨_, rfl⟩⟩
  refine ⟨⟨b, hb, ((read_inverts_text.1 _).2.2.1 b hb).2⟩,
    ⟨c, hc, ((read_inverts_text.1 _).2.2.1 c hc).2⟩, ?_, ?_⟩
  · exact (((read_inverts_text.1 _).2.2.2.2.2 (.bound "1.2.3")).1 (by decide +kernel)).1
  · exact (((read_inverts_text.1 _).2.2.2.2.1 (.bound "1.4294967296.x")).1 (by decide +kernel)).1

end Bound

end ProductLock
