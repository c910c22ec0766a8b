import Mathlib.Data.String.Basic
import ProductLock.Project
import ProductLock.Proofs.LockAcceptance
import ProductLock.Proofs.LockRoundtrip

/-!
# What a drift says

A drift compares two texts by their entry lines, taken as sets: what is to be removed and what is to
be added are the two differences of these sets, in ascending order (`between_exact`). The drift is
written one line each, and as no entry line holds a line feed, the lines of what is written are
those of the drift again (`lines_text`).

Reading compares otherwise: it takes a text entry by entry and refuses a second one for a product. A
repeated line is such a second one, so a text that can be read holds each of its entry lines once,
and so does what is written for a set. Sets of lines then say as much as lists up to their order,
and since order does not matter to reading, texts without a drift between them are read alike.
-/

namespace ProductLock

namespace Text

theorem trimRight_prefix (cs : List Char) : trimRight cs <+: cs := by
  have h := List.reverse_prefix.2 (List.dropWhile_suffix isBlank (l := cs.reverse))
  rwa [List.reverse_reverse] at h

end Text

namespace LockText

variable {b : Build} {s : DependencySet} {text actual expected : String}

/-! ## Entry lines -/

theorem newline_not_mem_of_mem_content {line : List Char} (h : line ∈ content text) :
    '\n' ∉ line := by
  obtain ⟨whole, hwhole, rfl⟩ := List.mem_map.1 (List.mem_filter.1 h).1
  intro hmem
  exact Text.not_mem_of_mem_splitOn hwhole ((Text.trimRight_prefix whole).subset hmem)

theorem mem_lineSet {l : String} : l ∈ (lineSet text).toList ↔ l.toList ∈ content text := by
  rw [lineSet, Catalog.mem_toList_ofList, List.mem_map]
  refine ⟨fun h => ?_, fun h => ⟨l.toList, h, String.ofList_toList⟩⟩
  obtain ⟨line, hline, rfl⟩ := h
  rw [String.toList_ofList]
  exact hline

theorem contains_lineSet {l : String} :
    (lineSet text).contains l = true ↔ l.toList ∈ content text := by
  rw [← Catalog.mem_toList_iff_contains, mem_lineSet]

theorem lineSet_ascending : (lineSet text).toList.Pairwise (· < ·) :=
  (lineSet text).ascending.imp compare_lt_iff_lt.1

/-- A text that can be read repeats none of its entry lines. -/
theorem Accepts.nodup {lines : List (List Char)} (h : Accepts b lines) : lines.Nodup := by
  refine h.distinct.imp_of_mem fun {x y} hx _ hxy => ?_
  rintro rfl
  obtain ⟨d, hd⟩ := h.gives x hx
  exact hxy d d hd hd rfl

theorem exists_decode_encode (hv : ∀ d ∈ s.toList, d.Valid)
    (hr : ∀ d ∈ s.toList, d.minimum.IsRead) : ∃ t, decode b (encode b s) = .ok t :=
  ⟨_, decode_encode hv hr⟩

/-- Texts with the same entry lines, in whatever order, are read alike if one of them can be. -/
theorem decode_eq_of_perm (hp : (content actual).Perm (content expected))
    (ha : ∃ t, decode b actual = .ok t) : decode b actual = decode b expected := by
  obtain ⟨t, ht⟩ := ha
  obtain ⟨haccepts, hfiles⟩ := decode_eq_ok_iff_files.1 ht
  rw [ht, decode_eq_ok_iff_files.2 ⟨haccepts.perm hp, hfiles.perm hp⟩]

/-! ## The two differences -/

namespace Drift

/-- The drift lists the lines that only one of the texts has, each list in ascending order and
without repeats. -/
structure Exact (drift : Drift) (actual expected : String) : Prop where
  mem_removed : ∀ l, l ∈ drift.removed ↔ l.toList ∈ content actual ∧ l.toList ∉ content expected
  mem_added : ∀ l, l ∈ drift.added ↔ l.toList ∈ content expected ∧ l.toList ∉ content actual
  removed_ascending : drift.removed.Pairwise (· < ·)
  added_ascending : drift.added.Pairwise (· < ·)

theorem between_exact : (between actual expected).Exact actual expected := by
  have hmem (x y : String) (l : String) :
      l ∈ (lineSet x).toList.filter (!(lineSet y).contains ·) ↔
        l.toList ∈ content x ∧ l.toList ∉ content y := by
    rw [List.mem_filter, mem_lineSet, Bool.not_eq_true', ← Bool.not_eq_true, contains_lineSet]
  exact ⟨hmem actual expected, hmem expected actual, lineSet_ascending.filter _,
    lineSet_ascending.filter _⟩

variable {drift : Drift}

namespace Exact

theorem removed_eq_nil_iff (h : drift.Exact actual expected) :
    drift.removed = [] ↔ content actual ⊆ content expected := by
  rw [List.eq_nil_iff_forall_not_mem]
  refine ⟨fun hnone line hline => ?_, fun hsub l hl => ?_⟩
  · by_contra hmissing
    refine hnone (String.ofList line) ((h.mem_removed _).2 ?_)
    rw [String.toList_ofList]
    exact ⟨hline, hmissing⟩
  · obtain ⟨hactual, hexpected⟩ := (h.mem_removed l).1 hl
    exact hexpected (hsub hactual)

/-- The same drift from the other side. -/
theorem swap (h : drift.Exact actual expected) :
    (⟨drift.added, drift.removed⟩ : Drift).Exact expected actual :=
  ⟨h.mem_added, h.mem_removed, h.added_ascending, h.removed_ascending⟩

theorem added_eq_nil_iff (h : drift.Exact actual expected) :
    drift.added = [] ↔ content expected ⊆ content actual := h.swap.removed_eq_nil_iff

/-- Taking out what is removed and putting in what is added makes the one list of entry lines into
the other, if neither repeats a line. -/
theorem apply (h : drift.Exact actual expected) (ha : (content actual).Nodup)
    (he : (content expected).Nodup) :
    ((content actual).filter (fun line => String.ofList line ∉ drift.removed) ++
      drift.added.map String.toList).Perm (content expected) := by
  have hadded : ∀ line, line ∈ drift.added.map String.toList ↔
      line ∈ content expected ∧ line ∉ content actual := by
    intro line
    rw [List.mem_map]
    refine ⟨fun hl => ?_, fun hl => ⟨String.ofList line, ?_, String.toList_ofList⟩⟩
    · obtain ⟨l, hl, rfl⟩ := hl
      exact (h.mem_added l).1 hl
    · rw [h.mem_added, String.toList_ofList]
      exact hl
  have hkept : ∀ line, line ∈ (content actual).filter (String.ofList · ∉ drift.removed) ↔
      line ∈ content actual ∧ line ∈ content expected := by
    intro line
    rw [List.mem_filter, decide_eq_true_iff, h.mem_removed, String.toList_ofList]
    tauto
  have hnodup : (drift.added.map String.toList).Nodup :=
    List.Nodup.map (fun _ _ => String.toList_inj.1) (h.added_ascending.imp ne_of_lt)
  refine (List.perm_ext_iff_of_nodup ((ha.filter _).append hnodup fun line hk hl => ?_) he).2
    fun line => ?_
  · exact ((hadded line).1 hl).2 ((hkept line).1 hk).1
  · rw [List.mem_append, hkept, hadded]
    tauto

end Exact

/-! ## The text of a drift -/

/-- The lines of a drift as they are written. -/
def marked (drift : Drift) : List (List Char) :=
  drift.removed.map (fun l => "  - ".toList ++ l.toList) ++
    drift.added.map fun l => "  + ".toList ++ l.toList

theorem toList_text : drift.text.toList = ['\n'].intercalate drift.marked := by
  unfold text marked
  rw [String.toList_intercalate, List.map_append, List.map_map, List.map_map]
  simp only [Function.comp_def, String.toList_append]
  rfl

theorem marked_eq_nil_iff : drift.marked = [] ↔ drift.removed = [] ∧ drift.added = [] := by
  rw [marked, List.append_eq_nil_iff, List.map_eq_nil_iff, List.map_eq_nil_iff]

theorem exists_toList_text (h : drift.marked ≠ []) :
    ∃ c rest, (c = '-' ∨ c = '+') ∧ drift.text.toList = ' ' :: ' ' :: c :: rest := by
  have hmark : ∀ line ∈ drift.marked, ∃ c rest, (c = '-' ∨ c = '+') ∧
      line = ' ' :: ' ' :: c :: rest := by
    intro line hline
    rcases List.mem_append.1 hline with hline | hline
    · obtain ⟨l, _, rfl⟩ := List.mem_map.1 hline
      exact ⟨'-', ' ' :: l.toList, .inl rfl, rfl⟩
    · obtain ⟨l, _, rfl⟩ := List.mem_map.1 hline
      exact ⟨'+', ' ' :: l.toList, .inr rfl, rfl⟩
  rw [toList_text]
  obtain ⟨first, rest, hmarked⟩ := List.exists_cons_of_ne_nil h
  rw [hmarked] at hmark ⊢
  obtain ⟨c, more, hc, rfl⟩ := hmark first (.head rest)
  cases rest with
  | nil => exact ⟨c, more, hc, List.intercalate_singleton⟩
  | cons second rest =>
      rw [List.intercalate_cons_of_ne_nil (List.cons_ne_nil second rest)]
      exact ⟨c, _, hc, rfl⟩

theorem text_eq_empty_iff : drift.text = "" ↔ drift.removed = [] ∧ drift.added = [] := by
  rw [← marked_eq_nil_iff, ← String.toList_eq_nil_iff]
  refine ⟨fun h => ?_, fun h => by rw [toList_text, h]; rfl⟩
  by_contra hne
  obtain ⟨c, rest, _, htext⟩ := exists_toList_text hne
  rw [h] at htext
  cases htext

/-- What is written is cut again into the lines of the drift. -/
theorem Exact.lines_text (h : drift.Exact actual expected) (hne : drift.text ≠ "") :
    Text.lines drift.text = drift.marked := by
  refine (Text.splitOn_eq_iff ?_ fun line hline => ?_).2 toList_text
  · rwa [Ne, marked_eq_nil_iff, ← text_eq_empty_iff]
  · have hnewline {mark : List Char} {l : String} (hmark : '\n' ∉ mark)
        (hl : '\n' ∉ l.toList) : '\n' ∉ mark ++ l.toList := by
      rw [List.mem_append, not_or]
      exact ⟨hmark, hl⟩
    rcases List.mem_append.1 hline with hline | hline
    · obtain ⟨l, hl, rfl⟩ := List.mem_map.1 hline
      exact hnewline (by decide) (newline_not_mem_of_mem_content ((h.mem_removed l).1 hl).1)
    · obtain ⟨l, hl, rfl⟩ := List.mem_map.1 hline
      exact hnewline (by decide) (newline_not_mem_of_mem_content ((h.mem_added l).1 hl).1)

theorem Exact.text_eq_empty_iff (h : drift.Exact actual expected) :
    drift.text = "" ↔ ∀ line, line ∈ content actual ↔ line ∈ content expected := by
  rw [Drift.text_eq_empty_iff, h.removed_eq_nil_iff, h.added_eq_nil_iff]
  exact ⟨fun hsub line => ⟨fun hl => hsub.1 hl, fun hl => hsub.2 hl⟩,
    fun hiff => ⟨fun line => (hiff line).1, fun line => (hiff line).2⟩⟩

/-- What is said of two texts that differ in nothing but their form. -/
def formattingNote : String := "  (entries match, formatting differs)"

theorem driftText_eq : Project.driftText actual expected =
    if (between actual expected).text = "" then formattingNote
    else (between actual expected).text := by
  unfold Project.driftText
  split
  next h =>
    rw [if_pos h]
    rfl
  next hne => rw [if_neg hne]

/-- The note is not the text of any drift. -/
theorem text_ne_formattingNote : drift.text ≠ formattingNote := by
  intro h
  have hchars := congrArg String.toList h
  by_cases hmarked : drift.marked = []
  · rw [toList_text, hmarked] at hchars
    exact absurd hchars (by decide)
  · obtain ⟨c, rest, hc, htext⟩ := exists_toList_text hmarked
    have hnote : formattingNote.toList =
        ' ' :: ' ' :: '(' :: "entries match, formatting differs)".toList := by
      decide
    rw [htext, hnote] at hchars
    obtain rfl : c = '(' := (List.cons.inj (List.cons.inj (List.cons.inj hchars).2).2).1
    exact absurd hc (by decide)

theorem driftText_eq_formattingNote_iff :
    Project.driftText actual expected = formattingNote ↔ (between actual expected).text = "" := by
  rw [driftText_eq]
  split
  next h => exact iff_of_true rfl h
  next hne => exact iff_of_false text_ne_formattingNote hne

end Drift

/-- Take any build, a set of valid dependencies whose minimums were read, and any text that can be
read. The drift between the text and what is written for the set lists the lines to be removed and
those to be added, all of them and no others, each once and in ascending order; it is written one
line each, with a mark in front of it; and it makes the entry lines of the one text into those of
the other. It is empty just when both texts have the same entry lines. It is then that only the form
is said to differ, and both texts are read as the same set. -/
theorem drift_complete_minimal (b : Build) (s : DependencySet) (actual : String)
    (hv : ∀ d ∈ s.toList, d.Valid) (hr : ∀ d ∈ s.toList, d.minimum.IsRead)
    (ha : ∃ t, decode b actual = .ok t) :
    let expected := encode b s
    let drift := Drift.between actual expected
    drift.Exact actual expected ∧
      (drift.text ≠ "" → Text.lines drift.text = drift.marked) ∧
      ((content actual).filter (fun line => String.ofList line ∉ drift.removed) ++
        drift.added.map String.toList).Perm (content expected) ∧
      (drift.text = "" ↔ ∀ line, line ∈ content actual ↔ line ∈ content expected) ∧
      (Project.driftText actual expected = Drift.formattingNote ↔ drift.text = "") ∧
      (drift.text = "" → decode b actual = decode b expected) := by
  intro expected drift
  have hexact : drift.Exact actual expected := Drift.between_exact
  have hactual := (exists_decode_iff.1 ha).nodup
  have hexpected := (exists_decode_iff.1 (exists_decode_encode (b := b) hv hr)).nodup
  refine ⟨hexact, hexact.lines_text, hexact.apply hactual hexpected, hexact.text_eq_empty_iff,
    Drift.driftText_eq_formattingNote_iff, fun hempty => ?_⟩
  have hsame := hexact.text_eq_empty_iff.1 hempty
  exact decode_eq_of_perm ((List.perm_ext_iff_of_nodup hactual hexpected).2 hsame) ha

/-- A lock file in another order, with comments, carriage returns and blank ends, and one in which a
product is missing, another one was dropped since and a minimum of the workspace is out of date. -/
theorem drift_complete_minimal_two_files :
    let b : Build := ⟨"1.4.0", .ofList [⟨"org", "own"⟩]⟩
    let version (minor : UInt32) : Version := .orderable ⟨⟨1, minor, 0⟩, .release⟩
    let s : DependencySet := .ofList [⟨⟨"org", "zed"⟩, version 2, .major 1, none, true⟩,
      ⟨⟨"org", "own"⟩, version 4, .major 1, some (version 5), false⟩]
    let untidy := "# old\r\norg:zed (1.2.0, 1.x.x) optional \r\n\r\n"
      ++ "org:own ($projectVersion, 1.x.x)\t"
    let stale := "org:gone (1.0.0, 1.x.x)\norg:own (1.3.0, 1.x.x)\n"
    (Project.driftText untidy (encode b s) = Drift.formattingNote ∧
        decode b untidy = decode b (encode b s)) ∧
      Text.lines (Drift.between stale (encode b s)).text =
        ["  - org:gone (1.0.0, 1.x.x)", "  - org:own (1.3.0, 1.x.x)",
          "  + org:own ($projectVersion, 1.x.x)",
          "  + org:zed (1.2.0, 1.x.x) optional"].map String.toList := by
  intro b version s untidy stale
  have hlist : s.toList = [⟨⟨"org", "own"⟩, version 4, .major 1, some (version 5), false⟩,
      ⟨⟨"org", "zed"⟩, version 2, .major 1, none, true⟩] := by
    decide +kernel
  have hv : ∀ d ∈ s.toList, d.Valid := by
    rw [hlist]
    decide +kernel
  have hr : ∀ d ∈ s.toList, d.minimum.IsRead := by
    rw [hlist]
    exact List.forall_mem_cons.2 ⟨⟨"1.4.0", by decide +kernel⟩,
      List.forall_mem_singleton.2 ⟨"1.2.0", by decide +kernel⟩⟩
  have horder : written b s = s.toList := List.mergeSort_of_pairwise (by decide +kernel)
  have hexpected : content (encode b s) = ["org:own ($projectVersion, 1.x.x)".toList,
      "org:zed (1.2.0, 1.x.x) optional".toList] := by
    refine (filter_trimmedLines_encode fun d hd => entryOf_formed (hv d hd) (hr d hd)).trans ?_
    rw [horder, hlist]
    decide +kernel
  have huntidy : content untidy = ["org:zed (1.2.0, 1.x.x) optional".toList,
      "org:own ($projectVersion, 1.x.x)".toList] := by
    decide +kernel
  have hstale : content stale = ["org:gone (1.0.0, 1.x.x)".toList,
      "org:own (1.3.0, 1.x.x)".toList] := by
    decide +kernel
  obtain ⟨_, _, _, hempty, hnote, hsame⟩ := drift_complete_minimal b s untidy hv hr
    ⟨s.lockView, by decide +kernel⟩
  have hnone : (Drift.between untidy (encode b s)).text = "" := by
    rw [hempty, huntidy, hexpected]
    exact fun line => (List.Perm.swap _ _ []).mem_iff
  refine ⟨⟨hnote.2 hnone, hsame hnone⟩, ?_⟩
  obtain ⟨t, ht, _⟩ := exists_ok_of_map_eq (x := decode b stale) (f := DependencySet.size)
    (b := 2) (by decide +kernel)
  obtain ⟨_, hlines, _⟩ := drift_complete_minimal b s stale hv hr ⟨t, ht⟩
  have hset (text : String) : lineSet text = .ofList ((content text).map String.ofList) := rfl
  have hbetween : Drift.between stale (encode b s) =
      ⟨["org:gone (1.0.0, 1.x.x)", "org:own (1.3.0, 1.x.x)"],
        ["org:own ($projectVersion, 1.x.x)", "org:zed (1.2.0, 1.x.x) optional"]⟩ := by
    rw [Drift.between, hset, hset, hstale, hexpected]
    decide +kernel
  have hne : (Drift.between stale (encode b s)).text ≠ "" := by
    rw [Ne, Drift.text_eq_empty_iff, hbetween]
    decide
  rw [hlines hne, hbetween]
  decide +kernel

/-- A minimum that was not read, with a line feed in its hash: the line of a valid dependency comes
apart into two, and these are the same. A text with that line once can be read, and there is no
drift between it and what is written for the set, which cannot be read. -/
theorem drift_complete_minimal_broken_line :
    let b : Build := ⟨"0.0.0", .empty⟩
    let hash := "x, 1.x.x)\na:b (1.0.0-1-gx"
    let s : DependencySet :=
      .ofList [⟨⟨"a", "b"⟩, .orderable ⟨⟨1, 0, 0⟩, .revision ⟨1, hash⟩⟩, .major 1, none, false⟩]
    let line := "a:b (1.0.0-1-gx, 1.x.x)"
    let actual := line ++ "\n"
    (∀ d ∈ s.toList, d.Valid) ∧ encode b s = header ++ "\n" ++ line ++ "\n" ++ line ++ "\n" ∧
      decode b actual = .ok (.ofList
        [⟨⟨"a", "b"⟩, .freeform ⟨⟨1, 0, 0⟩, "1.0.0-1-gx"⟩, .major 1, none, false⟩]) ∧
      (Drift.between actual (encode b s)).text = "" ∧
      decode b (encode b s) = .error (.malformedLine 3 line (.duplicate ⟨"a", "b"⟩)) := by
  decide +kernel

end LockText

end ProductLock
