import ProductLock.Proofs.LockReading

/-!
# Which lock files are read

Whether a lock file can be read is up to its entry lines, one by one and in pairs: each must stand
for a dependency, and no two for the same product. What a line stands for is said here by how it is
written (`Gives`), without a word on how it is taken apart. Order does not come into it, nor do
comments, blank lines or the kind of line ends, and what is read is the same whatever they are.

Order does matter to the error. It is about the first line with which the lines up to it are no
longer in order: one that stands for no dependency, or one for a product that an earlier line
already stands for. The number that the error gives counts all lines from the first, comments and
blank lines included.
-/

namespace ProductLock

theorem Text.trimRight_cons_congr {c : Char} {cs ds : List Char} (h : trimRight cs = trimRight ds) :
    trimRight (c :: cs) = trimRight (c :: ds) := by
  unfold trimRight at h ⊢
  rw [List.reverse_cons, List.reverse_cons, List.dropWhile_append, List.dropWhile_append,
    List.reverse_injective h]

namespace LockText

/-- What a line has to say of a dependency: names that can be told apart on it, and two texts from
which the range is read. -/
structure Spells (b : Build) (d : Dependency) (minimum maximum : String) : Prop where
  group : d.id.group ≠ "" ∧ ∀ c ∈ d.id.group.toList, c ≠ ':' ∧ Text.isBlank c = false
  name : d.id.name ≠ "" ∧ ∀ c ∈ d.id.name.toList, Text.isBlank c = false
  minimum : Version.read? (if minimum = placeholder then b.version else minimum) = some d.minimum
  maximum : Bound.read? maximum = some d.maximum
  recommended : d.recommended = none
  valid : d.Valid

/-- The line reads `group:name (minimum, maximum)`, with ` optional` behind it if the dependency
is. -/
def Gives (b : Build) (line : List Char) (d : Dependency) : Prop :=
  ∃ minimum maximum, Spells b d minimum maximum ∧
    line = (d.id.text ++ " (" ++ minimum ++ ", " ++ maximum ++ ")" ++
      (if d.isOptional then " optional" else "")).toList

/-- Each line stands for a dependency, and no two are for one product. -/
structure Accepts (b : Build) (lines : List (List Char)) : Prop where
  gives : ∀ line ∈ lines, ∃ d, Gives b line d
  distinct : lines.Pairwise fun x y => ∀ d e, Gives b x d → Gives b y e → d.id ≠ e.id

/-- The set holds what the lines stand for, and no policy. -/
structure Files (b : Build) (lines : List (List Char)) (s : DependencySet) : Prop where
  mem_iff : ∀ d, d ∈ s.toList ↔ ∃ line ∈ lines, Gives b line d
  optional_eq : s.optional = .empty
  ignored_eq : s.ignored = .empty

/-- What is wrong with a line, given the entry lines before it. -/
inductive Faulty (b : Build) (earlier : List (List Char)) (line : List Char) : LineFault → Prop
  | malformed {fault : LineFault} (none : ¬ ∃ d, Gives b line d)
      (read : readLine b line = .error fault) : Faulty b earlier line fault
  | repeats {other : List Char} {d e : Dependency} (mem : other ∈ earlier)
      (first : Gives b other d) (again : Gives b line e) (same : d.id = e.id) :
      Faulty b earlier line (.duplicate e.id)

/-- The entry lines of a text. -/
def content (text : String) : List (List Char) := (trimmedLines text).filter isEntryLine

variable {b : Build} {line : List Char} {lines : List (List Char)} {d : Dependency}
  {text : String} {s : DependencySet}

/-! ## What a line stands for -/

theorem readLine_eq_ok_iff_gives : readLine b line = .ok d ↔ Gives b line d := by
  have hline (minimum maximum : String) : (d.id.text ++ " (" ++ minimum ++ ", " ++ maximum ++ ")" ++
      (if d.isOptional then " optional" else "")).toList =
        Entry.line ⟨d.id.group, d.id.name, minimum, maximum, d.isOptional⟩ := by
    unfold Entry.line Dependency.optionalChars ProductId.text
    cases d.isOptional <;> simp
  unfold Gives
  rw [readLine_eq_ok_iff]
  refine ⟨fun h => ?_, fun h => ?_⟩
  · obtain ⟨e, hf, rfl, hd⟩ := h
    obtain ⟨hv, hid, hminimum, hmaximum, hrecommended, hoptional⟩ := Entry.dependency_eq_ok_iff.1 hd
    refine ⟨e.minimum, e.maximum, ⟨?_, ?_, hminimum, Bound.read?_eq_some_iff.2 hmaximum,
      hrecommended, hv⟩, ?_⟩
    · rw [hid]
      exact ⟨hf.group_ne, hf.group⟩
    · rw [hid]
      exact ⟨hf.name_ne, hf.name⟩
    · rw [hline, hid, hoptional]
  · obtain ⟨minimum, maximum, hs, rfl⟩ := h
    have hmaximum := Bound.read?_eq_some_iff.1 hs.maximum
    have hm : minimum = placeholder ∨ ∃ v : Version, v.IsRead ∧ minimum = v.text := by
      by_cases h : minimum = placeholder
      · exact .inl h
      · have hread := hs.minimum
        rw [if_neg h] at hread
        exact .inr ⟨d.minimum, ⟨minimum, hread⟩, (Version.text_of_read? hread).symm⟩
    obtain ⟨hne, hchars⟩ := minimum_formed hm
    refine ⟨_, ⟨hs.group.1, hs.name.1, hne, ?_, hs.group.2, hs.name.2, hchars, ?_⟩,
      hline minimum maximum, Entry.dependency_eq_ok_iff.2
        ⟨hs.valid, rfl, hs.minimum, hmaximum, hs.recommended, rfl⟩⟩
    · rw [hmaximum]
      exact maximum_formed.1
    · rw [hmaximum]
      exact maximum_formed.2

/-- A line stands for one dependency at most. -/
theorem Gives.unique {e : Dependency} (h : Gives b line d) (h' : Gives b line e) : d = e := by
  rw [← readLine_eq_ok_iff_gives] at h h'
  rw [h] at h'
  exact Except.ok.inj h'

/-! ## All lines together -/

theorem distinct_iff_nodup {ds : List Dependency} (h : lines.map (readLine b) = ds.map .ok) :
    (lines.Pairwise fun x y => ∀ d e, Gives b x d → Gives b y e → d.id ≠ e.id) ↔
      (ds.map Dependency.id).Nodup := by
  simp only [← readLine_eq_ok_iff_gives]
  have hlines := List.pairwise_map (f := readLine b) (l := lines)
    (R := fun x y => ∀ d e, x = .ok d → y = .ok e → d.id ≠ e.id)
  rw [← hlines, h, List.pairwise_map, List.Nodup, List.pairwise_map]
  simp

theorem accepts_iff : Accepts b lines ↔ ∃ ds : List Dependency,
    lines.map (readLine b) = ds.map .ok ∧ (ds.map Dependency.id).Nodup := by
  refine ⟨fun h => ?_, fun h => ?_⟩
  · cases hm : lines.mapM (readLine b) with
    | error fault =>
        obtain ⟨before, line, after, rfl, _, hline⟩ := mapM_eq_error_iff.1 hm
        obtain ⟨d, hd⟩ := h.gives line (List.mem_append_right before (.head after))
        rw [readLine_eq_ok_iff_gives.2 hd] at hline
        cases hline
    | ok ds =>
        have hds := mapM_eq_ok_iff.1 hm
        exact ⟨ds, hds, (distinct_iff_nodup hds).1 h.distinct⟩
  · obtain ⟨ds, hds, hnodup⟩ := h
    refine ⟨fun line hline => ?_, (distinct_iff_nodup hds).2 hnodup⟩
    have hmem : readLine b line ∈ ds.map .ok := by
      rw [← hds]
      exact List.mem_map_of_mem hline
    obtain ⟨d, _, hd⟩ := List.mem_map.1 hmem
    exact ⟨d, readLine_eq_ok_iff_gives.1 hd.symm⟩

theorem Accepts.perm {lines' : List (List Char)} (h : Accepts b lines) (hp : lines.Perm lines') :
    Accepts b lines' := by
  refine ⟨fun line hline => h.gives line (hp.mem_iff.2 hline), ?_⟩
  refine (hp.pairwise_iff fun hxy d e hd he => ?_).1 h.distinct
  exact (hxy e d he hd).symm

theorem files_ofList {ds : List Dependency} (hds : lines.map (readLine b) = ds.map .ok)
    (hnodup : (ds.map Dependency.id).Nodup) : Files b lines (.ofList ds) := by
  refine ⟨fun d => ?_, rfl, rfl⟩
  have hmem : d ∈ ds ↔ (.ok d : Except LineFault Dependency) ∈ ds.map .ok := by simp
  rw [← hds, List.mem_map] at hmem
  simp only [readLine_eq_ok_iff_gives] at hmem
  exact (Catalog.mem_ofList_of_nodup hnodup).trans hmem

theorem Files.unique {t : DependencySet} (hs : Files b lines s) (ht : Files b lines t) : s = t := by
  obtain ⟨ds, _, _⟩ := s
  obtain ⟨es, _, _⟩ := t
  obtain ⟨hs, rfl, rfl⟩ := hs
  obtain ⟨ht, rfl, rfl⟩ := ht
  obtain rfl : ds = es := Catalog.ext_mem fun d => (hs d).trans (ht d).symm
  rfl

theorem Files.perm {lines' : List (List Char)} (h : Files b lines s) (hp : lines.Perm lines') :
    Files b lines' s :=
  ⟨fun d => (h.mem_iff d).trans (exists_congr fun _ => and_congr_left fun _ => hp.mem_iff),
    h.optional_eq, h.ignored_eq⟩

theorem foldlM_numbered_eq_ok_iff_files {n : Nat} :
    (numbered n lines).foldlM (addLine b) {} = .ok s ↔
      Accepts b (lines.filter isEntryLine) ∧ Files b (lines.filter isEntryLine) s := by
  rw [foldlM_numbered_eq_ok_iff, accepts_iff]
  refine ⟨fun h => ?_, fun h => ?_⟩
  · obtain ⟨ds, hds, hnodup, rfl⟩ := h
    exact ⟨⟨ds, hds, hnodup⟩, files_ofList hds hnodup⟩
  · obtain ⟨⟨ds, hds, hnodup⟩, hfiles⟩ := h
    exact ⟨ds, hds, hnodup, hfiles.unique (files_ofList hds hnodup)⟩

theorem decode_eq_ok_iff_files :
    decode b text = .ok s ↔ Accepts b (content text) ∧ Files b (content text) s :=
  foldlM_numbered_eq_ok_iff_files

theorem exists_decode_iff : (∃ s, decode b text = .ok s) ↔ Accepts b (content text) := by
  refine ⟨fun h => ?_, fun h => ?_⟩
  · obtain ⟨s, h⟩ := h
    exact (decode_eq_ok_iff_files.1 h).1
  · obtain ⟨ds, hds, hnodup⟩ := accepts_iff.1 h
    exact ⟨.ofList ds, decode_eq_ok_iff.2 ⟨ds, hds, hnodup, rfl⟩⟩

/-! ## The first line that is not in order -/

theorem addLine_eq_error_iff {n : Nat} {e : ConstraintError} (hs : Files b lines s) :
    addLine b s (n, line) = .error e ↔ ∃ fault, Faulty b lines line fault ∧
      e = .malformedLine n (String.ofList line) fault := by
  have hcontains (id : ProductId) : s.contains id = true ↔
      ∃ other ∈ lines, ∃ d, Gives b other d ∧ d.id = id := by
    refine Catalog.contains_iff.trans ⟨fun h => ?_, fun h => ?_⟩
    · obtain ⟨d, hd, hid⟩ := h
      obtain ⟨other, hother, hgives⟩ := (hs.mem_iff d).1 hd
      exact ⟨other, hother, d, hgives, hid⟩
    · obtain ⟨other, hother, d, hgives, hid⟩ := h
      exact ⟨d, (hs.mem_iff d).2 ⟨other, hother, hgives⟩, hid⟩
  unfold addLine
  cases hread : readLine b line with
  | error fault =>
      have hnone : ¬ ∃ d, Gives b line d := by
        intro h
        obtain ⟨d, hd⟩ := h
        rw [readLine_eq_ok_iff_gives.2 hd] at hread
        cases hread
      refine ⟨fun h => ⟨fault, .malformed hnone hread, (Except.error.inj h).symm⟩, fun h => ?_⟩
      obtain ⟨fault', hfault, rfl⟩ := h
      cases hfault with
      | malformed _ hread' =>
          rw [hread] at hread'
          cases hread'
          rfl
      | repeats _ _ again _ => exact absurd ⟨_, again⟩ hnone
  | ok d =>
      have hgives := readLine_eq_ok_iff_gives.1 hread
      dsimp only
      split
      next hc =>
        refine ⟨fun h => ?_, fun h => ?_⟩
        · obtain ⟨other, hother, d', hd', hid⟩ := (hcontains d.id).1 hc
          exact ⟨_, .repeats hother hd' hgives hid, (Except.error.inj h).symm⟩
        · obtain ⟨fault, hfault, rfl⟩ := h
          cases hfault with
          | malformed none _ => exact absurd ⟨d, hgives⟩ none
          | repeats _ _ again _ => rw [hgives.unique again]
      next hc =>
        refine ⟨nofun, fun h => ?_⟩
        obtain ⟨fault, hfault, _⟩ := h
        cases hfault with
        | malformed none _ => exact absurd ⟨d, hgives⟩ none
        | repeats mem first again same =>
            refine absurd ((hcontains d.id).2 ⟨_, mem, _, first, ?_⟩) hc
            rw [same, hgives.unique again]

theorem decode_eq_error_iff {e : ConstraintError} : decode b text = .error e ↔
    ∃ above line below fault, trimmedLines text = above ++ line :: below ∧
      isEntryLine line = true ∧ Accepts b (above.filter isEntryLine) ∧
      Faulty b (above.filter isEntryLine) line fault ∧
      e = .malformedLine (above.length + 1) (String.ofList line) fault := by
  rw [decode, foldlM_eq_error_iff]
  refine ⟨fun h => ?_, fun h => ?_⟩
  · obtain ⟨before, ⟨n, line⟩, after, s, hcut, hbefore, he⟩ := h
    obtain ⟨above, below, hlines, hentry, rfl, rfl⟩ :=
      numbered_eq_append_cons_iff.1 ⟨after, hcut⟩
    obtain ⟨haccepts, hfiles⟩ := foldlM_numbered_eq_ok_iff_files.1 hbefore
    obtain ⟨fault, hfault, rfl⟩ := (addLine_eq_error_iff hfiles).1 he
    refine ⟨above, line, below, fault, hlines, hentry, haccepts, hfault, ?_⟩
    rw [Nat.add_comm]
  · obtain ⟨above, line, below, fault, hlines, hentry, haccepts, hfault, rfl⟩ := h
    obtain ⟨after, hcut⟩ := numbered_eq_append_cons_iff.2
      ⟨above, below, hlines, hentry, Nat.add_comm above.length 1, rfl⟩
    obtain ⟨ds, hds, hnodup⟩ := accepts_iff.1 haccepts
    have hfiles := files_ofList hds hnodup
    exact ⟨_, _, after, .ofList ds, hcut, foldlM_numbered_eq_ok_iff_files.2 ⟨haccepts, hfiles⟩,
      (addLine_eq_error_iff hfiles).2 ⟨fault, hfault, rfl⟩⟩

/-! ## Changes that do not matter -/

/-- The text with each of its line feeds put behind a carriage return. -/
def withCarriageReturns (text : String) : String :=
  String.ofList (text.toList.flatMap fun c => if c = '\n' then ['\r', '\n'] else [c])

theorem trimmedLines_withCarriageReturns :
    trimmedLines (withCarriageReturns text) = trimmedLines text := by
  unfold trimmedLines Text.lines withCarriageReturns
  rw [String.toList_ofList]
  induction text.toList with
  | nil => rfl
  | cons c cs ih =>
      rw [List.flatMap_cons]
      generalize cs.flatMap (fun c => if c = '\n' then ['\r', '\n'] else [c]) = cs' at ih ⊢
      simp only [List.splitOn] at ih ⊢
      by_cases hc : c = '\n'
      · subst hc
        have hblank : Text.trimRight ['\r'] = Text.trimRight [] := by decide
        rw [if_pos rfl, List.cons_append, List.singleton_append,
          List.splitOnP_cons_eq_if_modifyHead, List.splitOnP_cons_eq_if_modifyHead,
          List.splitOnP_cons_eq_if_modifyHead, if_neg (by decide), if_pos (by decide),
          if_pos (by decide), List.modifyHead_cons, List.map_cons, List.map_cons, ih, hblank]
      · rw [if_neg hc, List.singleton_append, List.splitOnP_cons_eq_if_modifyHead,
          List.splitOnP_cons_eq_if_modifyHead, if_neg (by simpa using hc),
          if_neg (by simpa using hc)]
        obtain ⟨first, rest, hs⟩ := List.exists_cons_of_ne_nil (List.splitOnP_ne_nil (· == '\n') cs)
        obtain ⟨first', rest', hs'⟩ :=
          List.exists_cons_of_ne_nil (List.splitOnP_ne_nil (· == '\n') cs')
        rw [hs, hs'] at ih ⊢
        obtain ⟨hfirst, hrest⟩ := List.cons.inj ih
        exact congrArg₂ List.cons (Text.trimRight_cons_congr hfirst) hrest

/-- Lines in another order, with lines added that are no entry lines. -/
theorem content_perm {text' : String} {extra : List (List Char)}
    (hextra : ∀ line ∈ extra, isEntryLine (Text.trimRight line) = false)
    (hp : (Text.lines text').Perm (Text.lines text ++ extra)) :
    (content text').Perm (content text) := by
  have hnone : (extra.map Text.trimRight).filter isEntryLine = [] := by
    refine List.filter_eq_nil_iff.2 (List.forall_mem_map.2 fun line hline => ?_)
    rw [hextra line hline]
    exact Bool.false_ne_true
  have h := (hp.map Text.trimRight).filter isEntryLine
  rw [List.map_append, List.filter_append, hnone, List.append_nil] at h
  exact h

/-- Reading a lock file goes by its entry lines: which files are read, what is read from them, and
at which line it fails. -/
structure ReadsByLine (b : Build) (text : String) : Prop where
  succeeds_iff : (∃ s, decode b text = .ok s) ↔ Accepts b (content text)
  holds : ∀ s, decode b text = .ok s → ∃ ds, List.Forall₂ (Gives b) (content text) ds ∧
    s.toList.Perm ds ∧ s.optional = .empty ∧ s.ignored = .empty
  rearranged : ∀ text' extra, (∀ line ∈ extra, isEntryLine (Text.trimRight line) = false) →
    (Text.lines text').Perm (Text.lines text ++ extra) →
      ∀ s, decode b text' = .ok s ↔ decode b text = .ok s
  carriageReturns : decode b (withCarriageReturns text) = decode b text
  fails_iff : ∀ e, decode b text = .error e ↔
    ∃ above line below fault, trimmedLines text = above ++ line :: below ∧
      isEntryLine line = true ∧ Accepts b (above.filter isEntryLine) ∧
      Faulty b (above.filter isEntryLine) line fault ∧
      e = .malformedLine (above.length + 1) (String.ofList line) fault

theorem decode_readsByLine : ReadsByLine b text := by
  refine ⟨exists_decode_iff, fun s h => ?_, fun text' extra hextra hp s => ?_, ?_,
    fun _ => decode_eq_error_iff⟩
  · obtain ⟨ds, hds, hnodup, rfl⟩ := decode_eq_ok_iff.1 h
    refine ⟨ds, ?_, Catalog.toList_ofList_perm hnodup, rfl, rfl⟩
    rw [← List.forall₂_eq_eq_eq, List.forall₂_map_left_iff, List.forall₂_map_right_iff] at hds
    exact hds.imp fun _ _ => readLine_eq_ok_iff_gives.1
  · have hperm := content_perm hextra hp
    rw [decode_eq_ok_iff_files, decode_eq_ok_iff_files]
    exact ⟨fun h => ⟨h.1.perm hperm, h.2.perm hperm⟩,
      fun h => ⟨h.1.perm hperm.symm, h.2.perm hperm.symm⟩⟩
  · unfold decode entryLines
    rw [trimmedLines_withCarriageReturns]

end LockText

end ProductLock
