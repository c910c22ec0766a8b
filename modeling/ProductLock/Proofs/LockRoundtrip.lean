import ProductLock.Proofs.LockReading

/-!
# Reading back the lock file of a set

The lines of an encoded set are the header and then the lines of its dependencies, in the order of
their texts; trimming leaves each of them as it is. A line of a dependency begins with the group of
its product, and nothing keeps a group from beginning with `#`, the mark of a comment. So the
dependencies that are read back are those whose group begins otherwise: each without its
recommendation, no other is added, and the set as a whole survives exactly when no group of it is
taken for a comment.
-/

namespace ProductLock

namespace Text

theorem toList_join_lines (l : List String) :
    (String.join (l.map (· ++ "\n"))).toList =
      ['\n'].intercalate (l.map String.toList ++ [[]]) := by
  rw [String.toList_join]
  induction l with
  | nil => rfl
  | cons s l ih =>
      rw [List.map_cons, List.flatMap_cons, ih, List.map_cons, List.cons_append,
        List.intercalate_cons_of_ne_nil (by simp), String.toList_append, List.append_assoc,
        List.append_assoc]
      rfl

/-- Lines that were written one after another, each with its line feed, are cut out again. -/
theorem lines_join {l : List String} (h : ∀ s ∈ l, '\n' ∉ s.toList) :
    lines (String.join (l.map (· ++ "\n"))) = l.map String.toList ++ [[]] := by
  refine (splitOn_eq_iff (by simp) fun piece hp => ?_).2 (toList_join_lines l)
  rcases List.mem_append.1 hp with hp | hp
  · obtain ⟨s, hs, rfl⟩ := List.mem_map.1 hp
    exact h s hs
  · rw [List.mem_singleton.1 hp]
    exact List.not_mem_nil

theorem trimRight_append_singleton {cs : List Char} {c : Char} (h : isBlank c = false) :
    trimRight (cs ++ [c]) = cs ++ [c] := by
  rw [trimRight, List.reverse_append, List.reverse_singleton, List.singleton_append,
    List.dropWhile_cons_of_neg (by rw [h]; decide), List.reverse_cons, List.reverse_reverse]

end Text

namespace LockText

namespace Entry

variable {e : Entry}

theorem Formed.newline_not_mem (h : e.Formed) : '\n' ∉ e.line := by
  have hpiece {s : String} (hs : ∀ c ∈ s.toList, Text.isBlank c = false) : '\n' ∉ s.toList :=
    fun hm => absurd (hs '\n' hm) (by decide)
  have hoptional (isOptional : Bool) : '\n' ∉ Dependency.optionalChars isOptional := by
    cases isOptional <;> decide
  simp only [line, List.mem_append, List.mem_cons, not_or]
  exact ⟨hpiece fun c hc => (h.group c hc).2, by decide, hpiece h.name, by decide, by decide,
    hpiece fun c hc => (h.minimum c hc).2, by decide, by decide,
    hpiece fun c hc => (h.maximum c hc).2, by decide, hoptional e.isOptional⟩

/-- A line ends with a parenthesis or a letter. -/
theorem trimRight_line : Text.trimRight e.line = e.line := by
  have hend (isOptional : Bool) : ∃ cs c, ')' :: Dependency.optionalChars isOptional = cs ++ [c] ∧
      Text.isBlank c = false := by
    cases isOptional with
    | false => exact ⟨[], ')', rfl, by decide⟩
    | true => exact ⟨") optiona".toList, 'l', by decide, by decide⟩
  obtain ⟨cs, c, hcs, hc⟩ := hend e.isOptional
  have hline : e.line = e.group.toList ++ ':' :: (e.name.toList ++ ' ' :: '(' ::
      (e.minimum.toList ++ ',' :: ' ' :: (e.maximum.toList ++ cs))) ++ [c] := by
    rw [line, hcs]
    simp only [List.append_assoc, List.cons_append]
  rw [hline, Text.trimRight_append_singleton hc]

theorem line_ne_nil : e.line ≠ [] := List.append_ne_nil_of_right_ne_nil _ (List.cons_ne_nil _ _)

theorem Formed.head?_line (h : e.Formed) : e.line.head? = e.group.toList.head? := by
  have hne : e.group.toList ≠ [] := fun he => h.group_ne (String.toList_eq_nil_iff.1 he)
  rw [line, List.head?_append_of_ne_nil _ hne]

end Entry

/-- The text that lists entries below the header, one line each. -/
def listing (es : List Entry) : String :=
  String.join ((header :: es.map fun e => String.ofList e.line).map (· ++ "\n"))

theorem lines_listing {es : List Entry} (hf : ∀ e ∈ es, e.Formed) :
    Text.lines (listing es) = header.toList :: es.map Entry.line ++ [[]] := by
  have hnewline : ∀ line ∈ header :: es.map fun e => String.ofList e.line, '\n' ∉ line.toList := by
    refine List.forall_mem_cons.2 ⟨by decide +kernel, fun line hline => ?_⟩
    obtain ⟨e, he, rfl⟩ := List.mem_map.1 hline
    rw [String.toList_ofList]
    exact (hf e he).newline_not_mem
  have hlines : (es.map fun e => String.ofList e.line).map String.toList = es.map Entry.line := by
    rw [List.map_map]
    exact List.map_congr_left fun _ _ => String.toList_ofList
  rw [listing, Text.lines_join hnewline, List.map_cons, hlines]

/-- A listing determines its entries and their order. -/
theorem eq_of_listing_eq {es fs : List Entry} (he : ∀ e ∈ es, e.Formed) (hf : ∀ e ∈ fs, e.Formed)
    (h : listing es = listing fs) : es = fs := by
  have h := congrArg Text.lines h
  rw [lines_listing he, lines_listing hf, List.cons_append, List.cons_append] at h
  exact Entry.eq_of_map_line_eq he hf (List.append_cancel_right (List.cons.inj h).2)

/-- The entry lines of a listing are its lines, save those that look like comments. -/
theorem filter_trimmedLines_listing {es : List Entry} (hf : ∀ e ∈ es, e.Formed) :
    (trimmedLines (listing es)).filter isEntryLine = (es.map Entry.line).filter isEntryLine := by
  have hheader : Text.trimRight header.toList = header.toList := by decide +kernel
  have htrim : (es.map Entry.line).map Text.trimRight = es.map Entry.line := by
    rw [List.map_map]
    exact List.map_congr_left fun _ _ => Entry.trimRight_line
  rw [trimmedLines, lines_listing hf, List.map_append, List.map_cons, hheader, htrim,
    List.filter_append, List.filter_cons_of_neg (by decide), List.map_singleton,
    List.filter_cons_of_neg (by decide), List.filter_nil, List.append_nil]

variable {b : Build} {s : DependencySet}

/-- The dependencies of a set in the order of their lines. -/
def written (b : Build) (s : DependencySet) : List Dependency :=
  s.toList.mergeSort fun x y => compare (lineOf b x) (lineOf b y) != .gt

theorem written_perm : (written b s).Perm s.toList := List.mergeSort_perm _ _

/-- Encoding a set lists its entries in the order of their lines. -/
theorem encode_eq : encode b s = listing ((written b s).map (entryOf b)) := by
  have hline : (fun d => String.ofList (entryOf b d).line) = lineOf b := by
    funext d
    rw [← toList_lineOf, String.ofList_toList]
  have hsort : (written b s).map (lineOf b) =
      (s.toList.map (lineOf b)).mergeSort fun x y => compare x y != .gt :=
    List.map_mergeSort fun _ _ _ _ => rfl
  rw [encode, listing, List.map_map, ← hsort, ← hline]
  rfl

/-- The line of the dependency begins like a comment. -/
def opensComment (d : Dependency) : Bool := d.id.group.toList.head? == some '#'

theorem isEntryLine_line {d : Dependency} (hf : (entryOf b d).Formed) :
    isEntryLine (entryOf b d).line = !opensComment d := by
  unfold isEntryLine opensComment
  rw [hf.head?_line, decide_eq_true Entry.line_ne_nil, Bool.true_and]
  rfl

theorem filter_trimmedLines_encode (hf : ∀ d ∈ s.toList, (entryOf b d).Formed) :
    (trimmedLines (encode b s)).filter isEntryLine =
      ((written b s).filter (!opensComment ·)).map fun d => (entryOf b d).line := by
  have hwritten : ∀ d ∈ written b s, (entryOf b d).Formed := fun d hd =>
    hf d (written_perm.mem_iff.1 hd)
  rw [encode_eq, filter_trimmedLines_listing (List.forall_mem_map.2 hwritten), List.map_map,
    List.filter_map]
  exact congrArg _ (List.filter_congr fun d hd => isEntryLine_line (hwritten d hd))

/-- What comes back from an encoded set. -/
def kept (s : DependencySet) : DependencySet :=
  { dependencies := s.lockView.dependencies.filter (!opensComment ·) }

theorem toList_kept :
    (kept s).toList = (s.toList.filter (!opensComment ·)).map Dependency.withoutRecommended :=
  List.filter_map

theorem kept_eq_lockView_iff : kept s = s.lockView ↔ ∀ d ∈ s.toList, opensComment d = false := by
  have hlist : s.lockView.toList = s.toList.map Dependency.withoutRecommended := rfl
  refine ⟨fun h d hd => ?_, fun h => ?_⟩
  · have hd : d.withoutRecommended ∈ (kept s).toList := by
      rw [h, hlist]
      exact List.mem_map_of_mem hd
    rw [toList_kept] at hd
    obtain ⟨e, he, hed⟩ := List.mem_map.1 hd
    have hid := congrArg Dependency.id hed
    change e.id = d.id at hid
    have he := (List.mem_filter.1 he).2
    rw [Bool.not_eq_true', opensComment, hid] at he
    exact he
  · refine congrArg (DependencySet.mk · .empty .empty) (Catalog.ext ?_)
    show (kept s).toList = s.lockView.toList
    rw [toList_kept, hlist, List.filter_eq_self.2 fun d hd => by rw [h d hd]; rfl]

/-- Where the entry of every dependency that is not lost stands for some dependency on the same
product, for whatever build it is read, these make up the set that is read. -/
theorem decode_encode_of_reads {c : Build} {f : Dependency → Dependency}
    (hid : ∀ d, (f d).id = d.id) (hf : ∀ d ∈ s.toList, (entryOf b d).Formed)
    (hread : ∀ d ∈ s.toList, opensComment d = false → (entryOf b d).dependency c = .ok (f d)) :
    decode c (encode b s) =
      .ok { dependencies := (s.dependencies.filter (!opensComment ·)).map f hid } := by
  have hperm : (((written b s).filter (!opensComment ·)).map f).Perm
      ((s.dependencies.filter (!opensComment ·)).map f hid).toList :=
    (written_perm.filter _).map _
  refine decode_eq_ok_iff.2 ⟨((written b s).filter (!opensComment ·)).map f, ?_, ?_, ?_⟩
  · rw [filter_trimmedLines_encode hf, List.map_map, List.map_map]
    refine List.map_congr_left fun d hd => ?_
    obtain ⟨hd, hcomment⟩ := List.mem_filter.1 hd
    have hd := written_perm.mem_iff.1 hd
    rw [Bool.not_eq_true'] at hcomment
    exact readLine_eq_ok_iff.2 ⟨entryOf b d, hf d hd, rfl, hread d hd hcomment⟩
  · exact (hperm.map _).nodup_iff.2 (Catalog.nodup_keys _)
  · exact congrArg (DependencySet.mk · .empty .empty) (Catalog.ofList_eq_of_perm hperm).symm

theorem decode_encode (hv : ∀ d ∈ s.toList, d.Valid) (hr : ∀ d ∈ s.toList, d.minimum.IsRead) :
    decode b (encode b s) = .ok (kept s) := by
  have hkept : (s.dependencies.filter (!opensComment ·)).map Dependency.withoutRecommended
      (fun _ => rfl) = (kept s).dependencies := Catalog.ext toList_kept.symm
  have h := decode_encode_of_reads (c := b) (f := Dependency.withoutRecommended) (fun _ => rfl)
    (fun d hd => entryOf_formed (b := b) (hv d hd) (hr d hd))
    fun d hd _ => dependency_entryOf (hv d hd) (hr d hd)
  rw [h, hkept]
  rfl

/-- For whatever build a set is encoded, reading it back gives its lock view without the
dependencies whose group begins with `#`, and gives the lock view itself just when there are none
of these. -/
theorem roundtrip_iff_no_comment (b : Build) (s : DependencySet)
    (hv : ∀ d ∈ s.toList, d.Valid) (hr : ∀ d ∈ s.toList, d.minimum.IsRead) :
    decode b (encode b s) =
        .ok { dependencies := s.lockView.dependencies.filter fun d =>
          d.id.group.toList.head? != some '#' } ∧
      (decode b (encode b s) = .ok s.lockView ↔
        ∀ d ∈ s.toList, d.id.group.toList.head? ≠ some '#') := by
  have hdecode : decode b (encode b s) = .ok (kept s) := decode_encode hv hr
  refine ⟨hdecode, ?_⟩
  rw [hdecode, Except.ok.injEq, kept_eq_lockView_iff]
  refine forall₂_congr fun d hd => ?_
  rw [opensComment, beq_eq_false_iff_ne]

theorem roundtrip_of_placeholder :
    let b : Build := ⟨"1.4.0", .ofList [⟨"com.example", "sibling"⟩]⟩
    let sibling : Dependency := ⟨⟨"com.example", "sibling"⟩, .orderable ⟨⟨1, 4, 0⟩, .release⟩,
      .major 1, some (.orderable ⟨⟨1, 5, 0⟩, .release⟩), true⟩
    let other : Dependency := ⟨⟨"com.other", "#lib"⟩, .freeform ⟨⟨1, 4, 0⟩, "1.4.0-dirty"⟩, .any,
      none, false⟩
    let s : DependencySet := .ofList [other, sibling]
    decode b (encode b s) = .ok s.lockView := by
  intro b sibling other s
  have hs : s.toList = [sibling, other] := by decide +kernel
  have hread : sibling.minimum.IsRead ∧ other.minimum.IsRead :=
    ⟨⟨"1.4.0", by decide +kernel⟩, ⟨"1.4.0-dirty", by decide +kernel⟩⟩
  refine (roundtrip_iff_no_comment b s ?_ ?_).2.2 ?_
  · rw [hs]
    decide +kernel
  · rw [hs]
    exact List.forall_mem_cons.2 ⟨hread.1, List.forall_mem_singleton.2 hread.2⟩
  · rw [hs]
    decide

/-- A valid dependency that is lost: its line is taken for a comment. -/
theorem decode_encode_comment_lost :
    let b : Build := ⟨"0.0.0", .empty⟩
    let d : Dependency :=
      ⟨⟨"#foo", "bar"⟩, .orderable ⟨⟨1, 0, 0⟩, .release⟩, .major 1, none, false⟩
    let s : DependencySet := .ofList [d]
    (∀ d ∈ s.toList, d.Valid ∧ d.minimum.IsRead) ∧ decode b (encode b s) = .ok {} ∧
      decode b (encode b s) ≠ .ok s.lockView := by
  intro b d s
  have hs : s.toList = [d] := by decide +kernel
  have hd : d.Valid ∧ d.minimum.IsRead := ⟨by decide +kernel, "1.0.0", by decide +kernel⟩
  have hlost : decode b (encode b s) = .ok {} := by decide +kernel
  refine ⟨hs ▸ List.forall_mem_singleton.2 hd, hlost, ?_⟩
  rw [hlost]
  decide +kernel

end LockText

end ProductLock
