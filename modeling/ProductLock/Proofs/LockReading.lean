import ProductLock.Proofs.CatalogMembership
import ProductLock.Proofs.LockEntry
import ProductLock.Proofs.Outcomes

/-!
# What a lock file is read as

An entry stands for a dependency when its pieces are the texts of the parts (`readLine_eq_ok_iff`).
Reading the entry lines one after another succeeds exactly when every line stands for a dependency
and no two of these are on the same product; then all of them are filed and nothing else
(`foldlM_addLine_eq_ok_iff`, an induction over the lines in which the set read so far is free, and
`decode_eq_ok_iff` for a whole text).
-/

namespace ProductLock

namespace Dependency

theorem valid_withOptional {d : Dependency} {isOptional : Bool} :
    (d.withOptional isOptional).Valid ↔ d.Valid := by
  rw [← violation?_eq_none_iff, ← violation?_eq_none_iff]
  rfl

theorem Valid.withoutRecommended {d : Dependency} (h : d.Valid) : d.withoutRecommended.Valid :=
  { h with recommended_le := fun _ hr => by cases hr }

end Dependency

namespace DependencySet

theorem contains_insert_eq_false_iff {s : DependencySet} {d : Dependency} {id : ProductId} :
    (s.insert d).contains id = false ↔ d.id ≠ id ∧ s.contains id = false := by
  rw [← Bool.not_eq_true, ← Bool.not_eq_true]
  exact (not_congr Catalog.contains_insert).trans not_or

theorem foldl_insert {ds : List Dependency} {s : DependencySet} :
    ds.foldl .insert s = { s with dependencies := ds.foldl Catalog.insert s.dependencies } := by
  induction ds generalizing s with
  | nil => rfl
  | cons d ds ih => exact ih

end DependencySet

namespace LockText

theorem Entry.dependency_eq_ok_iff {b : Build} {e : Entry} {d : Dependency} :
    e.dependency b = .ok d ↔
      d.Valid ∧ d.id = ⟨e.group, e.name⟩ ∧
        Version.read? (if e.minimum = placeholder then b.version else e.minimum) = some d.minimum ∧
        e.maximum = d.maximum.text ∧ d.recommended = none ∧ d.isOptional = e.isOptional := by
  unfold dependency
  simp only [bind_eq_ok_iff, Version.read_eq_ok_iff, Bound.read_eq_ok_iff,
    Dependency.checked_eq_ok_iff]
  refine ⟨fun h => ?_, fun h => ?_⟩
  · obtain ⟨minimum, hminimum, maximum, hmaximum, _, ⟨hv, rfl⟩, h⟩ := h
    cases h
    exact ⟨Dependency.valid_withOptional.2 hv, rfl, hminimum, hmaximum, rfl, rfl⟩
  · obtain ⟨hv, hid, hminimum, hmaximum, hrecommended, hoptional⟩ := h
    have hd : Dependency.withOptional ⟨⟨e.group, e.name⟩, d.minimum, d.maximum, none, false⟩
        e.isOptional = d := by
      rw [← hid, ← hrecommended, ← hoptional]
      rfl
    refine ⟨_, hminimum, _, hmaximum, _, ⟨?_, rfl⟩, congrArg Except.ok hd⟩
    rw [← hd] at hv
    exact Dependency.valid_withOptional.1 hv

theorem readLine_eq_ok_iff {b : Build} {line : List Char} {d : Dependency} :
    readLine b line = .ok d ↔ ∃ e : Entry, e.Formed ∧ line = e.line ∧ e.dependency b = .ok d := by
  unfold readLine
  refine ⟨fun h => ?_, fun h => ?_⟩
  · split at h
    next => cases h
    next e he =>
      obtain ⟨hf, hline⟩ := Entry.ofLine?_eq_some_iff.1 he
      exact ⟨e, hf, hline, mapError_eq_ok_iff.1 h⟩
  · obtain ⟨e, hf, hline, h⟩ := h
    rw [Entry.ofLine?_eq_some_iff.2 ⟨hf, hline⟩]
    exact mapError_eq_ok_iff.2 h

/-- Lines are read as dependencies when they are the lines of entries that stand for these. -/
theorem map_readLine_eq_iff {b : Build} {lines : List (List Char)} {ds : List Dependency} :
    lines.map (readLine b) = ds.map .ok ↔
      ∃ es : List Entry, (∀ e ∈ es, e.Formed) ∧ lines = es.map Entry.line ∧
        es.map (Entry.dependency b) = ds.map .ok := by
  induction lines generalizing ds with
  | nil =>
      refine ⟨fun h => ?_, fun h => ?_⟩
      · obtain rfl := List.map_eq_nil_iff.1 h.symm
        exact ⟨[], nofun, rfl, rfl⟩
      · obtain ⟨es, _, hes, h⟩ := h
        obtain rfl := List.map_eq_nil_iff.1 hes.symm
        obtain rfl := List.map_eq_nil_iff.1 h.symm
        rfl
  | cons line lines ih =>
      refine ⟨fun h => ?_, fun h => ?_⟩
      · cases ds with
        | nil => cases h
        | cons d ds =>
            obtain ⟨hline, hlines⟩ := List.cons.inj h
            obtain ⟨e, he, rfl, hd⟩ := readLine_eq_ok_iff.1 hline
            obtain ⟨es, hf, rfl, hds⟩ := ih.1 hlines
            exact ⟨e :: es, List.forall_mem_cons.2 ⟨he, hf⟩, rfl, congrArg₂ List.cons hd hds⟩
      · obtain ⟨es, hf, hes, h⟩ := h
        cases es with
        | nil => cases hes
        | cons e es =>
            cases ds with
            | nil => cases h
            | cons d ds =>
                obtain ⟨rfl, rfl⟩ := List.cons.inj hes
                obtain ⟨hd, hds⟩ := List.cons.inj h
                obtain ⟨he, hf⟩ := List.forall_mem_cons.1 hf
                have hread := readLine_eq_ok_iff.2 ⟨e, he, rfl, hd⟩
                exact congrArg₂ List.cons hread (ih.2 ⟨es, hf, rfl, hds⟩)

/-- Nothing but the recommendation is lost on a line. -/
theorem dependency_entryOf {b : Build} {d : Dependency} (hv : d.Valid) (hr : d.minimum.IsRead) :
    (entryOf b d).dependency b = .ok d.withoutRecommended := by
  refine Entry.dependency_eq_ok_iff.2 ⟨hv.withoutRecommended, rfl, ?_, rfl, rfl, rfl⟩
  have hminimum := minimumText_read (b := b) hr
  exact (congrArg Version.read? hminimum).trans hr.read?_text

/-! ## Line after line -/

theorem addLine_eq_ok_iff {b : Build} {s t : DependencySet} {entry : Nat × List Char} :
    addLine b s entry = .ok t ↔
      ∃ d, readLine b entry.2 = .ok d ∧ s.contains d.id = false ∧ t = s.insert d := by
  unfold addLine
  cases readLine b entry.2 with
  | error fault => simp
  | ok d =>
      simp only [Except.ok.injEq, exists_eq_left']
      cases s.contains d.id with
      | true => simp
      | false => simp [eq_comm (a := t)]

theorem foldlM_addLine_eq_ok_iff {b : Build} {entries : List (Nat × List Char)}
    {s t : DependencySet} :
    entries.foldlM (addLine b) s = .ok t ↔
      ∃ ds : List Dependency, (entries.map fun entry => readLine b entry.2) = ds.map .ok ∧
        (ds.map Dependency.id).Nodup ∧ (∀ d ∈ ds, s.contains d.id = false) ∧
        t = ds.foldl .insert s := by
  induction entries generalizing s with
  | nil =>
      rw [List.foldlM_nil, pure_eq_ok_iff]
      refine ⟨fun h => ⟨[], rfl, .nil, by simp, h.symm⟩, fun h => ?_⟩
      obtain ⟨ds, hds, _, _, rfl⟩ := h
      rw [List.map_eq_nil_iff.1 hds.symm]
      rfl
  | cons entry entries ih =>
      rw [List.foldlM_cons, bind_eq_ok_iff]
      simp only [addLine_eq_ok_iff, ih]
      refine ⟨fun h => ?_, fun h => ?_⟩
      · obtain ⟨_, ⟨d, hd, hs, rfl⟩, ds, hds, hnodup, hfree, rfl⟩ := h
        have hfree e he := DependencySet.contains_insert_eq_false_iff.1 (hfree e he)
        refine ⟨d :: ds, ?_, List.nodup_cons.2 ⟨fun hmem => ?_, hnodup⟩,
          List.forall_mem_cons.2 ⟨hs, fun e he => (hfree e he).2⟩, rfl⟩
        · rw [List.map_cons, List.map_cons, hd, hds]
        · obtain ⟨e, he, heq⟩ := List.mem_map.1 hmem
          exact (hfree e he).1 heq.symm
      · obtain ⟨ds, hds, hnodup, hfree, rfl⟩ := h
        cases ds with
        | nil => cases hds
        | cons d ds =>
            obtain ⟨hd, hds⟩ := List.cons.inj hds
            obtain ⟨hmem, hnodup⟩ := List.nodup_cons.1 hnodup
            obtain ⟨hs, hfree⟩ := List.forall_mem_cons.1 hfree
            refine ⟨_, ⟨d, hd, hs, rfl⟩, ds, hds, hnodup, fun e he => ?_, rfl⟩
            refine DependencySet.contains_insert_eq_false_iff.2 ⟨fun heq => hmem ?_, hfree e he⟩
            exact heq ▸ List.mem_map_of_mem he

/-- The entry lines among some lines, with their numbers, counted from `n` over all of them. -/
def numbered (n : Nat) (lines : List (List Char)) : List (Nat × List Char) :=
  (lines.zipIdx n).filterMap fun (line, n) => if isEntryLine line then some (n, line) else none

theorem map_snd_numbered {n : Nat} {lines : List (List Char)} :
    (numbered n lines).map Prod.snd = lines.filter isEntryLine := by
  unfold numbered
  induction lines generalizing n with
  | nil => rfl
  | cons line lines ih =>
      rw [List.zipIdx_cons, List.filterMap_cons, List.filter_cons]
      by_cases hline : isEntryLine line = true
      · simp only [if_pos hline, List.map_cons, ih]
      · simp only [if_neg hline, ih]

/-- Where the entry lines are cut at one of them, so are the lines, and its number says where. -/
theorem numbered_eq_append_cons_iff {n m : Nat} {lines : List (List Char)} {line : List Char}
    {before : List (Nat × List Char)} :
    (∃ after, numbered n lines = before ++ (m, line) :: after) ↔ ∃ above below,
      lines = above ++ line :: below ∧ isEntryLine line = true ∧ m = n + above.length ∧
        before = numbered n above := by
  unfold numbered
  refine ⟨fun h => ?_, fun h => ?_⟩
  · obtain ⟨after, h⟩ := h
    obtain ⟨first, _, hsplit, rfl, hrest⟩ := List.filterMap_eq_append_iff.1 h
    obtain ⟨skipped, _, _, rfl, hskipped, hline, _⟩ := List.filterMap_eq_cons_iff.1 hrest
    rw [← List.append_assoc] at hsplit
    obtain ⟨above, _, rfl, habove, hbelow⟩ := List.zipIdx_eq_append_iff.1 hsplit
    obtain ⟨line', below, rfl, rfl, _⟩ := List.zipIdx_eq_cons_iff.1 hbelow.symm
    obtain ⟨hentry, heq⟩ := Option.ite_none_right_eq_some.1 hline
    cases heq
    refine ⟨above, below, rfl, hentry, rfl, ?_⟩
    rw [← habove, List.filterMap_append, List.filterMap_eq_nil_iff.2 hskipped, List.append_nil]
  · obtain ⟨above, below, rfl, hentry, rfl, rfl⟩ := h
    rw [List.zipIdx_append, List.filterMap_append, List.zipIdx_cons, List.filterMap_cons]
    simp only [if_pos hentry]
    exact ⟨_, rfl⟩

theorem foldlM_numbered_eq_ok_iff {b : Build} {n : Nat} {lines : List (List Char)}
    {t : DependencySet} : (numbered n lines).foldlM (addLine b) {} = .ok t ↔
      ∃ ds : List Dependency, (lines.filter isEntryLine).map (readLine b) = ds.map .ok ∧
        (ds.map Dependency.id).Nodup ∧ t = .ofList ds := by
  rw [foldlM_addLine_eq_ok_iff, ← map_snd_numbered (n := n), List.map_map]
  refine exists_congr fun ds => and_congr Iff.rfl (and_congr Iff.rfl ?_)
  rw [DependencySet.foldl_insert]
  exact ⟨And.right, fun h => ⟨fun _ _ => rfl, h⟩⟩

theorem decode_eq_ok_iff {b : Build} {text : String} {t : DependencySet} :
    decode b text = .ok t ↔
      ∃ ds : List Dependency, ((trimmedLines text).filter isEntryLine).map (readLine b) =
        ds.map .ok ∧ (ds.map Dependency.id).Nodup ∧ t = .ofList ds :=
  foldlM_numbered_eq_ok_iff

end LockText

end ProductLock
