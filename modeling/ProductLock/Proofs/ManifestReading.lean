import ProductLock.Proofs.JsonValues
import ProductLock.Proofs.SoundDependency

/-!
# Reading a manifest as a descriptor

A manifest is a list of entries of the form that a descriptor has, so it can stand in a descriptor
as it is. Its text is read entry by entry as what was written (`reads_manifest`), and from what an
entry was written from the entry is read back, with what had been left out filled in again
(`ofDocument?_document`). The versions in it were texts before, so the dependency is built again
from them, and since it kept the rules it still does. What does not come back is the optional flag,
which building from texts leaves unset.
-/

namespace ProductLock

open Json (AreBlank Reads)

namespace DescriptorEntry

variable {e : DescriptorEntry}

/-- What an entry is written as. -/
def document (e : DescriptorEntry) : Document :=
  .record (e.members.map fun m => (some m.1, Json.document m.2))

theorem isSome_read?_of_mem_members : ∀ m ∈ e.members, (Json.read? m.2).isSome = true := by
  unfold members
  cases e.recommended <;> cases e.isOptional <;> simp [Json.read?_quote, Json.read?_true]

theorem reads_text (e : DescriptorEntry) : Reads e.text.toList e.document := by
  have hname : ∀ m ∈ e.members, Json.tokens? ([' ', ' ', ' ', ' '] ++ (Json.quote m.1).toList) =
      some [.text (some m.1)] := by
    intro m _
    rw [Json.AreBlank.tokens?_append (by decide), Json.tokens?_quote]
  have hvalue : ∀ m ∈ e.members, Reads ([' '] ++ m.2.toList ++ []) (Json.document m.2) :=
    fun m hm => (Json.reads_document (isSome_read?_of_mem_members m hm)).padded (by decide) .nil
  have hrecord := Reads.record (by decide : AreBlank ['\n']) (by decide : AreBlank ['\n'])
    (by decide : AreBlank ['\n', ' ', ' ']) hname hvalue
  have h := hrecord.padded (by decide : AreBlank [' ', ' ']) .nil
  convert h using 1
  · simp [DescriptorEntry.text, memberText, String.toList_intercalate, Function.comp_def]
  · rfl

/-- What was left out of an entry is missing from what it is read as. -/
theorem fields?_document (e : DescriptorEntry) : e.document.fields? false fieldNames =
    some [some (.text e.group), some (.text e.name), some (.text e.minimum), some (.text e.maximum),
      e.recommended.map .text, if e.isOptional then some (.flag true) else none] := by
  unfold document members
  cases e.recommended <;> cases e.isOptional <;>
    simp [Json.document, Json.read?_quote, Json.read?_true, Document.fields?, fieldNames,
      List.lookup_cons]

theorem ofDocument?_document (e : DescriptorEntry) : ofDocument? e.document = some e := by
  rw [ofDocument?, fields?_document]
  obtain ⟨group, name, minimum, maximum, recommended, isOptional⟩ := e
  cases recommended <;> cases isOptional <;> rfl

/-- From what a dependency was written as it is built again, but not marked optional. -/
theorem dependency_ofDependency {d : Dependency} (h : d.Sound) :
    (ofDependency d).dependency = .ok (d.withOptional false) := by
  have hminimum := Version.read_eq_ok_iff.2 h.isRead.minimum.read?_text
  have hmaximum : Bound.read d.maximum.text = .ok d.maximum := Bound.read_eq_ok_iff.2 rfl
  have hrecommended : Version.readOptional (d.recommended.map Version.text) =
      .ok d.recommended := by
    cases hr : d.recommended with
    | none => rfl
    | some r =>
        have hread := Version.read_eq_ok_iff.2 (h.isRead.recommended r hr).read?_text
        rw [Option.map_some, Version.readOptional, hread]
        rfl
  have hchecked : Dependency.checked (d.withOptional false) = .ok (d.withOptional false) :=
    Dependency.checked_eq_ok_iff.2 ⟨Dependency.valid_withOptional.2 h.valid, rfl⟩
  simp only [dependency, ofDependency, Dependency.Source.dependency, Dependency.Source.parts,
    hminimum, hmaximum, hrecommended]
  exact hchecked

end DescriptorEntry

theorem DependencySet.reads_manifest (s : DependencySet) : Reads s.manifest.toList
    (.list (s.toList.map fun d => (DescriptorEntry.ofDependency d).document)) := by
  unfold manifest
  split
  next h =>
    rw [h]
    have hnone : ∀ d ∈ ([] : List Dependency), Reads [] .null :=
      fun _ hd => absurd hd List.not_mem_nil
    exact Reads.list .nil .nil .nil hnone
  next ds hne =>
    have hentry : ∀ d ∈ s.toList, Reads (DescriptorEntry.ofDependency d).text.toList
        (DescriptorEntry.ofDependency d).document := fun d _ => DescriptorEntry.reads_text _
    have h := Reads.list (by decide : AreBlank ['\n']) (by decide : AreBlank ['\n'])
      (by decide : AreBlank ['\n']) hentry
    convert h using 1
    simp [String.toList_intercalate, Function.comp_def]

/-! ## A manifest in a descriptor -/

/-- The field under a name that one member only has. -/
theorem Document.fields?_of_unique {before after : List (Option String × Document)} {n : String}
    {d : Document} {more : Bool}
    (h : ∀ m ∈ before ++ after, m.1.isSome = true ∧ m.1 ≠ some n) :
    (Document.record (before ++ (some n, d) :: after)).fields? more [n] = some [some d] := by
  obtain ⟨hbefore, hafter⟩ := List.forall_mem_append.1 h
  have hall : (before ++ (some n, d) :: after).all (·.1.isSome) = true := by
    rw [List.all_append, List.all_cons, Option.isSome_some, Bool.true_and, ← List.all_append]
    exact List.all_eq_true.2 fun m hm => (h m hm).1
  have hcount : (before ++ (some n, d) :: after).countP (·.1 == some n) = 1 := by
    rw [List.countP_append, List.countP_cons, List.countP_eq_zero.2, List.countP_eq_zero.2]
    · simp
    · exact fun m hm => by simpa using (hafter m hm).2
    · exact fun m hm => by simpa using (hbefore m hm).2
  have hlookup : (before ++ (some n, d) :: after).lookup (some n) = some d := by
    have hnone : before.lookup (some n) = none :=
      List.lookup_eq_none_iff.2 fun m hm => bne_iff_ne.2 (hbefore m hm).2.symm
    rw [List.lookup_append, hnone, List.lookup_cons_self]
    rfl
  rw [fields?, if_pos]
  · rw [List.map_singleton, hlookup]
  · rw [hall, List.all_cons, hcount]
    rfl

theorem DescriptorEntry.mapM_document (es : List DescriptorEntry) :
    (es.map document).mapM ofDocument? = some es := by
  have h : ofDocument? ∘ document = some := funext ofDocument?_document
  rw [List.mapM_map, h]
  exact List.mapM_pure.trans (congrArg some (List.map_id es))

theorem Descriptor.ofDocument?_of_unique {before after : List (Option String × Document)}
    {es : List DescriptorEntry}
    (h : ∀ m ∈ before ++ after, m.1.isSome = true ∧ m.1 ≠ some "recommended-product-dependencies") :
    ofDocument? (.record (before ++ (some "recommended-product-dependencies",
      .list (es.map DescriptorEntry.document)) :: after)) = some ⟨es⟩ := by
  rw [ofDocument?, Document.fields?_of_unique h]
  show ((es.map DescriptorEntry.document).mapM DescriptorEntry.ofDocument?).bind _ = _
  rw [DescriptorEntry.mapM_document]
  rfl

/-- A manifest that stands as the recommended dependencies in a record, whatever the other members
of it are, however the names are spelled and wherever there are blanks. It is read as one entry for
each dependency of the set, in the order of the product ids; and from these the dependencies are
built again as they were, but none marked optional. -/
theorem Descriptor.read?_around_manifest {s : DependencySet} {before after : List (String × String)}
    {key value text : String} (hs : ∀ d ∈ s.toList, d.Sound)
    (hothers : ∀ m ∈ before ++ after, (Json.name? m.1).isSome = true ∧
      Json.name? m.1 ≠ some "recommended-product-dependencies" ∧ (Json.read? m.2).isSome = true)
    (hkey : Json.name? key = some "recommended-product-dependencies")
    (hvalue : Json.Padded s.manifest value)
    (htext : Json.Padded (Json.recordText (before ++ (key, value) :: after)) text) :
    ∃ x, read? text = some x ∧ x.entries = s.toList.map .ofDependency ∧
      (x.entries.Pairwise fun a b =>
        compare (⟨a.group, a.name⟩ : ProductId) ⟨b.group, b.name⟩ = .lt) ∧
      x.dependencies = .ok (s.toList.map (·.withOptional false)) := by
  let entries := s.toList.map DescriptorEntry.ofDependency
  have hmanifest : Json.read? value = some (.list (entries.map DescriptorEntry.document)) := by
    rw [hvalue.read? (Json.read?_eq_some_iff.2 s.reads_manifest), List.map_map]
    rfl
  have hread : read? text = some ⟨entries⟩ := by
    obtain ⟨hbefore, hafter⟩ := List.forall_mem_append.1 hothers
    have hmembers : ∀ m ∈ before ++ (key, value) :: after,
        (Json.name? m.1).isSome = true ∧ (Json.read? m.2).isSome = true := by
      refine List.forall_mem_append.2 ⟨fun m hm => ?_, List.forall_mem_cons.2 ⟨?_, fun m hm => ?_⟩⟩
      · exact (hbefore m hm).imp_right And.right
      · simp [hkey, hmanifest]
      · exact (hafter m hm).imp_right And.right
    rw [read?, htext.read? (Json.read?_recordText hmembers), List.map_append, List.map_cons, hkey,
      Json.document, hmanifest]
    refine ofDocument?_of_unique ?_
    rw [← List.map_append, List.forall_mem_map]
    exact fun m hm => ⟨(hothers m hm).1, (hothers m hm).2.1⟩
  refine ⟨⟨entries⟩, hread, rfl, List.pairwise_map.2 s.dependencies.ascending, ?_⟩
  rw [dependencies, mapM_eq_ok_iff, List.map_map, List.map_map]
  exact List.map_congr_left fun d hd => DescriptorEntry.dependency_ofDependency (hs d hd)

/-- Names with a quote, a backslash and a control character, a minimum outside the order, and a
record written on several lines. -/
theorem Descriptor.read?_around_manifest_escaped :
    let marked : Dependency := ⟨⟨"com.foo", "b\"a\\r\x01"⟩, .freeform ⟨⟨1, 2, 0⟩, "1.2.0.dirty"⟩,
      .minor 1 2, none, true⟩
    let plain : Dependency := ⟨⟨"com.zed", "bar"⟩, .orderable ⟨⟨1, 0, 0⟩, .release⟩, .major 1,
      some (.orderable ⟨⟨1, 1, 0⟩, .release⟩), false⟩
    let s := DependencySet.ofList [plain, marked]
    ∃ x, read? (Json.recordText [("\n\"size\"", " [1e5, null]"),
        ("\n\"recommended-product-dependencies\"", " " ++ s.manifest)] ++ "\n") = some x ∧
      x.entries = [.ofDependency marked, .ofDependency plain] ∧
      x.dependencies = .ok [marked.withOptional false, plain] := by
  intro marked plain s
  have hlist : s.toList = [marked, plain] := by decide +kernel
  clear_value s
  have hmarked : marked.Sound := Declaration.sound_of_dependency
    (x := ⟨"com.foo", "b\"a\\r\x01", "1.2.0.dirty", some "1.2.x", none, true⟩) (by decide +kernel)
  have hplain : plain.Sound := Declaration.sound_of_dependency
    (x := ⟨"com.zed", "bar", "1.0.0", none, some "1.1.0", false⟩) (by decide +kernel)
  have hsound : ∀ d ∈ s.toList, d.Sound := by
    rw [hlist]
    exact List.forall_mem_cons.2 ⟨hmarked, List.forall_mem_singleton.2 hplain⟩
  have hothers : ∀ m ∈ [("\n\"size\"", " [1e5, null]")] ++ ([] : List (String × String)),
      (Json.name? m.1).isSome = true ∧
        Json.name? m.1 ≠ some "recommended-product-dependencies" ∧
        (Json.read? m.2).isSome = true := by
    decide +kernel
  have hkey : Json.name? "\n\"recommended-product-dependencies\"" =
      some "recommended-product-dependencies" := by
    decide +kernel
  have hvalue : Json.Padded s.manifest (" " ++ s.manifest) :=
    ⟨" ", "", by decide, by decide, String.append_empty.symm⟩
  obtain ⟨x, hx, hentries, _, hdependencies⟩ :=
    read?_around_manifest hsound hothers hkey hvalue ⟨"", "\n", by decide, by decide, rfl⟩
  rw [String.empty_append] at hx
  rw [hlist] at hentries hdependencies
  exact ⟨x, hx, hentries, hdependencies⟩

end ProductLock
