import Mathlib.Data.String.Basic
import ProductLock.Proofs.LockRoundtrip

/-!
# The canonical form of a lock file

Reading a lock file and writing what was read puts the text into a form that depends on nothing but
its entries. Every entry line comes back, changed in its minimum at most: that is written as the
placeholder just where the product is a workspace product and the minimum is the version of the
build (`Entry.canonical`). The lines are sorted, and blank lines, comments and blank ends are gone.

A text in this form is called canonical (`IsCanonical`). That is said of the text alone, without
reading it; what is written is canonical, and a canonical text that can be read is what is written
for the set it stands for. The two halves meet in the entries, since a line determines its entry.
-/

namespace ProductLock.LockText

namespace Entry

/-- The minimum that the entry asks for in the build that reads it. -/
def minimumIn (b : Build) (e : Entry) : String :=
  if e.minimum = placeholder then b.version else e.minimum

/-- The placeholder stands just where the build puts it. -/
def IsCanonical (b : Build) (e : Entry) : Prop :=
  e.minimum = placeholder ↔
    b.workspace.contains ⟨e.group, e.name⟩ = true ∧ e.minimumIn b = b.version

/-- The entry with its minimum as the build writes it. -/
def canonical (b : Build) (e : Entry) : Entry :=
  { e with
    minimum :=
      if b.workspace.contains ⟨e.group, e.name⟩ = true ∧ e.minimumIn b = b.version then placeholder
      else e.minimumIn b }

theorem canonical_eq_self {b : Build} {e : Entry} (h : e.IsCanonical b) : e.canonical b = e := by
  have hminimum : (e.canonical b).minimum = e.minimum := by
    unfold canonical
    dsimp only
    split
    next hc => exact (h.2 hc).symm
    next hc => exact if_neg (mt h.1 hc)
  show (⟨e.group, e.name, (e.canonical b).minimum, e.maximum, e.isOptional⟩ : Entry) = e
  rw [hminimum]

/-- The lines of the entries are in ascending order. -/
def Ascending (es : List Entry) : Prop :=
  es.Pairwise fun e f => String.ofList e.line ≤ String.ofList f.line

/-- Entries that are sorted by their lines are determined as a collection. -/
theorem Ascending.eq_of_perm {es fs : List Entry} (hes : Ascending es) (hfs : Ascending fs)
    (hf : ∀ e ∈ es, e.Formed) (hp : es.Perm fs) : es = fs := by
  refine hp.eq_of_pairwise (fun e f he hf' hle hge => ?_) hes hfs
  have hline := String.ofList_injective (Std.le_antisymm hle hge)
  exact (hf e he).eq_of_line_eq (hf f (hp.mem_iff.2 hf')) hline

end Entry

/-- The text lists entries as the build writes them, in the order of their lines, and none of these
looks like a comment. -/
def IsCanonical (b : Build) (text : String) : Prop :=
  ∃ es : List Entry,
    (∀ e ∈ es, e.Formed ∧ isEntryLine e.line = true ∧ e.IsCanonical b) ∧ Entry.Ascending es ∧
      text = listing es

variable {b : Build} {text : String} {s t : DependencySet}

/-! ## Written entries -/

theorem minimumIn_entryOf {d : Dependency} (hr : d.minimum.IsRead) :
    (entryOf b d).minimumIn b = d.minimum.text := minimumText_read hr

theorem entryOf_isCanonical {d : Dependency} (hr : d.minimum.IsRead) :
    (entryOf b d).IsCanonical b := by
  unfold Entry.IsCanonical
  rw [minimumIn_entryOf hr]
  show minimumText b d = placeholder ↔ b.workspace.contains d.id = true ∧ d.minimum.text = b.version
  unfold minimumText
  split
  next h => exact ⟨fun _ => h, fun _ => rfl⟩
  next h => exact ⟨fun he => absurd he (text_ne_placeholder hr), fun hc => absurd hc h⟩

/-- The entry that a dependency was read from is written back in canonical form. -/
theorem entryOf_of_dependency {e : Entry} {d : Dependency} (h : e.dependency b = .ok d) :
    entryOf b d = e.canonical b := by
  obtain ⟨_, hid, hminimum, hmaximum, _, hoptional⟩ := Entry.dependency_eq_ok_iff.1 h
  have htext : d.minimum.text = e.minimumIn b := Version.text_of_read? hminimum
  unfold entryOf Entry.canonical minimumText
  rw [hid, htext, ← hmaximum, hoptional]

theorem written_ascending : Entry.Ascending ((written b s).map (entryOf b)) := by
  have hle (x y : Dependency) :
      (compare (lineOf b x) (lineOf b y) != .gt) = true ↔ lineOf b x ≤ lineOf b y := by
    rw [bne_iff_ne]
    exact compare_le_iff_le
  have hsorted : (written b s).Pairwise fun x y => lineOf b x ≤ lineOf b y := by
    refine (List.pairwise_mergeSort (fun x y z hxy hyz => ?_) (fun x y => ?_) s.toList).imp
      fun h => (hle _ _).1 h
    · exact (hle x z).2 (Std.le_trans ((hle x y).1 hxy) ((hle y z).1 hyz))
    · rw [Bool.or_eq_true, hle, hle]
      exact Std.le_total
  refine List.pairwise_map.2 (hsorted.imp fun h => ?_)
  rwa [← toList_lineOf, ← toList_lineOf, String.ofList_toList, String.ofList_toList]

/-! ## What was read and is written back -/

/-- A text that can be read is a list of entries, each of which stands for one dependency. -/
theorem exists_entries (h : decode b text = .ok t) :
    ∃ (es : List Entry) (ds : List Dependency), (∀ e ∈ es, e.Formed) ∧
      (trimmedLines text).filter isEntryLine = es.map Entry.line ∧
      es.map (Entry.dependency b) = ds.map .ok ∧ t.toList.Perm ds ∧ t = .ofList ds := by
  obtain ⟨ds, hread, hnodup, rfl⟩ := decode_eq_ok_iff.1 h
  obtain ⟨es, hf, hlines, hds⟩ := map_readLine_eq_iff.1 hread
  exact ⟨es, ds, hf, hlines, hds, Catalog.toList_ofList_perm hnodup, rfl⟩

/-- What is read is valid, has no recommendation, and does not look like a comment. -/
theorem of_mem_decode (h : decode b text = .ok t) {d : Dependency} (hd : d ∈ t.toList) :
    d.Valid ∧ d.minimum.IsRead ∧ d.recommended = none ∧ opensComment d = false := by
  obtain ⟨es, ds, hf, hlines, hds, hperm, _⟩ := exists_entries h
  have hmem : (.ok d : Except Invalid Dependency) ∈ es.map (Entry.dependency b) := by
    rw [hds]
    exact List.mem_map_of_mem (hperm.mem_iff.1 hd)
  obtain ⟨e, he, hed⟩ := List.mem_map.1 hmem
  obtain ⟨hv, hid, hminimum, _, hrecommended, _⟩ := Entry.dependency_eq_ok_iff.1 hed
  have hline : isEntryLine e.line = true := by
    have hline : e.line ∈ (trimmedLines text).filter isEntryLine := by
      rw [hlines]
      exact List.mem_map_of_mem he
    exact (List.mem_filter.1 hline).2
  refine ⟨hv, ⟨_, hminimum⟩, hrecommended, ?_⟩
  rw [isEntryLine, (hf e he).head?_line, Bool.and_eq_true] at hline
  rw [opensComment, hid]
  exact Bool.eq_false_iff.2 (by simpa using hline.2)

theorem decode_encode_decode (h : decode b text = .ok t) : decode b (encode b t) = .ok t := by
  have hview : t.lockView = t := by
    obtain ⟨ds, _, _, rfl⟩ := decode_eq_ok_iff.1 h
    refine congrArg (DependencySet.mk · .empty .empty) (Catalog.ext ?_)
    refine (List.map_congr_left fun d hd => ?_).trans (List.map_id _)
    show d.withoutRecommended = d
    rw [Dependency.withoutRecommended, ← (of_mem_decode h hd).2.2.1]
  rw [decode_encode (fun d hd => (of_mem_decode h hd).1) fun d hd => (of_mem_decode h hd).2.1,
    kept_eq_lockView_iff.2 fun d hd => (of_mem_decode h hd).2.2.2, hview]

/-- The entries that are written are those of the text in canonical form. -/
theorem written_perm_canonical {es : List Entry} {ds : List Dependency}
    (hds : es.map (Entry.dependency b) = ds.map .ok) (hperm : t.toList.Perm ds) :
    ((written b t).map (entryOf b)).Perm (es.map (Entry.canonical b)) := by
  have hcanonical : es.map (Entry.canonical b) = ds.map (entryOf b) :=
    map_eq_map_of_ok hds fun _ _ _ hd => (entryOf_of_dependency hd).symm
  rw [hcanonical]
  exact (written_perm.trans hperm).map _

theorem encode_isCanonical (h : decode b text = .ok t) : IsCanonical b (encode b t) := by
  refine ⟨(written b t).map (entryOf b), List.forall_mem_map.2 fun d hd => ?_, written_ascending,
    encode_eq⟩
  obtain ⟨hv, hr, _, hcomment⟩ := of_mem_decode h (written_perm.mem_iff.1 hd)
  have hf : (entryOf b d).Formed := entryOf_formed hv hr
  refine ⟨hf, ?_, entryOf_isCanonical hr⟩
  rw [isEntryLine_line hf, hcomment]
  rfl

theorem encode_of_isCanonical (h : decode b text = .ok t) (hc : IsCanonical b text) :
    encode b t = text := by
  obtain ⟨es, ds, hf, hlines, hds, hperm, _⟩ := exists_entries h
  obtain ⟨fs, hfs, hascending, rfl⟩ := hc
  -- the lines of a canonical text are its entry lines, so both lists are the same entries
  have hes : es = fs := by
    refine Entry.eq_of_map_line_eq hf (fun e he => (hfs e he).1) ?_
    rw [← hlines, filter_trimmedLines_listing fun e he => (hfs e he).1]
    exact List.filter_eq_self.2 (List.forall_mem_map.2 fun e he => (hfs e he).2.1)
  subst hes
  have hself : es.map (Entry.canonical b) = es :=
    (List.map_congr_left fun e he => Entry.canonical_eq_self (hfs e he).2.2).trans (List.map_id _)
  have hwritten := written_perm_canonical hds hperm
  rw [hself] at hwritten
  rw [encode_eq, hascending.eq_of_perm written_ascending hf hwritten.symm]

/-- For whatever build and text, if the text can be read, then writing what was read lists the
entries of the text, each in canonical form, in the order of their lines. Nothing is lost by that,
and the text itself comes back just when it is canonical. -/
theorem encode_decode_canonical (b : Build) (text : String) (t : DependencySet)
    (h : decode b text = .ok t) :
    (∃ es sorted : List Entry, (∀ e ∈ es, e.Formed) ∧
        (trimmedLines text).filter isEntryLine = es.map Entry.line ∧
        sorted.Perm (es.map (Entry.canonical b)) ∧ Entry.Ascending sorted ∧
        encode b t = listing sorted) ∧
      decode b (encode b t) = .ok t ∧
      (encode b t = text ↔ IsCanonical b text) := by
  obtain ⟨es, ds, hf, hlines, hds, hperm, _⟩ := exists_entries h
  refine ⟨⟨es, (written b t).map (entryOf b), hf, hlines, written_perm_canonical hds hperm,
    written_ascending, encode_eq⟩, decode_encode_decode h, fun he => ?_, encode_of_isCanonical h⟩
  exact he ▸ encode_isCanonical h

/-- A placeholder outside the workspace, a minimum of the workspace that is written out, comments,
carriage returns and blank ends: all of that is gone once the text has been read and written. -/
theorem encode_decode_canonical_untidy :
    let b : Build := ⟨"1.4.0", .ofList [⟨"com.example", "sibling"⟩]⟩
    let text := "com.zeta:lib ($projectVersion, 1.x.x) optional \t\r\n\n# old\r\n"
      ++ "com.example:sibling (1.4.0, 2.x.x)\r\n"
    let t : DependencySet := .ofList
      [⟨⟨"com.zeta", "lib"⟩, .orderable ⟨⟨1, 4, 0⟩, .release⟩, .major 1, none, true⟩,
        ⟨⟨"com.example", "sibling"⟩, .orderable ⟨⟨1, 4, 0⟩, .release⟩, .major 2, none, false⟩]
    let tidy := "# Run `slsdep lock` to regenerate this file\n"
      ++ "com.example:sibling ($projectVersion, 2.x.x)\ncom.zeta:lib (1.4.0, 1.x.x) optional\n"
    decode b text = .ok t ∧ encode b t = tidy ∧ decode b tidy = .ok t ∧ ¬ IsCanonical b text := by
  intro b text t tidy
  have hread : decode b text = .ok t := by decide +kernel
  have horder : written b t = t.toList := List.mergeSort_of_pairwise (by decide +kernel)
  have hwritten : encode b t = tidy := by
    rw [encode_eq, horder]
    decide +kernel
  obtain ⟨_, hback, hcanonical⟩ := encode_decode_canonical b text t hread
  refine ⟨hread, hwritten, hwritten ▸ hback, fun hc => ?_⟩
  have hne : encode b t ≠ text := by
    rw [hwritten]
    decide +kernel
  exact hne (hcanonical.2 hc)

end ProductLock.LockText
