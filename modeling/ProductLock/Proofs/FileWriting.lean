import ProductLock.Proofs.FileLookup

/-!
# Writing a file in a directory that is there

Before a file is written the directories on the way to it are made. Where its directory is there,
the first of these is met already, so none is made: something that can be seen at a path cannot be
made there. Then the file is put, and that is all that changes.

`Names` is what has to be known for this: the path ends in a name, and the segments before it lead
to a directory. All else that is done with such a path, looking it up, reading and writing, comes
down to what the directory holds under the name. It is enough that some other file was found in the
same directory under a path of the same kind (`names_of_locate`).
-/

namespace ProductLock.FileTree

variable {t : FileTree} {here l m place : Location} {root path name text : String} {c : Content}
  {bytes : ByteArray}

/-! ## Directories that are there -/

/-- The last segment of a path that can be approached is looked for where those before it lead. -/
theorem way_of_approach (h : t.approach here path = .ok (l, name)) (hne : name ≠ "") :
    ∃ way after, Path.segments path = way ++ name :: after ∧
      t.follow (start here path) way = .ok l := by
  unfold approach at h
  split at h
  next => cases h
  next =>
    cases h
    exact absurd rfl hne
  next last before _ hlast =>
    obtain ⟨l', hl', h⟩ := bind_eq_ok_iff.1 h
    obtain ⟨rfl, rfl⟩ : l' = l ∧ last = name := by
      cases hl : t.isDirectory l' <;> cases hshort : isTooLong last <;> rw [hl, hshort] at h <;>
        cases h
      exact ⟨rfl, rfl⟩
    refine ⟨before.reverse, ((Path.segments path).reverse.takeWhile (·.isEmpty)).reverse, ?_, hl'⟩
    have hcut := List.takeWhile_append_dropWhile (p := (·.isEmpty))
      (l := (Path.segments path).reverse)
    rw [hlast] at hcut
    have hsegments := congrArg List.reverse hcut.symm
    rw [List.reverse_reverse, List.reverse_append, List.reverse_cons,
      List.append_assoc] at hsegments
    exact hsegments

/-- What can be seen at a path cannot be made there. -/
theorem makeDirectory_of_locate (h : t.locate here path = .ok m) :
    ∃ e, t.makeDirectory here path = .error e := by
  cases hmade : t.makeDirectory here path with
  | error e => exact ⟨e, rfl⟩
  | ok u =>
      obtain ⟨⟨l, name⟩, happroach, hmade⟩ := bind_eq_ok_iff.1 hmade
      dsimp only at hmade
      split at hmade
      next => cases hmade
      next hfree =>
        rw [Bool.or_eq_true, not_or, Bool.not_eq_true] at hfree
        obtain ⟨hreserved, hnone⟩ := hfree
        have hname : name ≠ "" := fun he => by
          subst he
          cases hreserved
        obtain ⟨way, after, hsegments, hway⟩ := way_of_approach happroach hname
        obtain ⟨_, hfollow⟩ := locate_eq_ok_iff.1 h
        rw [hsegments, follow_append, hway] at hfollow
        obtain ⟨_, l', hleads, _⟩ := follow_cons_eq_ok_iff.1 hfollow
        exact absurd (hleads.of_not_reserved hreserved).2 hnone

theorem ensureDirectory_of_locate (h : t.locate here path = .ok l) (hl : t.isDirectory l = true) :
    t.ensureDirectory here path = .ok t := by
  have hseen : t.isDirectoryAt here path = true := by
    rw [isDirectoryAt, h]
    exact hl
  obtain ⟨e, he⟩ := makeDirectory_of_locate h
  rw [ensureDirectory, he]
  exact if_pos hseen

/-- Nothing is made on the way to a directory that is there. -/
theorem makeDirectories_of_locate (h : t.locate here path = .ok l) (hl : t.isDirectory l = true) :
    t.makeDirectories here path = ⟨t, .ok ()⟩ := by
  obtain ⟨above, habove⟩ : ∃ above, Path.ancestors path = path :: above := by
    unfold Path.ancestors
    split
    next => exact ⟨[], rfl⟩
    next => exact ⟨_, rfl⟩
  rw [makeDirectories, habove, ensureDirectories, ensureDirectory_of_locate h hl]
  split
  next => rfl
  next => rfl

/-! ## Paths of a name in a directory -/

/-- The path is one of `name` in the directory at `l`, whether or not there is something. -/
structure Names (t : FileTree) (here : Location) (path : String) (l : Location) (name : String) :
    Prop where
  fits : pathError? path = none
  isName : Path.IsName name
  short : isTooLong name = false
  isDirectory : t.isDirectory l = true
  way : ∃ way, Path.segments path = way ++ [name] ∧ t.follow (start here path) way = .ok l

namespace Names

theorem put (h : t.Names here path l name) (hp : t.isDirectory place = false) :
    (t.put place c).Names here path l name := by
  obtain ⟨way, hway, hl⟩ := h.way
  exact ⟨h.fits, h.isName, h.short, isDirectory_put hp h.isDirectory, way, hway, follow_put hp hl⟩

theorem locate_eq (h : t.Names here path l name) : t.locate here path =
    if (t.content? (name :: l)).isSome then .ok (name :: l) else .error .notFound := by
  obtain ⟨way, hway, hl⟩ := h.way
  have hvoid : ¬(name = "" ∨ name = ".") :=
    fun hv => hv.elim h.isName.ne_empty h.isName.ne_here
  have hlast : t.follow l [name] =
      if (t.content? (name :: l)).isSome then .ok (name :: l) else .error .notFound := by
    rw [follow, h.isDirectory, if_neg (by decide), if_neg hvoid, if_neg h.isName.ne_up, h.short,
      if_neg Bool.false_ne_true]
    rfl
  rw [locate, h.fits, hway]
  dsimp only
  rw [follow_append, hl]
  exact hlast

theorem approach_eq (h : t.Names here path l name) : t.approach here path = .ok (l, name) := by
  obtain ⟨way, hway, hl⟩ := h.way
  have hname : name.isEmpty = false :=
    Bool.eq_false_iff.2 fun he => h.isName.ne_empty (String.isEmpty_iff.1 he)
  have hlast : (Path.segments path).reverse.dropWhile (·.isEmpty) = name :: way.reverse := by
    rw [hway, List.reverse_append, List.reverse_singleton, List.singleton_append,
      List.dropWhile_cons_of_neg (by rw [hname]; decide)]
  rw [approach, h.fits, hlast]
  refine bind_eq_ok_iff.2 ⟨l, by rwa [List.reverse_reverse], ?_⟩
  rw [h.isDirectory, h.short]
  rfl

/-- The directory of the path is found where the way to the name leads. -/
theorem locate_directory (h : t.Names here path l name) :
    t.locate here (Path.directory path) = .ok l := by
  obtain ⟨way, hway, hl⟩ := h.way
  have htrimmed : t.follow (start here path) (Path.dropVoid way.reverse).reverse = .ok l :=
    follow_dropVoid (by rwa [List.reverse_reverse])
  by_cases hnil : Path.dropVoid way.reverse = []
  · rw [hnil] at htrimmed
    obtain rfl := Except.ok.inj htrimmed
    have hhere := h.isDirectory
    rw [Path.directory_of_nil hway h.isName hnil]
    unfold start at hhere ⊢
    cases hroot : Path.isAbsolute path with
    | true => rfl
    | false =>
        rw [hroot] at hhere
        exact locate_eq_ok_iff.2 ⟨by decide +kernel, follow_cons_eq_ok_iff.2
          ⟨hhere, here, .stay (.inr rfl), rfl⟩⟩
  · obtain ⟨hsegments, hne, rest, hrest⟩ := Path.directory_of_ne_nil hway h.isName hnil
    have hfits := h.fits
    rw [hrest] at hfits
    have hstart : start here path = start here (Path.directory path) := by
      rw [start, hrest, Path.isAbsolute_append hne, ← hrest, start]
    refine locate_eq_ok_iff.2 ⟨pathError?_of_append hfits hne, ?_⟩
    rw [hsegments, ← hstart]
    exact htrimmed

/-- The path does not ask for a directory. -/
theorem endsInSlash_eq (h : t.Names here path l name) : Path.endsInSlash path = false := by
  obtain ⟨way, hway, _⟩ := h.way
  refine Bool.eq_false_iff.2 fun hslash => ?_
  obtain ⟨base, rfl⟩ := Path.exists_of_endsInSlash hslash
  have hsegments := Path.segments_append_slash base ""
  rw [String.append_empty, hway] at hsegments
  have hlast : [name] = [""] := (List.append_inj' hsegments rfl).2
  exact h.isName.ne_empty (List.singleton_inj.1 hlast)

theorem replace_eq (h : t.Names here path l name) (hplace : t.isDirectory (name :: l) = false) :
    t.replace here path bytes = .ok (t.put (name :: l) (.file bytes)) := by
  refine bind_eq_ok_iff.2 ⟨_, h.approach_eq, ?_⟩
  dsimp only
  rw [isReserved_of_isName h.isName, h.endsInSlash_eq, hplace]
  rfl

theorem write_eq (h : t.Names here path l name) (hplace : t.isDirectory (name :: l) = false) :
    t.write here path bytes = ⟨t.put (name :: l) (.file bytes), .ok ()⟩ := by
  rw [write, makeDirectories_of_locate h.locate_directory h.isDirectory, Change.andThen]
  dsimp only
  rw [h.replace_eq hplace, Change.step]

theorem readOptional_eq (h : t.Names here path l name) :
    t.readOptional here path =
      match t.content? (name :: l) with
      | none => .ok none
      | some .directory => .error .isDirectory
      | some (.file bytes) =>
          match String.fromUTF8? bytes with
          | some text => .ok (some text)
          | none => .error .notText := by
  rw [readOptional, read, h.locate_eq]
  cases hc : t.content? (name :: l) with
  | none => rfl
  | some c =>
      rw [Option.isSome_some, if_pos rfl]
      cases c with
      | directory =>
          simp only [bind, Except.bind, hc]
          rfl
      | file bytes =>
          simp only [bind, Except.bind, hc]
          cases String.fromUTF8? bytes <;> rfl

/-- What can be read or is missing can be replaced. -/
theorem not_directory_of_readOptional (h : t.Names here path l name) {old : Option String}
    (hold : t.readOptional here path = .ok old) : t.isDirectory (name :: l) = false := by
  rw [h.readOptional_eq] at hold
  unfold FileTree.isDirectory
  cases hc : t.content? (name :: l) with
  | none => rfl
  | some c =>
      rw [hc] at hold
      cases c with
      | directory => cases hold
      | file bytes => rfl

theorem writeIfChanged_eq (h : t.Names here path l name) {old : Option String}
    (hold : t.readOptional here path = .ok old) (hne : old ≠ some text) :
    t.writeIfChanged here path text = ⟨t.put (name :: l) (.file text.toUTF8), .ok true⟩ := by
  have hplace := h.not_directory_of_readOptional hold
  rw [writeIfChanged, hold]
  dsimp only
  rw [if_neg hne, h.write_eq hplace]
  rfl

/-- What was written is read back. -/
theorem readOptional_put (h : t.Names here path l name)
    (hplace : t.isDirectory (name :: l) = false) :
    (t.put (name :: l) (.file text.toUTF8)).readOptional here path = .ok (some text) := by
  have hbytes : String.fromUTF8? text.toUTF8 = some text := dif_pos text.isValidUTF8
  rw [(h.put hplace).readOptional_eq, content?_put_self]
  dsimp only
  rw [hbytes]

end Names

/-- Where one name of a directory leads somewhere, other names of it can be looked up too. -/
theorem names_of_locate {a b : String} (ha : Path.IsName a) (hb : Path.IsName b)
    (hshort : isTooLong b = false) (hfits : pathError? (Path.join root b) = none)
    (h : t.locate here (Path.join root a) = .ok m) :
    ∃ l, m = a :: l ∧ t.Names here (Path.join root b) l b := by
  obtain ⟨way, hway⟩ := Path.exists_way root
  obtain ⟨ha', haRoot⟩ := hway a ha.slash
  obtain ⟨hb', hbRoot⟩ := hway b hb.slash
  obtain ⟨_, hfollow⟩ := locate_eq_ok_iff.1 h
  rw [ha'] at hfollow
  obtain ⟨l, hl, hlast⟩ := follow_append_eq_ok_iff.1 hfollow
  obtain ⟨hdirectory, l', hleads, hm⟩ := follow_cons_eq_ok_iff.1 hlast
  cases hm
  have hstart : start here (Path.join root b) = start here (Path.join root a) := by
    rw [start, start, haRoot, hbRoot]
  exact ⟨l, (hleads.of_not_reserved (isReserved_of_isName ha)).1, hfits, hb, hshort, hdirectory,
    way, hb', hstart ▸ hl⟩

end ProductLock.FileTree
