import ProductLock.Files.Change
import ProductLock.Proofs.CatalogMembership
import ProductLock.Proofs.Outcomes
import ProductLock.Proofs.PathSegments

/-!
# Looking up files

A path is followed one segment at a time, and `Leads` says where a single one leads; an empty one
and a dot lead nowhere else. Whatever holds of one such step holds of a whole path by induction over
its segments. In particular a change in a place where there is no directory blocks no way
(`follow_put`): on the way to something only directories are passed, and they are all still there.

What is read then depends on the path only by the place that it leads to, so a change in one place
is seen in no other (`read_put_ne`).
-/

namespace ProductLock.FileTree

variable {t : FileTree} {here l m place : Location} {path name s : String} {c : Content}

/-! ## What a tree holds after a change -/

theorem content?_put_self (t : FileTree) (name : String) (l : Location) (c : Content) :
    (t.put (name :: l) c).content? (name :: l) = some c := by
  show ((t.nodes.insert (name :: l, c)).find? (name :: l)).map Prod.snd = _
  have h := Catalog.find?_insert_self t.nodes (name :: l, c)
  rw [h]
  rfl

theorem content?_put_ne (h : m ≠ place) : (t.put place c).content? m = t.content? m := by
  cases m with
  | nil => rfl
  | cons x m =>
      have hne : compare place (x :: m) ≠ .eq := fun he =>
        h (Std.LawfulEqOrd.eq_of_compare he).symm
      exact congrArg (Option.map Prod.snd) (Catalog.find?_insert_ne t.nodes hne)

/-- Putting something where there is no directory takes none away. -/
theorem isDirectory_put (hp : t.isDirectory place = false) (h : t.isDirectory l = true) :
    (t.put place c).isDirectory l = true := by
  have hne : l ≠ place := fun he => by
    rw [he, hp] at h
    cases h
  rw [isDirectory, content?_put_ne hne]
  exact h

theorem isSome_content?_put (h : (t.content? l).isSome = true) :
    ((t.put place c).content? l).isSome = true := by
  cases l with
  | nil => rfl
  | cons x l =>
      by_cases he : x :: l = place
      · rw [← he, content?_put_self]
        rfl
      · rw [content?_put_ne he]
        exact h

/-! ## Following segments -/

/-- Where a single segment leads from a directory. -/
inductive Leads (t : FileTree) (l : Location) (s : String) : Location → Prop
  | stay (void : s = "" ∨ s = ".") : Leads t l s l
  | up (isUp : s = "..") : Leads t l s l.tail
  | into (void : ¬(s = "" ∨ s = ".")) (isUp : s ≠ "..") (short : isTooLong s = false)
      (isSome : (t.content? (s :: l)).isSome = true) : Leads t l s (s :: l)

theorem follow_cons_eq_ok_iff {rest : List String} :
    t.follow l (s :: rest) = .ok m ↔
      t.isDirectory l = true ∧ ∃ l', t.Leads l s l' ∧ t.follow l' rest = .ok m := by
  refine ⟨fun h => ?_, fun h => ?_⟩
  · unfold follow at h
    split at h
    next => cases h
    next hl =>
      refine ⟨by simpa using hl, ?_⟩
      split at h
      next hvoid => exact ⟨l, .stay hvoid, h⟩
      next hvoid =>
        split at h
        next hup => exact ⟨l.tail, .up hup, h⟩
        next hup =>
          split at h
          next => cases h
          next hshort =>
            split at h
            next hsome => exact ⟨s :: l, .into hvoid hup (Bool.eq_false_iff.2 hshort) hsome, h⟩
            next => cases h
  · obtain ⟨hl, l', hleads, h⟩ := h
    have hl : ¬(!t.isDirectory l) = true := by simp [hl]
    rw [follow, if_neg hl]
    cases hleads with
    | stay hvoid => rwa [if_pos hvoid]
    | up hup =>
        subst hup
        exact h
    | into hvoid hup hshort hsome =>
        rwa [if_neg hvoid, if_neg hup, hshort, if_neg Bool.false_ne_true, if_pos hsome]

theorem follow_append (t : FileTree) (l : Location) (a b : List String) :
    t.follow l (a ++ b) = t.follow l a >>= fun m => t.follow m b := by
  induction a generalizing l with
  | nil => rfl
  | cons s a ih =>
      simp only [List.cons_append, follow, ih]
      repeat' split
      all_goals rfl

theorem follow_append_eq_ok_iff {a b : List String} :
    t.follow l (a ++ b) = .ok m ↔ ∃ l', t.follow l a = .ok l' ∧ t.follow l' b = .ok m := by
  rw [follow_append, bind_eq_ok_iff]

theorem Leads.put {l' : Location} (h : t.Leads l s l') : (t.put place c).Leads l s l' := by
  cases h with
  | stay hvoid => exact .stay hvoid
  | up hup => exact .up hup
  | into hvoid hup hshort hsome => exact .into hvoid hup hshort (isSome_content?_put hsome)

theorem isReserved_of_isName (h : Path.IsName s) : isReserved s = false := by
  simp [isReserved, h.ne_empty, h.ne_here, h.ne_up]

/-- A segment that is not reserved leads to what the directory holds under it. -/
theorem Leads.of_not_reserved {l' : Location} (hs : isReserved s = false) (h : t.Leads l s l') :
    l' = s :: l ∧ (t.content? (s :: l)).isSome = true := by
  simp only [isReserved, Bool.or_eq_false_iff, decide_eq_false_iff_not] at hs
  obtain ⟨⟨hempty, hhere⟩, hup⟩ := hs
  cases h with
  | stay hvoid => exact absurd hvoid (not_or.2 ⟨hempty, hhere⟩)
  | up h => exact absurd h hup
  | into _ _ _ hsome => exact ⟨rfl, hsome⟩

/-- Putting something where there is no directory blocks no way. -/
theorem follow_put (hp : t.isDirectory place = false) {segments : List String}
    (h : t.follow l segments = .ok m) : (t.put place c).follow l segments = .ok m := by
  induction segments generalizing l with
  | nil => exact h
  | cons s rest ih =>
      obtain ⟨hl, l', hleads, h⟩ := follow_cons_eq_ok_iff.1 h
      exact follow_cons_eq_ok_iff.2 ⟨isDirectory_put hp hl, l', hleads.put, ih h⟩

/-- The segments at the end of a path that name nothing lead nowhere else. -/
theorem follow_dropVoid {way : List String} (h : t.follow l way.reverse = .ok m) :
    t.follow l (Path.dropVoid way).reverse = .ok m := by
  induction way generalizing m with
  | nil => exact h
  | cons s way ih =>
      unfold Path.dropVoid
      split
      next hvoid =>
        have hs : s = "" ∨ s = "." := hvoid.imp_right And.left
        rw [List.reverse_cons] at h
        obtain ⟨l', hway, hlast⟩ := follow_append_eq_ok_iff.1 h
        obtain ⟨_, m', hleads, hm⟩ := follow_cons_eq_ok_iff.1 hlast
        cases hm
        cases hleads with
        | stay => exact ih hway
        | up hup =>
            subst hup
            exact absurd hs (by decide)
        | into hnot => exact absurd hs hnot
      next => exact h

theorem pathError?_eq_none_iff :
    pathError? path = none ↔ '\x00' ∉ path.toList ∧ path ≠ "" ∧ path.utf8ByteSize ≤ 4095 := by
  unfold pathError?
  by_cases hnul : '\x00' ∈ path.toList
  · simp [hnul]
  · by_cases hempty : path = ""
    · simp [hempty]
    · simp [hnul, hempty]

/-- The beginning of a path that can be followed can be followed. -/
theorem pathError?_of_append {a b : String} (h : pathError? (a ++ b) = none) (ha : a ≠ "") :
    pathError? a = none := by
  rw [pathError?_eq_none_iff, String.toList_append, String.utf8ByteSize_append] at h
  obtain ⟨hnul, _, hsize⟩ := h
  exact pathError?_eq_none_iff.2 ⟨fun hm => hnul (List.mem_append_left _ hm), ha, by omega⟩

theorem locate_eq_ok_iff : t.locate here path = .ok m ↔
    pathError? path = none ∧ t.follow (start here path) (Path.segments path) = .ok m := by
  unfold locate
  cases pathError? path with
  | some e => simp
  | none => simp

theorem locate_put (hp : t.isDirectory place = false) (h : t.locate here path = .ok m) :
    (t.put place c).locate here path = .ok m := by
  obtain ⟨hfits, h⟩ := locate_eq_ok_iff.1 h
  exact locate_eq_ok_iff.2 ⟨hfits, follow_put hp h⟩

/-! ## Reading -/

theorem read_eq_ok_iff {text : String} :
    t.read here path = .ok text ↔ ∃ m bytes, t.locate here path = .ok m ∧
      t.content? m = some (.file bytes) ∧ String.fromUTF8? bytes = some text := by
  unfold read
  rw [bind_eq_ok_iff]
  refine exists_congr fun m => ⟨fun h => ?_, fun h => ?_⟩
  · obtain ⟨hm, h⟩ := h
    split at h
    next bytes hcontent =>
      split at h
      next htext =>
        cases h
        exact ⟨bytes, hm, hcontent, htext⟩
      next => cases h
    next => cases h
    next => cases h
  · obtain ⟨bytes, hm, hcontent, htext⟩ := h
    simp only [hm, hcontent, htext, true_and]
    rfl

/-- Nothing but an empty path is missing for what it says alone. -/
theorem pathError?_ne_notFound (hne : path ≠ "") : pathError? path ≠ some .notFound := by
  have hempty : path.isEmpty = false := Bool.eq_false_iff.2 fun he => hne (String.isEmpty_iff.1 he)
  unfold pathError?
  rw [hempty]
  split
  next => decide
  next =>
    split
    next h => cases h
    next => split <;> decide

theorem pathError?_of_readOptional {old : Option String} (h : t.readOptional here path = .ok old)
    (hne : path ≠ "") : pathError? path = none := by
  cases hfits : pathError? path with
  | none => rfl
  | some e =>
      have hread : t.read here path = .error e := by
        rw [read, locate, hfits]
        rfl
      have he : e ≠ .notFound := fun he => pathError?_ne_notFound hne (he ▸ hfits)
      unfold readOptional at h
      rw [hread] at h
      split at h
      next hok => cases hok
      next herror => exact absurd (Except.error.inj herror) he
      next => cases h

theorem readOptional_eq_ok_some_iff {text : String} :
    t.readOptional here path = .ok (some text) ↔ t.read here path = .ok text := by
  unfold readOptional
  split
  next h => simp [h]
  next h => simp [h]
  next h => simp [h]

/-- Reading sees nothing of a change in another place. -/
theorem read_put_ne {text : String} (hp : t.isDirectory place = false)
    (h : t.read here path = .ok text) (hne : t.locate here path ≠ .ok place) :
    (t.put place c).read here path = .ok text := by
  obtain ⟨m, bytes, hm, hcontent, htext⟩ := read_eq_ok_iff.1 h
  have hm' : m ≠ place := fun he => hne (by rw [hm, he])
  exact read_eq_ok_iff.2
    ⟨m, bytes, locate_put hp hm, (content?_put_ne hm').trans hcontent, htext⟩

end ProductLock.FileTree
