import ProductLock.Proofs.LockAndCheck

/-!
# Locking over an earlier lock file

What a lock file held before is never parsed, so it makes no difference whether it was a lock file
at all. It is read, however, to tell whether anything has to be written, and it is read as text. So
the earlier file is replaced by what locking writes whenever its bytes are text, and whenever there
is no file; bytes that are no text end the operation before anything is written, and the file stays
as it was.
-/

namespace ProductLock

namespace FileTree

/-- What lies at a path: nothing, or a file with these bytes. -/
def Holds (t : FileTree) (here : Location) (path : String) : Option ByteArray → Prop
  | none => t.locate here path = .error .notFound
  | some bytes => ∃ place, t.locate here path = .ok place ∧ t.content? place = some (.file bytes)

variable {t : FileTree} {here : Location} {path text : String} {bytes : ByteArray}
  {old : Option ByteArray}

theorem fromUTF8?_eq_some_iff : String.fromUTF8? bytes = some text ↔ bytes = text.toUTF8 := by
  refine ⟨fun h => ?_, fun h => ?_⟩
  · obtain ⟨hvalid, h⟩ := Option.dite_none_right_eq_some.1 h
    rw [← Option.some.inj h]
    rfl
  · subst h
    exact dif_pos text.isValidUTF8

theorem Holds.readOptional_none (h : t.Holds here path none) :
    t.readOptional here path = .ok none := by
  have hread : t.read here path = .error .notFound := by
    rw [read, h]
    rfl
  rw [readOptional, hread]

theorem Holds.readOptional_some (h : t.Holds here path (some text.toUTF8)) :
    t.readOptional here path = .ok (some text) := by
  obtain ⟨place, hplace, hbytes⟩ := h
  exact readOptional_eq_ok_some_iff.2
    (read_eq_ok_iff.2 ⟨place, _, hplace, hbytes, fromUTF8?_eq_some_iff.2 rfl⟩)

theorem Holds.readOptional_notText (h : t.Holds here path (some bytes)) (hb : ¬bytes.IsValidUTF8) :
    t.readOptional here path = .error .notText := by
  obtain ⟨place, hplace, hbytes⟩ := h
  have hnone : String.fromUTF8? bytes = none := dif_neg hb
  have hread : t.read here path = .error .notText := by
    rw [read, hplace]
    simp only [bind, Except.bind, hbytes, hnone]
    rfl
  rw [readOptional, hread]

/-- What can be read as text, or is missing, is read as what it is. -/
theorem Holds.exists_readOptional (h : t.Holds here path old)
    (htext : ∀ bytes ∈ old, bytes.IsValidUTF8) :
    ∃ text?, t.readOptional here path = .ok text? ∧ old = text?.map String.toUTF8 := by
  cases old with
  | none => exact ⟨none, h.readOptional_none, rfl⟩
  | some bytes =>
      obtain ⟨text, rfl⟩ : ∃ text : String, bytes = text.toUTF8 :=
        ⟨.fromUTF8 bytes (htext bytes rfl), rfl⟩
      exact ⟨some text, h.readOptional_some, rfl⟩

theorem Names.holds_put {l : Location} {name : String} (h : t.Names here path l name)
    (hplace : t.isDirectory (name :: l) = false) :
    (t.put (name :: l) (.file bytes)).Holds here path (some bytes) := by
  have hself := content?_put_self t name l (.file bytes)
  refine ⟨name :: l, ?_, hself⟩
  rw [(h.put hplace).locate_eq, hself]
  rfl

end FileTree

namespace Project

variable {t : FileTree} {here : Location} {root : String} {p : Project} {old : Option ByteArray}

/-- Where there is no lock file, or one whose bytes are text, whatever text: locking succeeds, says
that it wrote exactly if the bytes were not the right ones, and leaves the right ones. Where the
bytes are no text, locking fails and leaves everything as it was. -/
theorem lock_replaces_text (h : resolve t here root = .ok p)
    (hold : t.Holds here p.lockPath old) :
    ((∀ bytes ∈ old, bytes.IsValidUTF8) → ∃ u written,
        p.lock t here = ⟨u, .ok ⟨p.size, written⟩⟩ ∧
        (written = true ↔ old ≠ some p.lockText.toUTF8) ∧
        u.Holds here p.lockPath (some p.lockText.toUTF8)) ∧
      ((∃ bytes ∈ old, ¬bytes.IsValidUTF8) →
        p.lock t here = ⟨t, .error (.io "stream did not contain valid UTF-8")⟩) := by
  have hend := lock_end h
  refine ⟨fun htext => ?_, fun hbad => ?_⟩
  · obtain ⟨text?, hread, rfl⟩ := hold.exists_readOptional htext
    have hsame : text? = some p.lockText ↔
        text?.map String.toUTF8 = some p.lockText.toUTF8 := by
      cases text? <;> simp [String.toByteArray_inj]
    generalize p.lock t here = ended at hend ⊢
    cases hend with
    | unreadable hunread =>
        rw [hread] at hunread
        cases hunread
    | current hcurrent =>
        obtain rfl := Except.ok.inj (hread.symm.trans hcurrent)
        exact ⟨t, false, rfl, by simp, hold⟩
    | @written l _ hread' hdiffers _ hl =>
        obtain rfl := Except.ok.inj (hread.symm.trans hread')
        exact ⟨_, true, rfl, by simpa [hsame] using hdiffers,
          hl.holds_put (hl.not_directory_of_readOptional hread)⟩
  · obtain ⟨bytes, rfl, hbytes⟩ := hbad
    have hread := hold.readOptional_notText hbytes
    rw [lock, FileTree.writeIfChanged, hread]
    rfl

/-- A malformed lock file is replaced. -/
theorem lock_replaces_text_malformed :
    let config := "[product]\ngroup = \"a\"\nname = \"b\"\nversion = \"1.0.0\"\n"
    let malformed := "com.foo:bar 1.0.0\n".toUTF8
    let tree := (FileTree.put {} ["product.toml"] (.file config.toUTF8)).put
      ["product-dependencies.lock"] (.file malformed)
    ∃ p u, resolve tree [] "" = .ok p ∧ tree.Holds [] p.lockPath (some malformed) ∧
      p.lock tree [] = ⟨u, .ok ⟨0, true⟩⟩ ∧ u.Holds [] p.lockPath (some p.lockText.toUTF8) := by
  intro config malformed tree
  obtain ⟨p, hp, hfields⟩ := exists_ok_of_map_eq (x := resolve tree [] "")
    (f := fun p => (p.size, p.lockPath, decide (malformed.data = p.lockText.toUTF8.data)))
    (b := (0, "product-dependencies.lock", false)) (by decide +kernel)
  obtain ⟨hsize, hfields⟩ := Prod.mk.inj hfields
  obtain ⟨hpath, hdiffers⟩ := Prod.mk.inj hfields
  have hold : tree.Holds [] p.lockPath (some malformed) := by
    rw [hpath]
    exact ⟨["product-dependencies.lock"], by decide +kernel, by decide +kernel⟩
  have hvalid : ∀ bytes ∈ some malformed, bytes.IsValidUTF8 := by
    intro bytes hbytes
    rw [← Option.mem_some.1 hbytes]
    exact String.isValidUTF8 _
  obtain ⟨u, written, hlock, hwritten, hu⟩ := (lock_replaces_text hp hold).1 hvalid
  have hwritten : written = true := by
    refine hwritten.2 fun he => of_decide_eq_false hdiffers ?_
    rw [← Option.some.inj he]
  rw [hsize, hwritten] at hlock
  exact ⟨p, u, hp, hold, hlock, hu⟩

/-- A lock file that is not replaced: it holds one byte, and that is no text. -/
theorem lock_refuses_bytes :
    let config := "[product]\ngroup = \"a\"\nname = \"b\"\nversion = \"1.0.0\"\n"
    let tree := (FileTree.put {} ["product.toml"] (.file config.toUTF8)).put
      ["product-dependencies.lock"] (.file ⟨#[0xFF]⟩)
    ∃ p, resolve tree [] "" = .ok p ∧ tree.Holds [] p.lockPath (some ⟨#[0xFF]⟩) ∧
      p.lock tree [] = ⟨tree, .error (.io "stream did not contain valid UTF-8")⟩ := by
  intro config tree
  obtain ⟨p, hp, hpath⟩ := exists_ok_of_map_eq (x := resolve tree [] "")
    (f := fun p => p.lockPath) (b := "product-dependencies.lock") (by decide +kernel)
  have hold : tree.Holds [] p.lockPath (some ⟨#[0xFF]⟩) := by
    rw [hpath]
    exact ⟨["product-dependencies.lock"], by decide +kernel, by decide +kernel⟩
  refine ⟨p, hp, hold, ?_⟩
  rw [lock, FileTree.writeIfChanged, hold.readOptional_notText (by decide +kernel)]
  rfl

end Project

end ProductLock
