import ProductLock.CommandLine
import ProductLock.Proofs.FileWriting
import ProductLock.Proofs.ProjectSteps

/-!
# Locking and checking one tree

Locking reads the lock file, compares, and writes at most once; checking reads and compares. All
that can go wrong goes wrong before the write: the configuration was read in the directory of the
lock file, so that directory is there, and nothing but a directory keeps a file from being put in
its place (`lock_end`). What the two commands leave behind follows from the three ways in which
locking can end.

After a write the tree differs in the lock file alone. Unless that is one of the descriptors too,
everything that was read to resolve the project is read again, and so the project is the same.
-/

namespace ProductLock.Project

open CommandLine (Command runCommand)

variable {t u : FileTree} {here l : Location} {root : String} {p : Project} {done : Locked}

theorem isName_fileName : Path.IsName ProjectConfig.fileName :=
  ⟨by decide, by decide, by decide, by decide⟩

theorem isName_lockName : Path.IsName lockName := ⟨by decide, by decide, by decide, by decide⟩

/-- The lock file of a project that was resolved lies where its configuration was read, if its path
is one at all. -/
theorem names_of_resolve (h : resolve t here root = .ok p)
    (hfits : FileTree.pathError? p.lockPath = none) :
    ∃ l, t.locate here (Path.join root ProjectConfig.fileName) = .ok (ProjectConfig.fileName :: l) ∧
      t.Names here p.lockPath l lockName := by
  obtain ⟨text, hread, _⟩ := read_of_readConfig (readConfig_of_resolve h)
  obtain ⟨m, _, hm, _⟩ := FileTree.read_eq_ok_iff.1 hread
  rw [lockPath_of_resolve h] at hfits ⊢
  obtain ⟨l, rfl, hl⟩ :=
    FileTree.names_of_locate isName_fileName isName_lockName (by decide) hfits hm
  exact ⟨l, hm, hl⟩

theorem lock_of_current (hread : t.readOptional here p.lockPath = .ok (some p.lockText)) :
    p.lock t here = ⟨t, .ok ⟨p.size, false⟩⟩ := by
  rw [lock, FileTree.writeIfChanged, hread]
  dsimp only
  rw [if_pos rfl]
  rfl

/-- How locking can end: the lock file cannot be read, or it is up to date, or a new one is put in
its place, in the directory where the configuration was found. -/
inductive LockEnd (p : Project) (t : FileTree) (here : Location) (root : String) :
    Change Failure Locked → Prop
  | unreadable {e : FileError} (read : t.readOptional here p.lockPath = .error e) :
      LockEnd p t here root ⟨t, .error (.io e.message)⟩
  | current (read : t.readOptional here p.lockPath = .ok (some p.lockText)) :
      LockEnd p t here root ⟨t, .ok ⟨p.size, false⟩⟩
  | written {l : Location} {old : Option String} (read : t.readOptional here p.lockPath = .ok old)
      (differs : old ≠ some p.lockText)
      (config : t.locate here (Path.join root ProjectConfig.fileName) =
        .ok (ProjectConfig.fileName :: l))
      (names : t.Names here p.lockPath l lockName) :
      LockEnd p t here root
        ⟨t.put (lockName :: l) (.file p.lockText.toUTF8), .ok ⟨p.size, true⟩⟩

theorem lock_end (h : resolve t here root = .ok p) : LockEnd p t here root (p.lock t here) := by
  cases hold : t.readOptional here p.lockPath with
  | error e =>
      have hlock : p.lock t here = ⟨t, .error (.io e.message)⟩ := by
        rw [lock, FileTree.writeIfChanged, hold]
        rfl
      rw [hlock]
      exact .unreadable hold
  | ok old =>
      by_cases he : old = some p.lockText
      · subst he
        rw [lock_of_current hold]
        exact .current hold
      · have hne : p.lockPath ≠ "" := by
          rw [lockPath_of_resolve h]
          exact Path.join_ne_empty isName_lockName
        obtain ⟨l, hconfig, hl⟩ := names_of_resolve h (FileTree.pathError?_of_readOptional hold hne)
        have hlock : p.lock t here =
            ⟨t.put (lockName :: l) (.file p.lockText.toUTF8), .ok ⟨p.size, true⟩⟩ := by
          rw [lock, hl.writeIfChanged_eq hold he]
          rfl
        rw [hlock]
        exact .written hold he hconfig hl

/-- Locking writes nothing just where checking succeeds. -/
theorem lock_unwritten_iff (h : resolve t here root = .ok p) :
    (∃ n, (p.lock t here).result = .ok ⟨n, false⟩) ↔ p.check t here = .ok () := by
  have hend := lock_end h
  rw [check_eq_ok_iff]
  generalize p.lock t here = ended at hend ⊢
  cases hend with
  | unreadable hread => simp [hread]
  | current hread => simp [hread]
  | written hread hdiffers => simp [hread, hdiffers]

theorem tree_of_lock_error {f : Failure} (h : resolve t here root = .ok p)
    (hlock : p.lock t here = ⟨u, .error f⟩) : u = t := by
  have hend := lock_end h
  rw [hlock] at hend
  cases hend
  rfl

/-- Only what is found at the path of the lock file can differ after locking. -/
theorem content?_of_lock (h : resolve t here root = .ok p)
    (hlock : p.lock t here = ⟨u, .ok done⟩) :
    ∃ place, u.locate here p.lockPath = .ok place ∧
      ∀ m, m ≠ place → u.content? m = t.content? m := by
  have hend := lock_end h
  rw [hlock] at hend
  cases hend with
  | current hread =>
      obtain ⟨place, _, hplace, _⟩ :=
        FileTree.read_eq_ok_iff.1 (FileTree.readOptional_eq_ok_some_iff.1 hread)
      exact ⟨place, hplace, fun _ _ => rfl⟩
  | @written l _ hread _ _ hl =>
      refine ⟨lockName :: l, ?_, fun m hm => FileTree.content?_put_ne hm⟩
      rw [(hl.put (hl.not_directory_of_readOptional hread)).locate_eq, FileTree.content?_put_self]
      rfl

/-- After locking, the project is resolved as before and the lock file holds its text, unless a
descriptor has been overwritten. -/
theorem resolve_of_lock (h : resolve t here root = .ok p) (hlock : p.lock t here = ⟨u, .ok done⟩)
    (hother : ∀ path ∈ p.config.descriptorPaths root,
      t.locate here path ≠ t.locate here p.lockPath) :
    resolve u here root = .ok p ∧ u.readOptional here p.lockPath = .ok (some p.lockText) ∧
      done.dependencies = p.size := by
  have hend := lock_end h
  rw [hlock] at hend
  cases hend with
  | current hread => exact ⟨h, hread, rfl⟩
  | @written l _ hread _ hconfig hl =>
      have hplace := hl.not_directory_of_readOptional hread
      refine ⟨resolve_of_reads h ?_ fun path hpath => ?_, hl.readOptional_put hplace, rfl⟩
      · obtain ⟨text, htext, _⟩ := read_of_readConfig (readConfig_of_resolve h)
        have hne : ProjectConfig.fileName :: l ≠ lockName :: l := fun heq =>
          absurd (List.cons.inj heq).1 (by decide)
        rw [htext, FileTree.read_put_ne hplace htext]
        rw [hconfig]
        exact fun heq => hne (Except.ok.inj heq)
      · obtain ⟨ds, hds⟩ := readDescriptor_of_resolve h path hpath
        obtain ⟨text, _, htext, _⟩ := read_of_readDescriptor hds
        rw [htext, FileTree.read_put_ne hplace htext fun heq => hother path hpath ?_]
        -- a descriptor that is read at the place of the lock file would be the lock file
        obtain ⟨m, bytes, hm, hbytes, _⟩ := FileTree.read_eq_ok_iff.1 htext
        obtain rfl : m = lockName :: l := Except.ok.inj (hm.symm.trans heq)
        rw [heq, hl.locate_eq, hbytes]
        rfl

/-! ## The commands -/

/-- No command but locking touches the tree. -/
theorem tree_of_runCommand {c : Command} (hc : c ≠ .lock) :
    (runCommand c t here root).tree = t := by
  unfold runCommand
  cases resolve t here root with
  | error f => rfl
  | ok p =>
      cases c with
      | lock => exact absurd rfl hc
      | check =>
          simp only [CommandLine.runCheck]
          cases p.check t here <;> rfl
      | manifest => rfl

theorem runCommand_lock_of_ok (h : resolve t here root = .ok p)
    (hlock : p.lock t here = ⟨u, .ok done⟩) :
    (runCommand .lock t here root).tree = u ∧ (runCommand .lock t here root).exitCode = 0 := by
  have hrun : runCommand .lock t here root = CommandLine.runLock p t here := by
    rw [runCommand, h]
  rw [hrun, CommandLine.runLock, hlock]
  exact ⟨rfl, rfl⟩

theorem tree_of_runCommand_lock_failed (hexit : (runCommand .lock t here root).exitCode ≠ 0) :
    (runCommand .lock t here root).tree = t := by
  cases h : resolve t here root with
  | error f =>
      rw [runCommand, h]
      rfl
  | ok p =>
      cases hlock : p.lock t here with
      | mk u result =>
          cases result with
          | ok done => exact absurd (runCommand_lock_of_ok h hlock).2 hexit
          | error f =>
              obtain rfl := tree_of_lock_error h hlock
              rw [runCommand, h]
              dsimp only
              rw [CommandLine.runLock, hlock]
              rfl

/-- For every tree and project directory: checking succeeds just when locking would write nothing;
checking and printing the manifest leave the tree as it is, and so does locking where it fails;
locking changes nothing but the lock file; and unless a descriptor lies at the path of the lock
file, whatever has been locked passes the check and is left alone by a second lock. -/
theorem lock_and_check_agree (t : FileTree) (here : Location) (root : String) :
    ((∃ p, resolve t here root = .ok p ∧ p.check t here = .ok ()) ↔
        ∃ p n, resolve t here root = .ok p ∧ (p.lock t here).result = .ok ⟨n, false⟩) ∧
      (runCommand .check t here root).tree = t ∧ (runCommand .manifest t here root).tree = t ∧
      ((runCommand .lock t here root).exitCode ≠ 0 → (runCommand .lock t here root).tree = t) ∧
      ∀ p u done, resolve t here root = .ok p → p.lock t here = ⟨u, .ok done⟩ →
        (runCommand .lock t here root).tree = u ∧
        (∃ place, u.locate here p.lockPath = .ok place ∧
          ∀ m, m ≠ place → u.content? m = t.content? m) ∧
        ((∀ path ∈ p.config.descriptorPaths root,
            t.locate here path ≠ t.locate here p.lockPath) →
          resolve u here root = .ok p ∧ p.check u here = .ok () ∧
            p.lock u here = ⟨u, .ok ⟨done.dependencies, false⟩⟩) := by
  refine ⟨⟨fun h => ?_, fun h => ?_⟩, tree_of_runCommand (by decide),
    tree_of_runCommand (by decide), tree_of_runCommand_lock_failed, fun p u done h hlock =>
    ⟨(runCommand_lock_of_ok h hlock).1, content?_of_lock h hlock, fun hother => ?_⟩⟩
  · obtain ⟨p, h, hcheck⟩ := h
    obtain ⟨n, hn⟩ := (lock_unwritten_iff h).2 hcheck
    exact ⟨p, n, h, hn⟩
  · obtain ⟨p, n, h, hn⟩ := h
    exact ⟨p, h, (lock_unwritten_iff h).1 ⟨n, hn⟩⟩
  · obtain ⟨hu, hread, hsize⟩ := resolve_of_lock h hlock hother
    refine ⟨hu, check_eq_ok_iff.2 hread, ?_⟩
    rw [hsize, lock_of_current hread]

/-- A project that has no lock file yet: the check fails until it is locked, and then passes. -/
theorem lock_and_check_agree_unlocked :
    let config := "[product]\ngroup = \"a\"\nname = \"b\"\nversion = \"1.4.0\"\n"
      ++ "[policy]\noptional = [\"c:d\"]\n[discovery]\ndescriptors = [\"lib.json\"]\n"
    let lib := "\x7b\"recommended-product-dependencies\": [\x7b\"product-group\": \"c\", "
      ++ "\"product-name\": \"d\", \"minimum-version\": \"1.2.0\", "
      ++ "\"maximum-version\": \"1.x.x\"\x7d]\x7d"
    let tree := (FileTree.put {} ["product.toml"] (.file config.toUTF8)).put ["lib.json"]
      (.file lib.toUTF8)
    ∃ p u, resolve tree [] "" = .ok p ∧ p.lock tree [] = ⟨u, .ok ⟨1, true⟩⟩ ∧
      p.check tree [] ≠ .ok () ∧ resolve u [] "" = .ok p ∧ p.check u [] = .ok () ∧
      p.lock u [] = ⟨u, .ok ⟨1, false⟩⟩ := by
  intro config lib tree
  obtain ⟨p, hp, hfields⟩ := exists_ok_of_map_eq (x := resolve tree [] "")
    (f := fun p => (p.config.descriptorPaths "", p.lockPath,
      (p.lock tree []).result.toOption.map fun d => (d.dependencies, d.written)))
    (b := (["lib.json"], "product-dependencies.lock", some (1, true))) (by decide +kernel)
  obtain ⟨hpaths, hfields⟩ := Prod.mk.inj hfields
  obtain ⟨hpath, hdone⟩ := Prod.mk.inj hfields
  obtain ⟨done, hdone, hwritten⟩ := exists_ok_of_map_eq hdone
  obtain rfl : done = ⟨1, true⟩ := by
    cases done
    cases hwritten
    rfl
  have hlock : p.lock tree [] = ⟨(p.lock tree []).tree, .ok ⟨1, true⟩⟩ := by rw [← hdone]
  obtain ⟨hagree, _, _, _, hlocked⟩ := lock_and_check_agree tree [] ""
  have hother : ∀ path ∈ p.config.descriptorPaths "",
      tree.locate [] path ≠ tree.locate [] p.lockPath := by
    rw [hpaths, hpath]
    decide +kernel
  obtain ⟨hsame, hpasses, hagain⟩ := (hlocked p _ _ hp hlock).2.2 hother
  refine ⟨p, _, hp, hlock, fun hcheck => ?_, hsame, hpasses, hagain⟩
  obtain ⟨p', n, hp', hn⟩ := hagree.1 ⟨p, hp, hcheck⟩
  obtain rfl : p' = p := Except.ok.inj (hp'.symm.trans hp)
  rw [hdone] at hn
  cases hn

end ProductLock.Project
