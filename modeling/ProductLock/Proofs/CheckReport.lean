import ProductLock.Proofs.LockDrift
import ProductLock.Proofs.ProjectSteps

/-!
# What a failed check reports

A check ends in one of five ways (`check_end`), and in two of them it reports drift: the lock file
is missing, or it can be read but does not hold what it should. A report is explained if it says
what to change, or says that nothing but the form is to be changed.

On a lock file that is there, the report is always explained: where no line is to be changed the
note is put in. On one that is missing there is no such note. All lines are to be added then, and
the report is empty if there are none, as for a project without dependencies. Lines that look like
comments do not count, so a project whose dependencies all have such a line is no better off.
-/

namespace ProductLock

namespace LockText

variable {b : Build} {s : DependencySet} {text actual expected : String}

/-- What is written for a set has no entry lines if each of its lines looks like a comment. -/
theorem content_encode_eq_nil_iff (hf : ∀ d ∈ s.toList, (entryOf b d).Formed) :
    content (encode b s) = [] ↔ ∀ d ∈ s.toList, opensComment d = true := by
  have hcontent : content (encode b s) =
      ((written b s).filter (!opensComment ·)).map fun d => (entryOf b d).line :=
    filter_trimmedLines_encode hf
  rw [hcontent, List.map_eq_nil_iff, List.filter_eq_nil_iff]
  refine forall_congr' fun d => ?_
  rw [written_perm.mem_iff, Bool.not_eq_true', Bool.not_eq_false]

namespace Drift

/-- From nothing to a text there is no drift if the text has no entry lines. -/
theorem text_between_empty_iff : (between "" text).text = "" ↔ content text = [] := by
  have hnone : content "" = [] := by decide
  rw [between_exact.text_eq_empty_iff, hnone, List.eq_nil_iff_forall_not_mem]
  exact forall_congr' fun line => ⟨fun h hline => List.not_mem_nil (h.2 hline),
    fun h => iff_of_false List.not_mem_nil h⟩

/-- A report on two texts that differ: the lines to be removed and to be added, at least one in all,
one line each; or, where the texts have the same entry lines, the note on their form. -/
inductive Explained (actual expected : String) : String → Prop
  | lines {drift : Drift} (differences : drift.Exact actual expected)
      (nonempty : drift.removed ≠ [] ∨ drift.added ≠ [])
      (written : Text.lines drift.text = drift.marked) : Explained actual expected drift.text
  | form (differs : actual ≠ expected)
      (same : ∀ line, line ∈ content actual ↔ line ∈ content expected) :
      Explained actual expected formattingNote

/-- A drift that is not empty explains itself. -/
theorem explained_text (hne : (between actual expected).text ≠ "") :
    Explained actual expected (between actual expected).text := by
  refine .lines between_exact ?_ (between_exact.lines_text hne)
  rwa [Ne, text_eq_empty_iff, not_and_or] at hne

theorem explained_driftText (h : actual ≠ expected) :
    Explained actual expected (Project.driftText actual expected) := by
  rw [driftText_eq]
  split
  next hempty => exact .form h (between_exact.text_eq_empty_iff.1 hempty)
  next hne => exact explained_text hne

theorem Explained.ne_empty {diff : String} (h : Explained actual expected diff) : diff ≠ "" := by
  cases h with
  | lines differences nonempty written => rwa [Ne, text_eq_empty_iff, not_and_or]
  | form differs same => decide

end Drift

end LockText

namespace Project

open LockText (content decode opensComment Drift)

variable {t : FileTree} {here : Location} {root path diff : String} {p : Project}

/-- How a check can end. -/
inductive CheckEnd (p : Project) (t : FileTree) (here : Location) : Except Failure Unit → Prop
  | unreadable {e : FileError} (read : t.readOptional here p.lockPath = .error e) :
      CheckEnd p t here (.error (.io e.message))
  | missing (read : t.readOptional here p.lockPath = .ok none) :
      CheckEnd p t here (.error (.drift p.lockPath (Drift.between "" p.lockText).text))
  | current (read : t.readOptional here p.lockPath = .ok (some p.lockText)) :
      CheckEnd p t here (.ok ())
  | malformed {actual : String} {e : ConstraintError}
      (read : t.readOptional here p.lockPath = .ok (some actual)) (differs : actual ≠ p.lockText)
      (refused : decode p.build actual = .error e) : CheckEnd p t here (.error (.constraint e))
  | stale {actual : String} {s : DependencySet}
      (read : t.readOptional here p.lockPath = .ok (some actual)) (differs : actual ≠ p.lockText)
      (decoded : decode p.build actual = .ok s) :
      CheckEnd p t here (.error (.drift p.lockPath (driftText actual p.lockText)))

theorem check_end : CheckEnd p t here (p.check t here) := by
  unfold check
  cases hread : t.readOptional here p.lockPath with
  | error e => exact .unreadable hread
  | ok old =>
      cases old with
      | none => exact .missing hread
      | some actual =>
          by_cases hcurrent : actual = p.lockText
          · subst hcurrent
            simp only [Except.mapError, bind, Except.bind, ne_eq, not_true_eq_false, if_false]
            exact .current hread
          · cases hdecode : decode p.build actual with
            | error e =>
                simp only [Except.mapError, bind, Except.bind, if_pos hcurrent, hdecode]
                exact .malformed hread hcurrent hdecode
            | ok s =>
                simp only [Except.mapError, bind, Except.bind, if_pos hcurrent, hdecode]
                exact .stale hread hcurrent hdecode

/-! ## Drift is found by the check alone -/

theorem readConfig_ne_drift {file : String} :
    readConfig t here file ≠ .error (.drift path diff) := by
  unfold readConfig
  split
  next => nofun
  next => split <;> nofun

theorem readDescriptor_ne_drift {file : String} :
    readDescriptor t here file ≠ .error (.drift path diff) := by
  unfold readDescriptor
  split
  next => nofun
  next =>
    split
    next => exact mapError_ne_error fun _ h => nomatch h
    next => nofun

theorem resolve_ne_drift : resolve t here root ≠ .error (.drift path diff) := by
  have hvalues {α : Type} {x : Except Invalid α} :
      x.mapError Failure.ofInvalid ≠ .error (.drift path diff) :=
    mapError_ne_error fun _ h => nomatch h
  unfold resolve
  refine bind_ne_error readConfig_ne_drift fun config => ?_
  refine bind_ne_error hvalues fun version => bind_ne_error hvalues fun declared => ?_
  refine bind_ne_error (mapM_ne_error fun _ _ => readDescriptor_ne_drift) fun discovered => ?_
  refine bind_ne_error hvalues fun ignored => bind_ne_error hvalues fun optional => ?_
  refine bind_ne_error (mapError_ne_error fun _ h => nomatch h) fun resolution => ?_
  exact bind_ne_error hvalues fun workspace => nofun

/-! ## Reports -/

/-- What the lock file of a project should hold has no entry lines if the project has no dependency
save on products whose group begins with `#`. -/
theorem content_lockText_eq_nil_iff (h : resolve t here root = .ok p) :
    content p.lockText = [] ↔
      ∀ d ∈ p.resolution.dependencies.toList, d.id.group.toList.head? = some '#' := by
  have hformed : ∀ d ∈ p.resolution.dependencies.toList, (LockText.entryOf p.build d).Formed :=
    fun d hd =>
      have hsound := sound_of_resolve h d hd
      LockText.entryOf_formed hsound.valid hsound.isRead.1
  rw [lockText, LockText.content_encode_eq_nil_iff hformed]
  exact forall₂_congr fun d _ => beq_iff_eq

/-- For every tree and project directory in which checking ends in drift: the project was resolved,
and the lock file is missing or does not hold what it should. The report says what to change, or
that nothing but the form is to be changed, unless it is empty. It is empty just when the file is
missing and the project has no dependency save on products whose group begins with `#`. -/
theorem drift_explained (t : FileTree) (here : Location) (root path diff : String)
    (h : (resolve t here root >>= fun p => p.check t here) = .error (.drift path diff)) :
    ∃ p old, resolve t here root = .ok p ∧ path = p.lockPath ∧
      t.readOptional here path = .ok old ∧ old ≠ some p.lockText ∧
      (diff = "" ↔ old = none ∧
        ∀ d ∈ p.resolution.dependencies.toList, d.id.group.toList.head? = some '#') ∧
      (diff ≠ "" → Drift.Explained (old.getD "") p.lockText diff) := by
  obtain hresolve | ⟨p, hresolve, hcheck⟩ := bind_eq_error_iff.1 h
  · exact absurd hresolve resolve_ne_drift
  have hend : CheckEnd p t here (p.check t here) := check_end
  rw [hcheck] at hend
  cases hend with
  | missing read =>
      refine ⟨p, none, hresolve, rfl, read, nofun, ?_, Drift.explained_text⟩
      rw [Drift.text_between_empty_iff, content_lockText_eq_nil_iff hresolve]
      exact (and_iff_right rfl).symm
  | @stale actual s read differs decoded =>
      have hexplained := Drift.explained_driftText differs
      refine ⟨p, some actual, hresolve, rfl, read, ?_, ?_, fun _ => hexplained⟩
      · exact fun hsame => differs (Option.some.inj hsame)
      · exact iff_of_false hexplained.ne_empty fun hmissing => nomatch hmissing.1

/-- A project with one dependency, first without a lock file, then with one of which nothing but the
line end is to be changed. -/
theorem drift_explained_one_dependency :
    let config := "[product]\ngroup = \"a\"\nname = \"b\"\nversion = \"1.4.0\"\n"
      ++ "[[product-dependencies]]\ngroup = \"c\"\nname = \"d\"\nminimum-version = \"1.2.0\"\n"
    let line := "c:d (1.2.0, 1.x.x)"
    let missing := FileTree.put {} ["product.toml"] (.file config.toUTF8)
    let untidy := missing.put [lockName] (.file (line ++ "\r\n").toUTF8)
    (∃ p, resolve missing [] "" = .ok p ∧ Drift.Explained "" p.lockText ("  + " ++ line)) ∧
      ∃ p, resolve untidy [] "" = .ok p ∧
        Drift.Explained (line ++ "\r\n") p.lockText Drift.formattingNote := by
  intro config line missing untidy
  constructor
  · obtain ⟨p, old, hp, _, hread, _, _, hexplained⟩ :=
      drift_explained missing [] "" lockName ("  + " ++ line) (by decide +kernel)
    have hold : missing.readOptional [] lockName = .ok none := by decide +kernel
    obtain rfl := Except.ok.inj (hread.symm.trans hold)
    exact ⟨p, hp, hexplained (by decide)⟩
  · obtain ⟨p, old, hp, _, hread, _, _, hexplained⟩ :=
      drift_explained untidy [] "" lockName Drift.formattingNote (by decide +kernel)
    have hold : untidy.readOptional [] lockName = .ok (some (line ++ "\r\n")) := by
      decide +kernel
    obtain rfl := Except.ok.inj (hread.symm.trans hold)
    exact ⟨p, hp, hexplained (by decide)⟩

/-- A project without a lock file for which nothing would be written but the header, or only a line
that looks like a comment: it is said to be out of date, but not in what. -/
theorem missing_lock_unexplained :
    let product := "[product]\ngroup = \"a\"\nname = \"b\"\nversion = \"1.0.0\"\n"
    let declaration := "[[product-dependencies]]\ngroup = \"#c\"\nname = \"d\"\n"
      ++ "minimum-version = \"1.2.0\"\n"
    ∀ config ∈ [product, product ++ declaration],
      let tree := FileTree.put {} ["product.toml"] (.file config.toUTF8)
      (resolve tree [] "" >>= fun p => p.check tree []) = .error (.drift lockName "") := by
  decide +kernel

end Project

end ProductLock
