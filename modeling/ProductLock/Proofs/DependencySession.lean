import Mathlib.Data.String.Basic
import ProductLock.DependencySet.Session
import ProductLock.Proofs.LockAcceptance
import ProductLock.Proofs.ManifestReading

/-!
# A session keeps a plain map

A set of dependencies is kept as a sorted list, but what it answers is what a plain map from ids to
dependencies would answer. `Filing` is such a map, along with the policy, and each edit has a
meaning for it that knows nothing of lists and their order: filing a dependency changes the map at
one id, and a list of dependencies, or of lines, counts with the last dependency on each id.

The set and the map go through a session side by side. One edit keeps them together whatever it is
(`Answers.edit`, one case for each), and so does any number of them (`Answers.session`). What
the set lists is then told by the map alone: every dependency that is filed, once, in ascending
order of group and name.
-/

namespace ProductLock

theorem ProductId.compare_eq_lt_iff {p q : ProductId} :
    compare p q = .lt ↔ p.group < q.group ∨ p.group = q.group ∧ p.name < q.name := by
  have hdef : compare p q = (compare p.group q.group).then (compare p.name q.name) := rfl
  rw [hdef, Ordering.then_eq_lt, compare_lt_iff_lt, compare_lt_iff_lt, Std.compare_eq_iff_eq]

namespace DependencySet

/-- What is filed under each id, and the policy. -/
structure Filing where
  find? : ProductId → Option Dependency := fun _ => none
  optional : IdSet := .empty
  ignored : IdSet := .empty

namespace Filing

/-- Under each id the last dependency on it. -/
def ofList (ds : List Dependency) : Filing := { find? := fun id => ds.reverse.find? (·.id = id) }

/-- The dependencies that the entry lines of a text stand for, in the order of the lines. -/
def listed (b : Build) (text : String) : List Dependency :=
  (LockText.content text).filterMap fun line => (LockText.readLine b line).toOption

def edit (m : Filing) : Edit → Filing × Reply
  | .insert d =>
      ({ m with find? := Function.update m.find? d.id (some d) }, .replaced (m.find? d.id))
  | .ofList ds => (ofList ds, .done)
  | .withPolicy optional ignored => ({ m with optional, ignored }, .done)
  | .lockView => ({ find? := fun id => (m.find? id).map Dependency.withoutRecommended }, .done)
  | .decode b text =>
      match LockText.decode b text with
      | .ok _ => (ofList (listed b text), .done)
      | .error e => (m, .refused e)

def session (m : Filing) : List Edit → Filing × List Reply
  | [] => (m, [])
  | e :: es =>
      let first := m.edit e
      let rest := first.1.session es
      (rest.1, first.2 :: rest.2)

end Filing

/-- The set answers as the map does, and has its policy. -/
structure Answers (s : DependencySet) (m : Filing) : Prop where
  find?_eq : ∀ id, s.find? id = m.find? id
  optional_eq : s.optional = m.optional
  ignored_eq : s.ignored = m.ignored

variable {s : DependencySet} {m : Filing}

/-! ## One edit -/

theorem find?_insert (s : DependencySet) (d : Dependency) :
    (s.insert d).find? = Function.update s.find? d.id (some d) := by
  funext id
  by_cases h : id = d.id
  · subst h
    rw [Function.update_self]
    exact Catalog.find?_insert_self _ _
  · rw [Function.update_of_ne h]
    exact Catalog.find?_insert_ne _ fun hc => h (Std.LawfulEqOrd.eq_of_compare hc).symm

theorem answers_ofList (ds : List Dependency) : Answers (ofList ds) (Filing.ofList ds) := by
  refine ⟨fun id => ?_, rfl, rfl⟩
  have hkey (d : Dependency) : (compare d.id id == .eq) = decide (d.id = id) := by
    rw [Bool.eq_iff_iff, beq_iff_eq, decide_eq_true_iff, Std.compare_eq_iff_eq]
  have hfind : (Catalog.ofList ds : Catalog Dependency.id).find? id =
      (ds.reverse.find? fun d => compare d.id id == .eq).or none := Catalog.find?_foldl_insert
  rw [Option.or_none] at hfind
  simp only [hkey] at hfind
  exact hfind

theorem eq_ofList_listed {b : Build} {text : String} (h : LockText.decode b text = .ok s) :
    s = ofList (Filing.listed b text) := by
  obtain ⟨ds, hds, _, rfl⟩ := LockText.decode_eq_ok_iff.1 h
  have hlisted : Filing.listed b text = ds := by
    have hmap : Filing.listed b text =
        ((LockText.content text).map (LockText.readLine b)).filterMap Except.toOption := by
      rw [List.filterMap_map]
      rfl
    rw [hmap, LockText.content, hds, List.filterMap_map]
    exact List.filterMap_some
  rw [hlisted]

/-- An edit does to the set what it does to the map, and both reply alike. -/
theorem Answers.edit (h : Answers s m) (e : Edit) :
    Answers (s.edit e).1 (m.edit e).1 ∧ (s.edit e).2 = (m.edit e).2 := by
  have hfind : s.find? = m.find? := funext h.find?_eq
  cases e with
  | insert d =>
      have hreply := congrArg Reply.replaced (h.find?_eq d.id)
      refine ⟨⟨fun id => ?_, h.optional_eq, h.ignored_eq⟩, hreply⟩
      show (s.insert d).find? id = Function.update m.find? d.id (some d) id
      rw [find?_insert, hfind]
  | ofList ds => exact ⟨answers_ofList ds, rfl⟩
  | withPolicy optional ignored => exact ⟨⟨h.find?_eq, rfl, rfl⟩, rfl⟩
  | lockView =>
      refine ⟨⟨fun id => ?_, rfl, rfl⟩, rfl⟩
      show s.lockView.find? id = (m.find? id).map Dependency.withoutRecommended
      rw [← h.find?_eq]
      exact Catalog.find?_map (f := Dependency.withoutRecommended) (fun _ => rfl) s.dependencies id
  | decode b text =>
      simp only [DependencySet.edit, Filing.edit]
      cases hdecode : LockText.decode b text with
      | error e => exact ⟨h, rfl⟩
      | ok t =>
          rw [eq_ofList_listed hdecode]
          exact ⟨answers_ofList _, rfl⟩

/-! ## All edits -/

theorem Answers.session (h : Answers s m) (es : List Edit) :
    Answers (s.session es).1 (m.session es).1 ∧ (s.session es).2 = (m.session es).2 := by
  induction es generalizing s m with
  | nil => exact ⟨h, rfl⟩
  | cons e es ih =>
      obtain ⟨hfirst, hreply⟩ := h.edit e
      obtain ⟨hrest, hreplies⟩ := ih hfirst
      exact ⟨hrest, congrArg₂ List.cons hreply hreplies⟩

theorem session_append (s : DependencySet) (es fs : List Edit) :
    s.session (es ++ fs) = (((s.session es).1.session fs).1,
      (s.session es).2 ++ ((s.session es).1.session fs).2) := by
  induction es generalizing s with
  | nil => rfl
  | cons e es ih =>
      rw [List.cons_append, DependencySet.session, DependencySet.session, ih]
      rfl

/-- A lock file that cannot be read makes no difference to what comes of a session. -/
theorem session_refused {b : Build} {text : String} {e : ConstraintError}
    (h : LockText.decode b text = .error e) (es fs : List Edit) :
    s.session (es ++ .decode b text :: fs) = ((s.session (es ++ fs)).1,
      (s.session es).2 ++ .refused e :: ((s.session es).1.session fs).2) := by
  have hedit (t : DependencySet) : t.edit (.decode b text) = (t, .refused e) := by
    rw [DependencySet.edit, h]
  rw [session_append, session_append, DependencySet.session, hedit]

/-! ## What a set lists -/

theorem Answers.mem_iff (h : Answers s m) (d : Dependency) :
    d ∈ s.toList ↔ m.find? d.id = some d := by
  rw [← h.find?_eq]
  exact (Catalog.find?_eq_some_iff.trans (and_iff_left rfl)).symm

theorem Answers.id_eq (h : Answers s m) {id : ProductId} {d : Dependency}
    (hd : m.find? id = some d) : d.id = id := by
  rw [← h.find?_eq] at hd
  exact (Catalog.find?_eq_some_iff.1 hd).2

theorem Answers.contains_eq (h : Answers s m) (id : ProductId) :
    s.contains id = (m.find? id).isSome := by
  rw [← h.find?_eq]
  exact Catalog.contains_eq_isSome_find? _ _

theorem toList_ascending (s : DependencySet) : s.toList.Pairwise fun d e =>
    d.id.group < e.id.group ∨ d.id.group = e.id.group ∧ d.id.name < e.id.name :=
  s.dependencies.ascending.imp ProductId.compare_eq_lt_iff.1

theorem lockView_lockView (s : DependencySet) : s.lockView.lockView = s.lockView := by
  refine congrArg (DependencySet.mk · .empty .empty) (Catalog.ext ?_)
  show (s.toList.map Dependency.withoutRecommended).map Dependency.withoutRecommended =
    s.toList.map Dependency.withoutRecommended
  rw [List.map_map]
  rfl

/-- After any edits in any order, beginning with the empty set, the set answers as the map does to
which the same was done, and has replied as it did. All it lists is filed in the map under its own
id, and all that is filed is listed, each id once, in ascending order of group and then of name; and
in this order the manifest has it. Lock files that could not be read have left no trace. The lock
view of the set keeps ids, ranges and optional flags and nothing else, and is its own lock view. -/
theorem session_keepsMap (es : List Edit) :
    let s := (session {} es).1
    let m := (Filing.session {} es).1
    (session {} es).2 = (Filing.session {} es).2 ∧ Answers s m ∧
      (∀ id, s.contains id = (m.find? id).isSome) ∧
      (∀ id d, m.find? id = some d → d.id = id) ∧
      (∀ d, d ∈ s.toList ↔ m.find? d.id = some d) ∧ (s.toList.map Dependency.id).Nodup ∧
      (s.toList.Pairwise fun d e =>
        d.id.group < e.id.group ∨ d.id.group = e.id.group ∧ d.id.name < e.id.name) ∧
      Json.read? s.manifest =
        some (.list (s.toList.map fun d => (DescriptorEntry.ofDependency d).document)) ∧
      (∀ b text e, LockText.decode b text = .error e → ∀ fs,
        (session {} (es ++ .decode b text :: fs)).1 = (session {} (es ++ fs)).1) ∧
      s.lockView.toList.map (fun d => (d.id, d.minimum, d.maximum, d.isOptional)) =
        s.toList.map (fun d => (d.id, d.minimum, d.maximum, d.isOptional)) ∧
      (∀ d ∈ s.lockView.toList, d.recommended = none) ∧
      s.lockView.optional = .empty ∧ s.lockView.ignored = .empty ∧
      s.lockView.lockView = s.lockView := by
  intro s m
  have hempty : Answers {} {} := ⟨fun _ => rfl, rfl, rfl⟩
  obtain ⟨h, hreplies⟩ : Answers s m ∧ _ := hempty.session es
  refine ⟨hreplies, h, h.contains_eq, fun id d => h.id_eq, h.mem_iff, Catalog.nodup_keys _,
    toList_ascending s, Json.read?_eq_some_iff.2 s.reads_manifest, fun b text e he fs => ?_, ?_, ?_,
    rfl, rfl, lockView_lockView s⟩
  · rw [session_refused he]
  · show (s.toList.map Dependency.withoutRecommended).map _ = _
    rw [List.map_map]
    rfl
  · exact List.forall_mem_map.2 fun _ _ => rfl

/-- The text of `a:zed` comes after that of `a-b:cat`, but its group comes before. It is filed
twice, and nothing comes of a lock file whose only line ends too early. -/
theorem session_keepsMap_overwritten :
    let version (minor : UInt32) : Version := .orderable ⟨⟨1, minor, 0⟩, .release⟩
    let zed (minor : UInt32) : Dependency :=
      ⟨⟨"a", "zed"⟩, version minor, .major 1, some (version 9), false⟩
    let cat : Dependency := ⟨⟨"a-b", "cat"⟩, version 0, .any, none, true⟩
    let es : List Edit := [.insert cat, .insert (zed 1), .insert (zed 2),
      .decode ⟨"1.0.0", .empty⟩ "# old\na:zed (1.3.0", .lockView]
    (session {} es).2 = [.replaced none, .replaced none, .replaced (some (zed 1)),
        .refused (.malformedLine 2 "a:zed (1.3.0" .form), .done] ∧
      (session {} es).1.find? ⟨"a", "zed"⟩ = some (zed 2).withoutRecommended ∧
      (session {} es).1.toList = [(zed 2).withoutRecommended, cat] := by
  intro version zed cat es
  obtain ⟨hreplies, hanswers, _⟩ := session_keepsMap es
  refine ⟨?_, ?_, by decide +kernel⟩
  · rw [hreplies]
    decide +kernel
  · rw [hanswers.find?_eq]
    decide +kernel

end DependencySet

end ProductLock
