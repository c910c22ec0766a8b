import ProductLock.Proofs.LockRoundtrip
import ProductLock.Proofs.ProjectSteps

/-!
# A lock text belongs to one lock view

The text of a set lists its entries. A listing determines its entries with their order, and an entry
determines the dependency it was written for but for the recommendation, whether its minimum is
written out or not: under one build the placeholder always stands for the same version. So two sets
have the same text exactly when they have the same lock view. This holds of groups that look like
comments too, for which reading the text back would not tell.

Checking compares texts, so it accepts the lock file of another set only where that set locks the
same.
-/

namespace ProductLock.LockText

variable {b : Build} {s t : DependencySet}

theorem lockView_eq_iff : s.lockView = t.lockView ↔
    (s.toList.map Dependency.withoutRecommended).Perm
      (t.toList.map Dependency.withoutRecommended) := by
  refine ⟨fun h => .of_eq (congrArg DependencySet.toList h), fun h => ?_⟩
  exact congrArg (DependencySet.mk · .empty .empty) (Catalog.ext_mem fun d => h.mem_iff)

theorem encode_eq_of_lockView_eq (h : s.lockView = t.lockView) : encode b s = encode b t := by
  have hlines (s : DependencySet) :
      (s.toList.map Dependency.withoutRecommended).map (lineOf b) = s.toList.map (lineOf b) := by
    rw [List.map_map]
    rfl
  have hlists : s.toList.map Dependency.withoutRecommended =
      t.toList.map Dependency.withoutRecommended := congrArg DependencySet.toList h
  rw [encode, ← hlines s, hlists, hlines t, encode]

/-- What the written entries stand for, in the order in which they were written. -/
theorem map_dependency_written (hs : ∀ d ∈ s.toList, d.Valid ∧ d.minimum.IsRead) :
    ((written b s).map (entryOf b)).map (Entry.dependency b) =
      ((written b s).map Dependency.withoutRecommended).map .ok := by
  rw [List.map_map, List.map_map]
  refine List.map_congr_left fun d hd => ?_
  obtain ⟨hv, hr⟩ := hs d (written_perm.mem_iff.1 hd)
  exact dependency_entryOf hv hr

theorem lockView_eq_of_encode_eq (hs : ∀ d ∈ s.toList, d.Valid ∧ d.minimum.IsRead)
    (ht : ∀ d ∈ t.toList, d.Valid ∧ d.minimum.IsRead) (h : encode b s = encode b t) :
    s.lockView = t.lockView := by
  have hformed {s : DependencySet} (hs : ∀ d ∈ s.toList, d.Valid ∧ d.minimum.IsRead) :
      ∀ e ∈ (written b s).map (entryOf b), e.Formed :=
    List.forall_mem_map.2 fun d hd => by
      obtain ⟨hv, hr⟩ := hs d (written_perm.mem_iff.1 hd)
      exact entryOf_formed hv hr
  rw [encode_eq, encode_eq] at h
  have hentries := eq_of_listing_eq (hformed hs) (hformed ht) h
  have hread := congrArg (List.map (Entry.dependency b)) hentries
  rw [map_dependency_written hs, map_dependency_written ht] at hread
  have hviews : (written b s).map Dependency.withoutRecommended =
      (written b t).map Dependency.withoutRecommended :=
    (List.map_inj_right fun _ _ => Except.ok.inj).1 hread
  have hperm (s : DependencySet) : ((written b s).map Dependency.withoutRecommended).Perm
      (s.toList.map Dependency.withoutRecommended) := written_perm.map _
  exact lockView_eq_iff.2 ((hperm s).symm.trans (hviews ▸ hperm t))

/-- For whatever build, two sets of valid dependencies whose minimums were read have the same text
just when they have the same lock view. So a resolved project accepts the lock file that was written
for a set just when the set locks what the project resolves to. -/
theorem encode_identifies_lockView (b : Build) (s t : DependencySet)
    (hs : ∀ d ∈ s.toList, d.Valid ∧ d.minimum.IsRead)
    (ht : ∀ d ∈ t.toList, d.Valid ∧ d.minimum.IsRead) :
    (encode b s = encode b t ↔ s.lockView = t.lockView) ∧
      ∀ (tree : FileTree) (here : Location) (root : String) (p : Project),
        Project.resolve tree here root = .ok p →
        tree.read here p.lockPath = .ok (encode p.build s) →
        (p.check tree here = .ok () ↔ s.lockView = p.resolution.dependencies.lockView) := by
  refine ⟨⟨lockView_eq_of_encode_eq hs ht, encode_eq_of_lockView_eq⟩,
    fun tree here root p hp hfile => ?_⟩
  have hsound : ∀ d ∈ p.resolution.dependencies.toList, d.Valid ∧ d.minimum.IsRead := fun d hd =>
    have h := Project.sound_of_resolve hp d hd
    ⟨h.valid, h.isRead.minimum⟩
  rw [Project.check_eq_ok_iff, FileTree.readOptional, hfile]
  simp only [Except.ok.injEq, Option.some.injEq]
  exact ⟨lockView_eq_of_encode_eq hs hsound, encode_eq_of_lockView_eq⟩

/-- A recommendation leaves no trace in the text, while the optional flag does, also for a group
that makes the line look like a comment; and a project whose lock file was written with the
dependency optional does not accept it. -/
theorem encode_identifies_lockView_optional :
    let b : Build := ⟨"1.4.0", .ofList [⟨"#lib", "a:b"⟩]⟩
    let d : Dependency :=
      ⟨⟨"#lib", "a:b"⟩, .orderable ⟨⟨1, 4, 0⟩, .release⟩, .major 1, none, false⟩
    let recommended := { d with recommended := some (.orderable ⟨⟨1, 5, 0⟩, .release⟩) }
    let stale : DependencySet := .ofList [d.withOptional true]
    let config := "[product]\ngroup = \"com.example\"\nname = \"service\"\nversion = \"1.4.0\"\n"
      ++ "[[product-dependencies]]\ngroup = \"#lib\"\nname = \"a:b\"\nminimum-version = \"1.4.0\"\n"
    let tree := (FileTree.put {} ["product.toml"] (.file config.toUTF8)).put
      ["product-dependencies.lock"] (.file (encode ⟨"1.4.0", .empty⟩ stale).toUTF8)
    encode b (.ofList [recommended]) = encode b (.ofList [d]) ∧
      encode b (.ofList [d]) ≠ encode b stale ∧
      ∃ p, Project.resolve tree [] "" = .ok p ∧
        tree.read [] p.lockPath = .ok (encode p.build stale) ∧ p.check tree [] ≠ .ok () := by
  intro b d recommended stale config tree
  have hlist (e : Dependency) : (DependencySet.ofList [e]).toList = [e] := rfl
  have hsound {e : Dependency} (hv : e.Valid) (hr : e.minimum.IsRead) :
      ∀ x ∈ (DependencySet.ofList [e]).toList, x.Valid ∧ x.minimum.IsRead :=
    List.forall_mem_singleton.2 ⟨hv, hr⟩
  have hread : d.minimum.IsRead := ⟨"1.4.0", by decide +kernel⟩
  have hd := hsound (e := d) (by decide +kernel) hread
  have hrecommended := hsound (e := recommended) (by decide +kernel) hread
  have hstale := hsound (e := d.withOptional true) (by decide +kernel) hread
  refine ⟨(encode_identifies_lockView b _ _ hrecommended hd).1.2 (by decide +kernel),
    fun h => ?_, ?_⟩
  · exact absurd ((encode_identifies_lockView b _ _ hd hstale).1.1 h) (by decide +kernel)
  · obtain ⟨p, hp, hfields⟩ := exists_ok_of_map_eq (x := Project.resolve tree [] "")
      (f := fun p =>
        (p.lockPath, p.build.version, p.build.workspace, p.resolution.dependencies))
      (b := ("product-dependencies.lock", "1.4.0", .empty,
        .ofList [{ d with recommended := some d.minimum }])) (by decide +kernel)
    simp only [Prod.mk.injEq] at hfields
    obtain ⟨hpath, hversion, hworkspace, hset⟩ := hfields
    have hbuild : p.build = ⟨"1.4.0", .empty⟩ := by
      rw [← hversion, ← hworkspace]
    have hfile : tree.read [] p.lockPath = .ok (encode p.build stale) := by
      rw [hpath, hbuild]
      decide +kernel
    refine ⟨p, hp, hfile, fun hc => ?_⟩
    have hview := ((encode_identifies_lockView b _ _ hstale hd).2 tree [] "" p hp hfile).1 hc
    rw [hset] at hview
    exact absurd hview (by decide +kernel)

end ProductLock.LockText
