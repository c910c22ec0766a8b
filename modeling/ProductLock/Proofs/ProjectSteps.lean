import ProductLock.Project
import ProductLock.Proofs.SoundDependency

/-!
# The steps of the operations on a project

A project is resolved by reading files and deciding on what they say. `resolve_eq_ok_iff` lists the
steps that all have to succeed. Two things follow. The tree enters only through the texts of the
configuration and the descriptors, so a tree that gives the same texts gives the same project
(`resolve_of_reads`); and all dependencies of a resolved project are sound, since whatever is
resolved was read.

Checking a resolved project comes down to one comparison: it succeeds exactly when the lock file can
be read and holds the text that locking would write.
-/

namespace ProductLock.Project

variable {t u : FileTree} {here : Location} {root path : String} {p : Project}

theorem read_of_readConfig {c : ProjectConfig} (h : readConfig t here path = .ok c) :
    ∃ text, t.read here path = .ok text ∧ ProjectConfig.read? text = some c := by
  unfold readConfig at h
  split at h
  next => cases h
  next text htext =>
    split at h
    next hc =>
      cases h
      exact ⟨text, htext, hc⟩
    next => cases h

theorem read_of_readDescriptor {ds : List Dependency} (h : readDescriptor t here path = .ok ds) :
    ∃ text x, t.read here path = .ok text ∧ Descriptor.read? text = some x ∧
      x.dependencies = .ok ds := by
  unfold readDescriptor at h
  split at h
  next => cases h
  next text htext =>
    split at h
    next x hx => exact ⟨text, x, htext, hx, mapError_eq_ok_iff.1 h⟩
    next => cases h

theorem resolve_eq_ok_iff :
    resolve t here root = .ok p ↔ ∃ config version declared discovered ignored optional resolution
        workspace,
      readConfig t here (Path.join root ProjectConfig.fileName) = .ok config ∧
      config.projectVersion = .ok version ∧ config.declared = .ok declared ∧
      (config.descriptorPaths root).mapM (readDescriptor t here) = .ok discovered ∧
      config.ignoredIds = .ok ignored ∧ config.optionalIds = .ok optional ∧
      (⟨config.product, ignored, optional⟩ : Resolver).resolve declared discovered.flatten =
        .ok resolution ∧
      config.workspaceIds = .ok workspace ∧
      ⟨config, resolution, ⟨version.text, workspace⟩, Path.join root lockName⟩ = p := by
  unfold resolve
  simp only [bind_eq_ok_iff, mapError_eq_ok_iff, pure_eq_ok_iff]
  refine ⟨fun h => ?_, fun h => ?_⟩
  · obtain ⟨c, hc, v, hv, d, hd, f, hf, i, hi, o, ho, r, hr, w, hw, hp⟩ := h
    exact ⟨c, v, d, f, i, o, r, w, hc, hv, hd, hf, hi, ho, hr, hw, hp⟩
  · obtain ⟨c, v, d, f, i, o, r, w, hc, hv, hd, hf, hi, ho, hr, hw, hp⟩ := h
    exact ⟨c, hc, v, hv, d, hd, f, hf, i, hi, o, ho, r, hr, w, hw, hp⟩

theorem readConfig_of_resolve (h : resolve t here root = .ok p) :
    readConfig t here (Path.join root ProjectConfig.fileName) = .ok p.config := by
  obtain ⟨_, _, _, _, _, _, _, _, hconfig, _, _, _, _, _, _, _, rfl⟩ := resolve_eq_ok_iff.1 h
  exact hconfig

theorem lockPath_of_resolve (h : resolve t here root = .ok p) :
    p.lockPath = Path.join root lockName := by
  obtain ⟨_, _, _, _, _, _, _, _, _, _, _, _, _, _, _, _, rfl⟩ := resolve_eq_ok_iff.1 h
  rfl

/-- Each descriptor of a resolved project was read. -/
theorem readDescriptor_of_resolve (h : resolve t here root = .ok p) :
    ∀ path ∈ p.config.descriptorPaths root, ∃ ds, readDescriptor t here path = .ok ds := by
  obtain ⟨_, _, _, discovered, _, _, _, _, _, _, _, hdiscovered, _, _, _, _, rfl⟩ :=
    resolve_eq_ok_iff.1 h
  intro path hpath
  have hmem := List.mem_map_of_mem (f := readDescriptor t here) hpath
  rw [mapM_eq_ok_iff.1 hdiscovered] at hmem
  obtain ⟨ds, _, hds⟩ := List.mem_map.1 hmem
  exact ⟨ds, hds.symm⟩

/-- A tree that gives the same texts for the configuration and the descriptors gives the same
project. -/
theorem resolve_of_reads (h : resolve t here root = .ok p)
    (hconfig : u.read here (Path.join root ProjectConfig.fileName) =
      t.read here (Path.join root ProjectConfig.fileName))
    (hdescriptors : ∀ path ∈ p.config.descriptorPaths root, u.read here path = t.read here path) :
    resolve u here root = .ok p := by
  obtain ⟨c, v, d, f, i, o, r, w, hc, hv, hd, hf, hi, ho, hr, hw, rfl⟩ := resolve_eq_ok_iff.1 h
  refine resolve_eq_ok_iff.2 ⟨c, v, d, f, i, o, r, w, ?_, hv, hd, ?_, hi, ho, hr, hw, rfl⟩
  · rw [readConfig, hconfig]
    exact hc
  · rw [mapM_eq_ok_iff] at hf ⊢
    rw [← hf]
    refine List.map_congr_left fun path hpath => ?_
    rw [readDescriptor, hdescriptors path hpath]
    rfl

/-! ## All dependencies are sound -/

theorem sound_of_readDescriptor {ds : List Dependency} (h : readDescriptor t here path = .ok ds) :
    ∀ d ∈ ds, d.Sound := by
  obtain ⟨_, _, _, _, hds⟩ := read_of_readDescriptor h
  exact Descriptor.sound_of_dependencies hds

/-- The dependencies of a resolved project keep the rules, and their versions were read. -/
theorem sound_of_resolve (h : resolve t here root = .ok p) :
    ∀ d ∈ p.resolution.dependencies.toList, d.Sound := by
  obtain ⟨_, _, declared, discovered, _, _, _, _, _, _, hdeclared, hdiscovered, _, _, hr, _, rfl⟩ :=
    resolve_eq_ok_iff.1 h
  have hdiscovered : ∀ ds ∈ discovered, ∀ d ∈ ds, d.Sound :=
    forall_of_mapM hdiscovered fun _ _ _ => sound_of_readDescriptor
  refine Resolver.sound_of_resolve hr fun e he => ?_
  rcases List.mem_append.1 he with he | he
  · exact (ProjectConfig.sound_of_declared hdeclared e he).isRead
  · obtain ⟨ds, hds, he⟩ := List.mem_flatten.1 he
    exact (hdiscovered ds hds e he).isRead

/-! ## Checking -/

theorem check_eq_ok_iff :
    p.check t here = .ok () ↔ t.readOptional here p.lockPath = .ok (some p.lockText) := by
  unfold check
  simp only [bind_eq_ok_iff, mapError_eq_ok_iff]
  refine ⟨fun h => ?_, fun h => ⟨_, h, if_neg (not_not_intro rfl)⟩⟩
  obtain ⟨actual, hactual, h⟩ := h
  cases actual with
  | none => cases h
  | some actual =>
      by_cases he : actual = p.lockText
      · rw [hactual, he]
      · simp only [if_pos he, bind_eq_ok_iff] at h
        obtain ⟨_, _, h⟩ := h
        cases h

end ProductLock.Project
