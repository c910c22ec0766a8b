import ProductLock.Descriptor
import ProductLock.ProjectConfig
import ProductLock.Proofs.LockReading
import ProductLock.Proofs.ResolutionSteps

/-!
# Dependencies in circulation

Every dependency that the program handles keeps the rules, and its versions were read from text
(`Dependency.Sound`). Reading gives such dependencies, whatever they are read from. Merging checks
its result again and takes the versions of that from its inputs, so merging and resolving give
sound dependencies too.
-/

namespace ProductLock

/-- The dependency keeps the rules, and its versions were read. -/
structure Dependency.Sound (d : Dependency) : Prop where
  valid : d.Valid
  isRead : d.IsRead

/-! ## Reading -/

theorem Version.isRead_of_read {s : String} {v : Version} (h : read s = .ok v) : v.IsRead :=
  ⟨s, read_eq_ok_iff.1 h⟩

theorem Version.isRead_of_readOptional {s : Option String} {r : Option Version}
    (h : readOptional s = .ok r) : ∀ v, r = some v → v.IsRead := by
  rintro v rfl
  cases s with
  | none => cases h
  | some s =>
      cases hs : read s with
      | error e =>
          rw [readOptional, hs] at h
          cases h
      | ok w =>
          rw [readOptional, hs] at h
          cases h
          exact isRead_of_read hs

namespace Dependency

theorem sound_withOptional {d : Dependency} {isOptional : Bool} (h : d.Sound) :
    (d.withOptional isOptional).Sound :=
  ⟨valid_withOptional.2 h.valid, h.isRead.minimum, h.isRead.recommended⟩

theorem Source.sound_of_dependency {s : Source} {d : Dependency} (h : s.dependency = .ok d) :
    d.Sound := by
  obtain ⟨parts, hparts, hchecked⟩ := bind_eq_ok_iff.1 h
  obtain ⟨hv, rfl⟩ := checked_eq_ok_iff.1 hchecked
  obtain ⟨minimum, hminimum, hparts⟩ := bind_eq_ok_iff.1 hparts
  obtain ⟨recommended, hrecommended, h⟩ : ∃ recommended,
      Version.readOptional s.recommended = .ok recommended ∧
        ∃ maximum, d = ⟨s.id, minimum, maximum, recommended, false⟩ := by
    split at hparts
    all_goals
      obtain ⟨maximum, _, hparts⟩ := bind_eq_ok_iff.1 hparts
      obtain ⟨recommended, hrecommended, h⟩ := bind_eq_ok_iff.1 hparts
      cases h
      exact ⟨recommended, hrecommended, maximum, rfl⟩
  obtain ⟨maximum, rfl⟩ := h
  exact ⟨hv, Version.isRead_of_read hminimum, Version.isRead_of_readOptional hrecommended⟩

end Dependency

theorem Declaration.sound_of_dependency {x : Declaration} {d : Dependency}
    (h : x.dependency = .ok d) : d.Sound := by
  obtain ⟨e, he, h⟩ := bind_eq_ok_iff.1 h
  cases h
  exact Dependency.sound_withOptional (Dependency.Source.sound_of_dependency he)

theorem ProjectConfig.sound_of_declared {c : ProjectConfig} {ds : List Dependency}
    (h : c.declared = .ok ds) : ∀ d ∈ ds, d.Sound :=
  forall_of_mapM h fun _ _ _ => Declaration.sound_of_dependency

theorem Descriptor.sound_of_dependencies {x : Descriptor} {ds : List Dependency}
    (h : x.dependencies = .ok ds) : ∀ d ∈ ds, d.Sound :=
  forall_of_mapM h fun _ _ _ => Dependency.Source.sound_of_dependency

/-! ## Merging and resolving -/

namespace Dependency

variable {d l m : Dependency} {ds : List Dependency}

theorem sound_of_mergeAll (h : mergeAll d ds = .ok m) (hread : ∀ e ∈ d :: ds, e.IsRead) :
    m.Sound := by
  obtain ⟨_, l, hl, _, hv, rfl⟩ := mergeAll_eq_ok_iff.1 h
  have hminimum : l.minimum.IsRead := (hread l (lower_mem hl)).minimum
  refine ⟨hv, hminimum, fun r hr => ?_⟩
  obtain rfl := Option.some.inj hr
  rcases recommendation_cases l.minimum (upper d ds).maximum (d :: ds) with
    ⟨w, hw, ⟨e, he, hew⟩, _⟩ | ⟨hw, _⟩
  · rw [hw]
    exact (hread e he).recommended _ hew
  · rw [hw]
    exact hminimum

end Dependency

namespace Resolver

variable {r : Resolver} {declared discovered : List Dependency}

theorem Settles.sound {id : ProductId} {d : Dependency} {note : Option Note}
    (h : r.Settles declared discovered id d note) (hread : ∀ e ∈ declared ++ discovered, e.IsRead) :
    d.Sound := by
  obtain ⟨first, rest, m, hentries, hm, _, rfl⟩ := h
  refine Dependency.sound_withOptional (Dependency.sound_of_mergeAll hm fun e he => hread e ?_)
  rw [← hentries, List.mem_append, mem_entriesFor, mem_entriesFor, mem_recommendations] at he
  exact List.mem_append.2 (he.imp (fun h => h.1) fun h => h.1.1)

/-- What is resolved from dependencies that were read is sound. -/
theorem sound_of_resolve {res : Resolution} (h : r.resolve declared discovered = .ok res)
    (hread : ∀ e ∈ declared ++ discovered, e.IsRead) :
    ∀ d ∈ res.dependencies.toList, d.Sound := by
  obtain ⟨_, settled, hsettled, _, rfl⟩ := resolve_eq_ok_iff.1 h
  intro d hd
  have hd : d ∈ settled.map Prod.fst :=
    (Catalog.mem_ofList_of_nodup (nodup_id_settled hsettled)).1 hd
  obtain ⟨x, hx, rfl⟩ := List.mem_map.1 hd
  exact (settles_of_mem hsettled hx).sound hread

end Resolver

end ProductLock
