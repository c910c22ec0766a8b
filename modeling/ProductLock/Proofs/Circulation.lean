import ProductLock.Proofs.LockCanonical
import ProductLock.Proofs.MergeTree
import ProductLock.Proofs.ResolutionRedundancy
import ProductLock.Proofs.SoundDependency

/-!
# The rules hold of every dependency in circulation

Dependencies are only ever built through the check of their rules, but not everything that is done
with one afterwards goes through the check again: the optional flag is set and the recommendation
dropped without it, a set is viewed as its lock file would record it, and a lock file is read by
checking an entry first and marking it optional then. `Circulates` is what any chain of operations
can give, and the induction over it shows that none of them leads out of the rules
(`Circulates.valid`). The flag takes part in no rule, and a recommendation that is not there breaks
none; merging and resolving check what they give.
-/

namespace ProductLock

/-- A version is not below another if it is not so in the order. -/
theorem Version.compare?_ne_lt_iff {r v : Version} :
    r.compare? v ≠ some .lt ↔ ∀ x y, r = .orderable x → v = .orderable y → y ≤ x := by
  cases r with
  | freeform r => exact ⟨nofun, fun _ => nofun⟩
  | orderable x =>
      cases v with
      | freeform v => exact ⟨nofun, fun _ => nofun⟩
      | orderable y =>
          have hle : y ≤ x ↔ compare x y ≠ .lt := by
            rw [← Std.LawfulOrderOrd.isGE_compare]
            cases compare x y <;> decide
          refine ⟨fun h _ _ hx hy => ?_, fun h hlt => ?_⟩
          · cases hx
            cases hy
            exact hle.2 fun hlt => h (congrArg some hlt)
          · exact hle.1 (h x y rfl rfl) (Option.some.inj hlt)

namespace Resolver

variable {r : Resolver} {declared discovered : List Dependency} {res : Resolution} {d : Dependency}

theorem valid_of_resolve (h : r.resolve declared discovered = .ok res)
    (hd : d ∈ res.dependencies.toList) : d.Valid := by
  obtain ⟨_, settled, hsettled, _, rfl⟩ := resolve_eq_ok_iff.1 h
  have hd : d ∈ settled.map Prod.fst :=
    (Catalog.mem_ofList_of_nodup (nodup_id_settled hsettled)).1 hd
  obtain ⟨x, hx, rfl⟩ := List.mem_map.1 hd
  obtain ⟨_, _, m, _, hm, _, hx⟩ := settles_of_mem hsettled hx
  rw [hx]
  exact Dependency.valid_withOptional.2 (Dependency.mergeAll_valid hm)

/-- A note speaks of a declaration that went in and of a merge. -/
theorem of_redundant_mem_notes {alone : Dependency} (h : r.resolve declared discovered = .ok res)
    (hn : .redundant d alone ∈ res.report.notes) : d ∈ declared ∧ alone.Valid := by
  obtain ⟨id, _, x, hx⟩ := (redundant_mem_notes_iff h).1 hn
  obtain ⟨own, recommended, more, hown, _, halone, _, _⟩ := settles_redundant_iff.1 hx
  have hmem : d ∈ entriesFor id declared := hown ▸ .head own
  exact ⟨(mem_entriesFor.1 hmem).1, Dependency.mergeAll_valid halone⟩

end Resolver

open Dependency

/-- What the operations on dependencies give, one after another in any order. -/
inductive Circulates : Dependency → Prop
  | checked {d e : Dependency} (h : checked d = .ok e) : Circulates e
  | source {s : Source} {d : Dependency} (h : s.dependency = .ok d) : Circulates d
  | declaration {x : Declaration} {d : Dependency} (h : x.dependency = .ok d) : Circulates d
  | descriptor {x : DescriptorEntry} {d : Dependency} (h : x.dependency = .ok d) : Circulates d
  | withOptional {d : Dependency} (h : Circulates d) (isOptional : Bool) :
      Circulates (d.withOptional isOptional)
  | withoutRecommended {d : Dependency} (h : Circulates d) : Circulates d.withoutRecommended
  | merged {first m : Dependency} {rest : List Dependency}
      (hin : ∀ d ∈ first :: rest, Circulates d) (h : mergeAll first rest = .ok m) : Circulates m
  | resolved {r : Resolver} {declared discovered : List Dependency} {res : Resolution}
      {d : Dependency} (hin : ∀ e ∈ declared ++ discovered, Circulates e)
      (h : r.resolve declared discovered = .ok res) (hd : d ∈ res.dependencies.toList) :
      Circulates d
  | noted {r : Resolver} {declared discovered : List Dependency} {res : Resolution}
      {declaration alone d : Dependency} (hin : ∀ e ∈ declared ++ discovered, Circulates e)
      (h : r.resolve declared discovered = .ok res)
      (hn : .redundant declaration alone ∈ res.report.notes) (hd : d = declaration ∨ d = alone) :
      Circulates d
  | lockView {s : DependencySet} {d : Dependency} (hin : ∀ e ∈ s.toList, Circulates e)
      (hd : d ∈ s.lockView.toList) : Circulates d
  | decoded {b : Build} {text : String} {s : DependencySet} {d : Dependency}
      (h : LockText.decode b text = .ok s) (hd : d ∈ s.toList) : Circulates d

theorem Circulates.valid {d : Dependency} (h : Circulates d) : d.Valid := by
  induction h with
  | checked h =>
      obtain ⟨hv, rfl⟩ := checked_eq_ok_iff.1 h
      exact hv
  | source h => exact (Source.sound_of_dependency h).valid
  | declaration h => exact (Declaration.sound_of_dependency h).valid
  | descriptor h => exact (Source.sound_of_dependency h).valid
  | withOptional _ isOptional ih => exact valid_withOptional.2 ih
  | withoutRecommended _ ih => exact ih.withoutRecommended
  | merged _ h => exact mergeAll_valid h
  | resolved _ h hd => exact Resolver.valid_of_resolve h hd
  | noted _ h hn hd ih =>
      obtain ⟨hdeclaration, halone⟩ := Resolver.of_redundant_mem_notes h hn
      rcases hd with rfl | rfl
      · exact ih _ (List.mem_append_left _ hdeclaration)
      · exact halone
  | lockView _ hd ih =>
      obtain ⟨e, he, rfl⟩ := List.mem_map.1 hd
      exact (ih e he).withoutRecommended
  | decoded h hd => exact (LockText.of_mem_decode h hd).1

/-- A dependency can be built just when it keeps the rules, one by one as they stand here, and it is
built as it is. All that is in circulation keeps them, and no other dependency does; and that is
what asking a dependency whether it is valid answers. -/
theorem circulates_iff_rules_kept (d : Dependency) :
    ((∃ e, Dependency.checked d = .ok e) ↔
      (d.id.group ≠ "" ∧ d.id.name ≠ "") ∧
      (∀ c ∈ d.id.group.toList ++ d.id.name.toList, Text.isBlank c = false) ∧
      ':' ∉ d.id.group.toList ∧
      d.minimum.text ≠ d.maximum.text ∧ d.maximum.admits d.minimum.base = true ∧
      ∀ r, d.recommended = some r →
        (∀ v w, r = .orderable v → d.minimum = .orderable w → w ≤ v) ∧
          d.maximum.admits r.base = true) ∧
    (∀ e, Dependency.checked d = .ok e → e = d) ∧
    (Circulates d ↔ ∃ e, Dependency.checked d = .ok e) ∧ (Circulates d ↔ d.isValid = true) := by
  have hbuilt : (∃ e, Dependency.checked d = .ok e) ↔ d.Valid := by
    simp only [checked_eq_ok_iff, exists_eq_right]
  have hvalid : Circulates d ↔ d.Valid :=
    ⟨Circulates.valid, fun h => .checked (checked_eq_ok_iff.2 ⟨h, rfl⟩)⟩
  rw [hbuilt, hvalid, isValid_iff]
  refine ⟨⟨fun h => ?_, fun h => ?_⟩, fun e he => (checked_eq_ok_iff.1 he).2, Iff.rfl, Iff.rfl⟩
  · refine ⟨⟨h.group_ne, h.name_ne⟩, fun c hc => ?_, h.group_colon, h.range_open, h.minimum_le,
      fun r hr => (h.recommended_le r hr).imp_left Version.compare?_ne_lt_iff.1⟩
    exact (List.mem_append.1 hc).elim (h.group_blank c) (h.name_blank c)
  · obtain ⟨⟨hgroup, hname⟩, hblank, hcolon, hopen, hminimum, hrecommended⟩ := h
    exact ⟨hgroup, hname, fun c hc => hblank c (List.mem_append_left _ hc),
      fun c hc => hblank c (List.mem_append_right _ hc), hcolon, hopen, hminimum,
      fun r hr => (hrecommended r hr).imp_left Version.compare?_ne_lt_iff.2⟩

/-- A freeform minimum that was read from a lock file gives way to a declared one, and the merge is
marked optional after it was checked. -/
theorem circulates_iff_rules_kept_marked :
    let read : Dependency := ⟨⟨"com.foo", "bar"⟩, .freeform ⟨⟨1, 2, 0⟩, "1.2.0.dirty"⟩, .minor 1 2,
      none, true⟩
    let declared : Dependency := ⟨⟨"com.foo", "bar"⟩, .orderable ⟨⟨1, 0, 0⟩, .release⟩, .major 1,
      none, false⟩
    let merged : Dependency := ⟨⟨"com.foo", "bar"⟩, .orderable ⟨⟨1, 0, 0⟩, .release⟩, .minor 1 2,
      some (.orderable ⟨⟨1, 0, 0⟩, .release⟩), false⟩
    mergeAll read [declared] = .ok merged ∧ Circulates (merged.withOptional true) ∧
      (merged.withOptional true).isValid = true := by
  intro read declared merged
  have hdecode : LockText.decode ⟨"0.0.0", .empty⟩ "com.foo:bar (1.2.0.dirty, 1.2.x) optional\n" =
      .ok (.ofList [read]) := by
    decide +kernel
  have hread : Circulates read := .decoded hdecode (by decide +kernel)
  have hdeclared : Circulates declared :=
    .declaration (x := ⟨"com.foo", "bar", "1.0.0", none, none, false⟩) (by decide +kernel)
  have hmerge : mergeAll read [declared] = .ok merged := by decide +kernel
  have hmerged : Circulates merged :=
    .merged (List.forall_mem_cons.2 ⟨hread, List.forall_mem_singleton.2 hdeclared⟩) hmerge
  have hmarked := hmerged.withOptional true
  exact ⟨hmerge, hmarked, (circulates_iff_rules_kept _).2.2.2.1 hmarked⟩

end ProductLock
