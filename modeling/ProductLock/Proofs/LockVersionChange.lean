import ProductLock.Proofs.LockCanonical

/-!
# A lock file under another version of the build

A minimum that was written as the placeholder stands for whatever version the build has when the
file is read. So when the version of the build changes, the dependencies that had it as their
minimum follow it, and all others stay. Reading can fail only on account of those that follow: the
new version has to be one, and it has to be a minimum that they allow.

Written for the new version, what was read gives the same text again. There is one way in which it
does not: a workspace product may have asked for just the new version before, written out, and would
now be written with the placeholder.
-/

namespace ProductLock

def Dependency.withMinimum (d : Dependency) (minimum : Version) : Dependency := { d with minimum }

namespace LockText

/-- The minimum of the dependency is the version of the build, and is written so. -/
def Follows (b : Build) (d : Dependency) : Prop :=
  b.workspace.contains d.id = true ∧ d.minimum.text = b.version

instance (b : Build) (d : Dependency) : Decidable (Follows b d) :=
  inferInstanceAs (Decidable (_ ∧ _))

/-- The dependency once the build that it was written for has the version `v`. -/
def moved (b : Build) (v : Version) (d : Dependency) : Dependency :=
  if Follows b d then d.withMinimum v else d

variable {b c : Build} {v : Version} {d e : Dependency} {s t : DependencySet}

theorem moved_id (d : Dependency) : (moved b v d).id = d.id := by
  unfold moved
  split
  next => rfl
  next => rfl

/-- The lock view of a set once the build that it was written for has the version `v`. -/
def movedView (b : Build) (v : Version) (s : DependencySet) : DependencySet :=
  { dependencies := s.lockView.dependencies.map (moved b v) moved_id }

theorem toList_movedView :
    (movedView b v s).toList = s.toList.map fun d => moved b v d.withoutRecommended :=
  List.map_map

theorem movedView_eq_lockView (h : ∀ d ∈ s.toList, ¬ Follows b d) :
    movedView b v s = s.lockView := by
  refine congrArg (DependencySet.mk · .empty .empty) (Catalog.ext ?_)
  show (movedView b v s).toList = s.toList.map Dependency.withoutRecommended
  rw [toList_movedView]
  exact List.map_congr_left fun d hd => if_neg (h d hd)

/-! ## What an entry stands for in another build -/

theorem minimumText_of_follows (h : Follows b d) : minimumText b d = placeholder := if_pos h

theorem minimumText_of_not_follows (h : ¬ Follows b d) : minimumText b d = d.minimum.text :=
  if_neg h

theorem dependency_of_not_follows (hv : d.Valid) (hr : d.minimum.IsRead) (h : ¬ Follows b d) :
    (entryOf b d).dependency c = .ok d.withoutRecommended := by
  refine Entry.dependency_eq_ok_iff.2 ⟨hv.withoutRecommended, rfl, ?_, rfl, rfl, rfl⟩
  show Version.read? (if minimumText b d = placeholder then c.version else minimumText b d) = _
  rw [minimumText_of_not_follows h, if_neg (text_ne_placeholder hr)]
  exact hr.read?_text

theorem dependency_of_follows_iff (h : Follows b d) :
    (entryOf b d).dependency c = .ok e ↔
      Version.read? c.version = some e.minimum ∧ e.Valid ∧
        e = d.withoutRecommended.withMinimum e.minimum := by
  have hminimum : (if (entryOf b d).minimum = placeholder then c.version
      else (entryOf b d).minimum) = c.version := if_pos (minimumText_of_follows h)
  rw [Entry.dependency_eq_ok_iff, hminimum]
  refine ⟨fun h => ?_, fun h => ?_⟩
  · obtain ⟨hv, hid, hread, hmaximum, hrecommended, hoptional⟩ := h
    refine ⟨hread, hv, ?_⟩
    have hmaximum := Bound.eq_of_text_eq hmaximum
    obtain ⟨id, minimum, maximum, recommended, isOptional⟩ := e
    subst hid hmaximum hrecommended hoptional
    rfl
  · obtain ⟨hread, hv, he⟩ := h
    rw [he] at hv ⊢
    exact ⟨hv, rfl, hread, rfl, rfl, rfl⟩

/-! ## Reading for another version -/

/-- The version `v` is the one of the build that reads, and every dependency that follows the build
that wrote can have it as its minimum. Where none follows, this says nothing about `v`. -/
def CanMove (b c : Build) (v : Version) (s : DependencySet) : Prop :=
  ∀ d ∈ s.toList, Follows b d → Version.read? c.version = some v ∧
    (d.withoutRecommended.withMinimum v).Valid

/-- Some version is fit exactly when there is nothing to move or the version of the build that reads
is one to which everything can move. -/
theorem exists_canMove_iff : (∃ v, CanMove b c v s) ↔
    (∀ d ∈ s.toList, ¬ Follows b d) ∨ ∃ v, Version.read? c.version = some v ∧
      ∀ d ∈ s.toList, Follows b d → (d.withoutRecommended.withMinimum v).Valid := by
  refine ⟨fun h => ?_, fun h => ?_⟩
  · obtain ⟨v, hm⟩ := h
    by_cases hfollow : ∃ d ∈ s.toList, Follows b d
    · obtain ⟨d, hd, hf⟩ := hfollow
      exact .inr ⟨v, (hm d hd hf).1, fun d hd hf => (hm d hd hf).2⟩
    · exact .inl fun d hd hf => hfollow ⟨d, hd, hf⟩
  · rcases h with hnone | ⟨v, hread, hvalid⟩
    · exact ⟨.orderable ⟨⟨0, 0, 0⟩, .release⟩, fun d hd hf => absurd hf (hnone d hd)⟩
    · exact ⟨v, fun d hd hf => ⟨hread, hvalid d hd hf⟩⟩

theorem movedView_eq_of_canMove {v' : Version} (hm : CanMove b c v s)
    (hread : Version.read? c.version = some v') : movedView b v s = movedView b v' s := by
  by_cases hfollow : ∃ d ∈ s.toList, Follows b d
  · obtain ⟨d, hd, hf⟩ := hfollow
    rw [Option.some.inj ((hm d hd hf).1.symm.trans hread)]
  · have hnone : ∀ d ∈ s.toList, ¬ Follows b d := fun d hd hf => hfollow ⟨d, hd, hf⟩
    rw [movedView_eq_lockView hnone, movedView_eq_lockView hnone]

theorem moved_of_follows (h : Follows b d) :
    moved b v d.withoutRecommended = d.withoutRecommended.withMinimum v := if_pos h

theorem moved_of_not_follows (h : ¬ Follows b d) :
    moved b v d.withoutRecommended = d.withoutRecommended := if_neg h

theorem dependency_entryOf_moved (hv : d.Valid) (hr : d.minimum.IsRead)
    (hm : Follows b d → Version.read? c.version = some v ∧
      (d.withoutRecommended.withMinimum v).Valid) :
    (entryOf b d).dependency c = .ok (moved b v d.withoutRecommended) := by
  by_cases h : Follows b d
  · rw [moved_of_follows h]
    exact (dependency_of_follows_iff h).2 ⟨(hm h).1, (hm h).2, rfl⟩
  · rw [moved_of_not_follows h]
    exact dependency_of_not_follows hv hr h

section

variable (hv : ∀ d ∈ s.toList, d.Valid) (hr : ∀ d ∈ s.toList, d.minimum.IsRead)
  (hc : ∀ d ∈ s.toList, opensComment d = false)

include hv hr hc

theorem decode_encode_moved (hm : CanMove b c v s) :
    decode c (encode b s) = .ok (movedView b v s) := by
  have h := decode_encode_of_reads (c := c)
    (fun d => moved_id (b := b) (v := v) d.withoutRecommended)
    (fun d hd => entryOf_formed (b := b) (hv d hd) (hr d hd))
    fun d hd _ => dependency_entryOf_moved (hv d hd) (hr d hd) (hm d hd)
  rw [h]
  refine congrArg (Except.ok ∘ (DependencySet.mk · .empty .empty)) (Catalog.ext ?_)
  show _ = (movedView b v s).toList
  rw [toList_movedView]
  exact congrArg _ (List.filter_eq_self.2 fun d hd => by rw [hc d hd]; rfl)

/-- Where a written text can be read, every entry of it stands for something. -/
theorem exists_of_decode_encode (h : decode c (encode b s) = .ok t) {d : Dependency}
    (hd : d ∈ s.toList) : ∃ e, (entryOf b d).dependency c = .ok e := by
  have hf : ∀ d ∈ s.toList, (entryOf b d).Formed := fun d hd => entryOf_formed (hv d hd) (hr d hd)
  have hwritten : (written b s).filter (!opensComment ·) = written b s :=
    List.filter_eq_self.2 fun d hd => by rw [hc d (written_perm.mem_iff.1 hd)]; rfl
  obtain ⟨es, ds, hes, hlines, hds, _⟩ := exists_entries h
  rw [filter_trimmedLines_encode hf, hwritten] at hlines
  have hentries : es = (written b s).map (entryOf b) := by
    refine Entry.eq_of_map_line_eq hes (List.forall_mem_map.2 fun d hd => ?_) ?_
    · exact hf d (written_perm.mem_iff.1 hd)
    · rw [← hlines, List.map_map]
      rfl
  have hmem : (entryOf b d).dependency c ∈ ds.map .ok := by
    rw [← hds, hentries]
    exact List.mem_map_of_mem (List.mem_map_of_mem (written_perm.mem_iff.2 hd))
  obtain ⟨e, _, he⟩ := List.mem_map.1 hmem
  exact ⟨e, he.symm⟩

theorem decode_encode_eq_ok_iff :
    decode c (encode b s) = .ok t ↔ ∃ v, CanMove b c v s ∧ t = movedView b v s := by
  refine ⟨fun h => ?_, fun h => ?_⟩
  · have hentry {d : Dependency} (hd : d ∈ s.toList) := exists_of_decode_encode hv hr hc h hd
    obtain ⟨v, hm⟩ : ∃ v, CanMove b c v s := by
      refine exists_canMove_iff.2 (or_iff_not_imp_left.2 fun hfollow => ?_)
      push Not at hfollow
      obtain ⟨d, hd, hf⟩ := hfollow
      obtain ⟨e, he⟩ := hentry hd
      obtain ⟨hread, _, _⟩ := (dependency_of_follows_iff hf).1 he
      refine ⟨e.minimum, hread, fun d' hd' hf' => ?_⟩
      obtain ⟨e', he'⟩ := hentry hd'
      obtain ⟨hread', hvalid', heq⟩ := (dependency_of_follows_iff hf').1 he'
      rw [heq, ← Option.some.inj (hread.symm.trans hread')] at hvalid'
      exact hvalid'
    refine ⟨v, hm, ?_⟩
    rw [decode_encode_moved hv hr hc hm] at h
    exact (Except.ok.inj h).symm
  · obtain ⟨v, hm, rfl⟩ := h
    exact decode_encode_moved hv hr hc hm

end

/-! ## Writing what was read -/

theorem entryOf_moved (hw : c.workspace = b.workspace)
    (hm : Follows b d → Version.read? c.version = some v) (hstay : Follows c d → Follows b d) :
    entryOf c (moved b v d.withoutRecommended) = entryOf b d := by
  let entry (minimum : String) : Entry :=
    ⟨d.id.group, d.id.name, minimum, d.maximum.text, d.isOptional⟩
  by_cases h : Follows b d
  · have hc : Follows c (d.withoutRecommended.withMinimum v) :=
      ⟨hw ▸ h.1, Version.text_of_read? (hm h)⟩
    rw [moved_of_follows h]
    exact congrArg entry ((minimumText_of_follows hc).trans (minimumText_of_follows h).symm)
  · have hc : ¬ Follows c d.withoutRecommended := fun hf => h (hstay hf)
    rw [moved_of_not_follows h]
    exact congrArg entry ((minimumText_of_not_follows hc).trans (minimumText_of_not_follows h).symm)

/-- The entries that are written for the new version are those that were written for the old one. -/
theorem map_entryOf_movedView (hw : c.workspace = b.workspace) (hm : CanMove b c v s)
    (hstay : ∀ d ∈ s.toList, Follows c d → Follows b d) :
    (movedView b v s).toList.map (entryOf c) = s.toList.map (entryOf b) := by
  rw [toList_movedView, List.map_map]
  exact List.map_congr_left fun d hd =>
    entryOf_moved hw (fun hf => (hm d hd hf).1) (hstay d hd)

theorem encode_eq_iff_of_decode (hw : c.workspace = b.workspace)
    (hv : ∀ d ∈ s.toList, d.Valid) (hr : ∀ d ∈ s.toList, d.minimum.IsRead)
    (hc : ∀ d ∈ s.toList, opensComment d = false) (h : decode c (encode b s) = .ok t) :
    encode c t = encode b s ↔ ∀ d ∈ s.toList, Follows c d → Follows b d := by
  obtain ⟨v, hm, rfl⟩ := (decode_encode_eq_ok_iff hv hr hc).1 h
  have hs : ∀ e ∈ (written b s).map (entryOf b), e.Formed := List.forall_mem_map.2 fun d hd =>
    have hd := written_perm.mem_iff.1 hd
    entryOf_formed (hv d hd) (hr d hd)
  have ht : ∀ e ∈ (written c (movedView b v s)).map (entryOf c), e.Formed :=
    List.forall_mem_map.2 fun d hd => by
      obtain ⟨hv, hr, _⟩ := of_mem_decode h (written_perm.mem_iff.1 hd)
      exact entryOf_formed hv hr
  refine ⟨fun he d hd hf => ?_, fun hstay => ?_⟩
  · by_contra hb
    rw [encode_eq, encode_eq] at he
    have hentries := eq_of_listing_eq ht hs he
    have hd' : d.withoutRecommended ∈ (movedView b v s).toList := by
      rw [toList_movedView, ← moved_of_not_follows hb]
      exact List.mem_map_of_mem hd
    have hmem : entryOf c d.withoutRecommended ∈ (written b s).map (entryOf b) := by
      rw [← hentries]
      exact List.mem_map_of_mem (written_perm.mem_iff.2 hd')
    obtain ⟨d', hd', hentry⟩ := List.mem_map.1 hmem
    -- the entry is one of the same product, so it is the entry of the dependency itself
    have hid := congrArg (fun e : Entry => (⟨e.group, e.name⟩ : ProductId)) hentry
    obtain rfl : d' = d := Catalog.eq_of_key_eq (written_perm.mem_iff.1 hd') hd hid
    have hminimum : minimumText b d' = minimumText c d'.withoutRecommended :=
      congrArg Entry.minimum hentry
    have hplaceholder : minimumText c d'.withoutRecommended = placeholder :=
      minimumText_of_follows hf
    rw [minimumText_of_not_follows hb, hplaceholder] at hminimum
    exact text_ne_placeholder (hr d' hd) hminimum
  · have hperm : ((written c (movedView b v s)).map (entryOf c)).Perm
        ((written b s).map (entryOf b)) := by
      have hlists := List.Perm.of_eq (map_entryOf_movedView hw hm hstay)
      exact ((written_perm.map _).trans hlists).trans (written_perm.symm.map _)
    rw [encode_eq, encode_eq, written_ascending.eq_of_perm written_ascending ht hperm]

/-- Take any products of the workspace, any two texts for the version of the build, and a set of
valid dependencies, with minimums that were read and no group that begins with `#`. What was written
for the one version can be read for the other just when no dependency follows the version, or the
other version is one and each that follows can have it as its minimum. What is read is then the lock
view with these minimums replaced. It is written for the other version as the text that it was read
from just when no dependency comes to follow that has not followed before. -/
theorem decode_for_other_version (w : IdSet) (v₁ v₂ : String) (s : DependencySet)
    (hv : ∀ d ∈ s.toList, d.Valid) (hr : ∀ d ∈ s.toList, d.minimum.IsRead)
    (hc : ∀ d ∈ s.toList, d.id.group.toList.head? ≠ some '#') :
    ((∃ t, decode ⟨v₂, w⟩ (encode ⟨v₁, w⟩ s) = .ok t) ↔
      (∀ d ∈ s.toList, ¬ Follows ⟨v₁, w⟩ d) ∨
        ∃ v, Version.read? v₂ = some v ∧ ∀ d ∈ s.toList, Follows ⟨v₁, w⟩ d →
          (d.withoutRecommended.withMinimum v).Valid) ∧
      (∀ t, decode ⟨v₂, w⟩ (encode ⟨v₁, w⟩ s) = .ok t →
        ((∀ d ∈ s.toList, ¬ Follows ⟨v₁, w⟩ d) → t = s.lockView) ∧
        (∀ v, Version.read? v₂ = some v → t = movedView ⟨v₁, w⟩ v s) ∧
        (encode ⟨v₂, w⟩ t = encode ⟨v₁, w⟩ s ↔
          ∀ d ∈ s.toList, Follows ⟨v₂, w⟩ d → Follows ⟨v₁, w⟩ d)) ∧
      (v₁ = v₂ → decode ⟨v₂, w⟩ (encode ⟨v₁, w⟩ s) = .ok s.lockView) := by
  have hcomment : ∀ d ∈ s.toList, opensComment d = false := fun d hd =>
    beq_eq_false_iff_ne.2 (hc d hd)
  have hdecode {t : DependencySet} :=
    decode_encode_eq_ok_iff (b := ⟨v₁, w⟩) (c := ⟨v₂, w⟩) (t := t) hv hr hcomment
  have hexists : (∃ t, decode ⟨v₂, w⟩ (encode ⟨v₁, w⟩ s) = .ok t) ↔
      ∃ v, CanMove ⟨v₁, w⟩ ⟨v₂, w⟩ v s := by
    refine ⟨fun h => ?_, fun h => ?_⟩
    · obtain ⟨t, h⟩ := h
      obtain ⟨v, hm, _⟩ := hdecode.1 h
      exact ⟨v, hm⟩
    · obtain ⟨v, hm⟩ := h
      exact ⟨_, hdecode.2 ⟨v, hm, rfl⟩⟩
  refine ⟨hexists.trans exists_canMove_iff, fun t h => ⟨fun hnone => ?_, fun v hread => ?_, ?_⟩,
    fun he => ?_⟩
  · obtain ⟨v, _, rfl⟩ := hdecode.1 h
    exact movedView_eq_lockView hnone
  · obtain ⟨v', hm, rfl⟩ := hdecode.1 h
    exact movedView_eq_of_canMove hm hread
  · exact encode_eq_iff_of_decode rfl hv hr hcomment h
  · rw [he, decode_encode hv hr, kept_eq_lockView_iff.2 hcomment]

/-- Three products of one build version later: the patch release moves the sibling and leaves the
text as it is, the minor release makes the plugin follow too, and to the major release the sibling
cannot move. -/
theorem decode_for_other_version_releases :
    let w : IdSet := .ofList [⟨"com.example", "plugin"⟩, ⟨"com.example", "sibling"⟩]
    let v (minor patch : UInt32) : Version := .orderable ⟨⟨1, minor, patch⟩, .release⟩
    let plugin : Dependency := ⟨⟨"com.example", "plugin"⟩, v 5 0, .any, none, true⟩
    let sibling : Dependency := ⟨⟨"com.example", "sibling"⟩, v 4 0, .major 1, some (v 4 2), false⟩
    let other : Dependency := ⟨⟨"com.other", "lib"⟩, v 4 0, .major 1, none, false⟩
    let s : DependencySet := .ofList [plugin, sibling, other]
    let text := encode ⟨"1.4.0", w⟩ s
    let after (minimum : Version) : DependencySet :=
      .ofList [plugin, (sibling.withMinimum minimum).withoutRecommended, other]
    (decode ⟨"1.4.1", w⟩ text = .ok (after (v 4 1)) ∧ encode ⟨"1.4.1", w⟩ (after (v 4 1)) = text) ∧
      (decode ⟨"1.5.0", w⟩ text = .ok (after (v 5 0)) ∧
        encode ⟨"1.5.0", w⟩ (after (v 5 0)) ≠ text) ∧
      ¬ ∃ t, decode ⟨"2.0.0", w⟩ text = .ok t := by
  intro w v plugin sibling other s text after
  have hs : s.toList = [plugin, sibling, other] := by decide +kernel
  have hv : ∀ d ∈ s.toList, d.Valid := by
    rw [hs]
    decide +kernel
  have hr : ∀ d ∈ s.toList, d.minimum.IsRead := by
    have hread : ∀ d ∈ s.toList, Version.read? d.minimum.text = some d.minimum := by
      rw [hs]
      decide +kernel
    exact fun d hd => ⟨_, hread d hd⟩
  have hc : ∀ d ∈ s.toList, d.id.group.toList.head? ≠ some '#' := by
    rw [hs]
    decide
  have hmove (text' : String) (minimum : Version) (hread : Version.read? text' = some minimum)
      (hvalid : ∀ d ∈ s.toList, Follows ⟨"1.4.0", w⟩ d →
        (d.withoutRecommended.withMinimum minimum).Valid)
      (hview : movedView ⟨"1.4.0", w⟩ minimum s = after minimum) :
      decode ⟨text', w⟩ text = .ok (after minimum) ∧
        (encode ⟨text', w⟩ (after minimum) = text ↔
          ∀ d ∈ s.toList, Follows ⟨text', w⟩ d → Follows ⟨"1.4.0", w⟩ d) := by
    obtain ⟨hreads, hresult, _⟩ := decode_for_other_version w "1.4.0" text' s hv hr hc
    obtain ⟨t, ht⟩ := hreads.2 (.inr ⟨minimum, hread, hvalid⟩)
    obtain ⟨_, hmoved, hwritten⟩ := hresult t ht
    obtain rfl : t = after minimum := (hmoved minimum hread).trans hview
    exact ⟨ht, hwritten⟩
  have hpatch := hmove "1.4.1" (v 4 1) (by decide +kernel) (by rw [hs]; decide +kernel)
    (by decide +kernel)
  have hminor := hmove "1.5.0" (v 5 0) (by decide +kernel) (by rw [hs]; decide +kernel)
    (by decide +kernel)
  refine ⟨⟨hpatch.1, hpatch.2.2 ?_⟩, ⟨hminor.1, fun he => ?_⟩, fun h => ?_⟩
  · rw [hs]
    decide +kernel
  · have hstay := hminor.2.1 he
    rw [hs] at hstay
    exact absurd hstay (by decide +kernel)
  · have hfails := (decode_for_other_version w "1.4.0" "2.0.0" s hv hr hc).1.1 h
    rw [hs] at hfails
    have hread : Version.read? "2.0.0" = some (.orderable ⟨⟨2, 0, 0⟩, .release⟩) := by
      decide +kernel
    rcases hfails with hnone | ⟨_, hv, hvalid⟩
    · exact absurd hnone (by decide +kernel)
    · obtain rfl := Option.some.inj (hread.symm.trans hv)
      exact absurd hvalid (by decide +kernel)

/-- Two minimums that were not read: with a hash in capitals the text of an orderable version is
that of a freeform one, and with a hash of another character it is none. Both dependencies are
valid, neither follows the version of the build, and the version stays the same, but what was
written for the first is read as a different dependency, and for the second it cannot be read. -/
theorem decode_for_other_version_unread :
    let b : Build := ⟨"0.0.0", .empty⟩
    let only (minimum : Version) : DependencySet :=
      .ofList [⟨⟨"a", "b"⟩, minimum, .major 1, none, false⟩]
    let built (hash : String) : DependencySet :=
      only (.orderable ⟨⟨1, 0, 0⟩, .revision ⟨5, hash⟩⟩)
    (∀ hash ∈ ["ABC", "!"], ∀ d ∈ (built hash).toList,
        d.Valid ∧ d.id.group.toList.head? ≠ some '#' ∧ ¬ Follows b d) ∧
      decode b (encode b (built "ABC")) = .ok (only (.freeform ⟨⟨1, 0, 0⟩, "1.0.0-5-gABC"⟩)) ∧
      only (.freeform ⟨⟨1, 0, 0⟩, "1.0.0-5-gABC"⟩) ≠ (built "ABC").lockView ∧
      decode b (encode b (built "!")) =
        .error (.malformedLine 2 "a:b (1.0.0-5-g!, 1.x.x)" (.entry (.version "1.0.0-5-g!"))) := by
  decide +kernel

end LockText

end ProductLock
