import ProductLock.Dependency.Reading

/-!
# Valid dependencies

`Dependency.Valid` says each rule of a dependency on its own, without the order in which the rules
are checked. `violation?_eq_none_iff` is the bridge: the checks pass exactly when every rule holds.
-/

namespace ProductLock.Dependency

/-- The rules a dependency keeps. -/
structure Valid (d : Dependency) : Prop where
  group_ne : d.id.group ≠ ""
  name_ne : d.id.name ≠ ""
  group_blank : ∀ c ∈ d.id.group.toList, Text.isBlank c = false
  name_blank : ∀ c ∈ d.id.name.toList, Text.isBlank c = false
  group_colon : ':' ∉ d.id.group.toList
  range_open : d.minimum.text ≠ d.maximum.text
  minimum_le : d.maximum.admits d.minimum.base = true
  recommended_le : ∀ r, d.recommended = some r →
    r.compare? d.minimum ≠ some .lt ∧ d.maximum.admits r.base = true

theorem partViolation?_eq_none_iff {p : Part} {s : String} :
    partViolation? p s = none ↔ s ≠ "" ∧ ∀ c ∈ s.toList, Text.isBlank c = false := by
  unfold partViolation?
  split
  next h => simp [String.isEmpty_iff.1 h]
  next h =>
    have h : s ≠ "" := fun e => h (String.isEmpty_iff.2 e)
    split <;> simp_all

theorem nameViolation?_eq_none_iff {id : ProductId} :
    nameViolation? id = none ↔
      (id.group ≠ "" ∧ ∀ c ∈ id.group.toList, Text.isBlank c = false) ∧
      (id.name ≠ "" ∧ ∀ c ∈ id.name.toList, Text.isBlank c = false) ∧
      ':' ∉ id.group.toList := by
  simp [nameViolation?, Option.or_eq_none_iff, partViolation?_eq_none_iff]

theorem rangeViolation?_eq_none_iff {d : Dependency} :
    d.rangeViolation? = none ↔
      d.minimum.text ≠ d.maximum.text ∧ d.maximum.admits d.minimum.base = true := by
  unfold rangeViolation?
  split
  next h => simp [h]
  next h => split <;> simp_all

theorem recommendedViolation?_eq_none_iff {d : Dependency} :
    d.recommendedViolation? = none ↔ ∀ r, d.recommended = some r →
      r.compare? d.minimum ≠ some .lt ∧ d.maximum.admits r.base = true := by
  unfold recommendedViolation?
  cases d.recommended with
  | none => simp
  | some r =>
      simp only [Option.bind_some, Option.some.injEq, forall_eq']
      split
      next h => simp [h]
      next h => split <;> simp_all

theorem violation?_eq_none_iff {d : Dependency} : d.violation? = none ↔ d.Valid := by
  simp only [violation?, Option.or_eq_none_iff, nameViolation?_eq_none_iff,
    rangeViolation?_eq_none_iff, recommendedViolation?_eq_none_iff]
  constructor
  · rintro ⟨⟨⟨hg, hgb⟩, ⟨hn, hnb⟩, hc⟩, ⟨ho, hm⟩, hr⟩
    exact ⟨hg, hn, hgb, hnb, hc, ho, hm, hr⟩
  · rintro ⟨hg, hn, hgb, hnb, hc, ho, hm, hr⟩
    exact ⟨⟨⟨hg, hgb⟩, ⟨hn, hnb⟩, hc⟩, ⟨ho, hm⟩, hr⟩

theorem isValid_iff {d : Dependency} : d.isValid = true ↔ d.Valid := by
  simp [isValid, violation?_eq_none_iff]

instance (d : Dependency) : Decidable d.Valid := decidable_of_iff _ isValid_iff

/-- Building gives back exactly what it was given, and only if every rule holds. -/
theorem checked_eq_ok_iff {d e : Dependency} : checked d = .ok e ↔ d.Valid ∧ e = d := by
  unfold checked
  cases h : d.violation? with
  | none => simp [violation?_eq_none_iff.1 h, eq_comm]
  | some v => simp [← violation?_eq_none_iff, h]

end ProductLock.Dependency
