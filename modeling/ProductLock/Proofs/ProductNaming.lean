import ProductLock.Dependency.Valid
import ProductLock.ProjectConfig
import ProductLock.Proofs.CatalogMembership
import ProductLock.Proofs.Outcomes

/-!
# Naming products in a configuration

The lists of a configuration name products by the texts of their ids. Such a text is refused if
one of the two names holds a colon, while the rules of a dependency only keep colons out of the
group. So most dependencies can be named, by the text of their id and by no other text, and it is
the name that decides: a dependency on a product whose name holds a colon keeps all the rules, but
no list can speak of it.
-/

namespace ProductLock

theorem ProductId.read_eq_ok_iff {s : String} {id : ProductId} :
    read s = .ok id ↔ read? s = some id :=
  elim_eq_ok_iff

theorem ProductId.count_text (id : ProductId) :
    id.text.toList.count ':' = id.group.toList.count ':' + id.name.toList.count ':' + 1 := by
  simp [text, Nat.add_assoc]

/-- A list that can be read names the products whose ids it writes, and no others. -/
theorem ProjectConfig.contains_ids_iff {texts : List String} {ids : IdSet} {id : ProductId}
    (h : ProjectConfig.ids texts = .ok ids) :
    ids.contains id = true ↔ id.text ∈ texts ∧ ProductId.read? id.text = some id := by
  obtain ⟨l, hl, h⟩ := bind_eq_ok_iff.1 h
  obtain rfl := Except.ok.inj h
  have hmem : id ∈ l ↔ (.ok id : Except Invalid ProductId) ∈ texts.map ProductId.read := by
    rw [mapM_eq_ok_iff.1 hl]
    simp
  rw [Catalog.contains_ofList]
  simp only [exists_eq_right, hmem, List.mem_map, ProductId.read_eq_ok_iff]
  refine ⟨fun h => ?_, fun h => ⟨id.text, h⟩⟩
  obtain ⟨s, hs, hid⟩ := h
  obtain rfl := (ProductId.read?_eq_some_iff.1 hid).1
  exact ⟨hs, hid⟩

namespace Dependency

variable {d : Dependency}

/-- A text that can be read has one colon, and a valid dependency has one more than its name. -/
theorem Valid.read?_text (h : d.Valid) :
    ProductId.read? d.id.text = if ':' ∈ d.id.name.toList then none else some d.id := by
  split
  next hname =>
    refine Option.eq_none_iff_forall_ne_some.2 fun id hid => ?_
    obtain ⟨htext, ⟨_, hgroup'⟩, _, hname'⟩ := ProductId.read?_eq_some_iff.1 hid
    have hcount : d.id.text.toList.count ':' = 1 := by
      rw [htext, ProductId.count_text, List.count_eq_zero.2 hgroup', List.count_eq_zero.2 hname']
    have hpos : 0 < d.id.name.toList.count ':' := List.count_pos_iff.2 hname
    rw [ProductId.count_text] at hcount
    omega
  next hname =>
    exact ProductId.read?_eq_some_iff.2 ⟨rfl, ⟨h.group_ne, h.group_colon⟩, h.name_ne, hname⟩

/-- The group of a dependency that keeps the rules has no colon. If its name has none either, the
text of its id is read as that id, and the lists of a configuration that write this text are the
ones that name it. If its name has one, the text of its id is not read, and no list names it. -/
theorem named_iff_no_colon (h : d.Valid) :
    ':' ∉ d.id.group.toList ∧
    ProductId.read? d.id.text = (if ':' ∈ d.id.name.toList then none else some d.id) ∧
    ∀ texts ids, ProjectConfig.ids texts = .ok ids →
      (ids.contains d.id = true ↔ d.id.text ∈ texts ∧ ':' ∉ d.id.name.toList) := by
  refine ⟨h.group_colon, h.read?_text, fun texts ids hids => ?_⟩
  rw [ProjectConfig.contains_ids_iff hids, h.read?_text]
  split <;> simp [*]

theorem named_iff_no_colon_listed :
    let d : Dependency := ⟨⟨"com.foo", "bar"⟩, .orderable ⟨⟨1, 0, 0⟩, .release⟩, .major 1, none,
      false⟩
    d.Valid ∧ ∃ ids, ProjectConfig.ids ["com.foo:baz", "com.foo:bar"] = .ok ids ∧
      ids.contains d.id = true := by
  intro d
  have hd : d.Valid := by decide
  obtain ⟨ids, hids, _⟩ := exists_ok_of_map_eq (f := Catalog.size) (b := 2)
    (x := ProjectConfig.ids ["com.foo:baz", "com.foo:bar"]) (by decide +kernel)
  exact ⟨hd, ids, hids, ((named_iff_no_colon hd).2.2 _ _ hids).2 (by decide +kernel)⟩

/-- A dependency that is built from its texts, and that no list can name. -/
theorem colon_cannot_be_named :
    ∃ d, Source.dependency ⟨"com.foo", "bar:baz", "1.0.0", some "1.x.x", none⟩ = .ok d ∧
      ':' ∈ d.id.name.toList ∧ ProductId.read? d.id.text = none ∧
      ∀ texts ids, ProjectConfig.ids texts = .ok ids → ids.contains d.id = false := by
  have hread : ProductId.read? (ProductId.text ⟨"com.foo", "bar:baz"⟩) = none := by decide +kernel
  refine ⟨⟨⟨"com.foo", "bar:baz"⟩, .orderable ⟨⟨1, 0, 0⟩, .release⟩, .major 1, none, false⟩,
    by decide +kernel, by decide +kernel, hread, fun texts ids hids => ?_⟩
  rw [← Bool.not_eq_true, ProjectConfig.contains_ids_iff hids, hread]
  exact fun h => nomatch h.2

end Dependency

end ProductLock
