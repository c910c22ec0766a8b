import ProductLock.Text

/-!
# Product ids

A product is known by its group and its name, written `group:name`. Ids are ordered by group, then
by name. Any two texts make an id; the written form can be read back when neither is empty and
neither holds a colon.
-/

namespace ProductLock

structure ProductId where
  group : String
  name : String
deriving DecidableEq

namespace ProductId

def text (id : ProductId) : String := id.group ++ ":" ++ id.name

def read? (s : String) : Option ProductId :=
  match s.toList.splitOn ':' with
  | [group, name] =>
      if group ≠ [] ∧ name ≠ [] then some ⟨String.ofList group, String.ofList name⟩ else none
  | _ => none

theorem toList_text (id : ProductId) :
    id.text.toList = [':'].intercalate [id.group.toList, id.name.toList] := by
  simp [text]

/-- An id can be read from its text exactly when neither name is empty or holds a colon. -/
theorem read?_eq_some_iff {s : String} {id : ProductId} : read? s = some id ↔ s = id.text ∧
    (id.group ≠ "" ∧ ':' ∉ id.group.toList) ∧ id.name ≠ "" ∧ ':' ∉ id.name.toList := by
  have hne (s : String) : s ≠ "" ↔ s.toList ≠ [] := by simp
  rw [← String.toList_inj, toList_text, hne, hne]
  unfold read?
  constructor
  · split
    next group name hs =>
      intro h
      obtain ⟨⟨hg, hn⟩, h⟩ := Option.ite_none_right_eq_some.1 h
      obtain ⟨⟩ := h
      have hg' : ':' ∉ group := Text.not_mem_of_mem_splitOn (by rw [hs]; simp)
      have hn' : ':' ∉ name := Text.not_mem_of_mem_splitOn (by rw [hs]; simp)
      simp only [String.toList_ofList]
      exact ⟨by rw [← hs, List.intercalate_splitOn], ⟨hg, hg'⟩, hn, hn'⟩
    next => simp
  · rintro ⟨hs, ⟨hg, hg'⟩, hn, hn'⟩
    rw [(Text.splitOn_eq_iff (by simp) (by simp [hg', hn'])).2 hs]
    simp only [hg, hn, ne_eq, not_false_eq_true, and_self, if_true, String.ofList_toList]

instance : Ord ProductId where
  compare := compareLex (compareOn group) (compareOn name)

instance : Std.TransOrd ProductId :=
  inferInstanceAs (Std.TransCmp (compareLex (compareOn group) (compareOn name)))

instance : Std.LawfulEqOrd ProductId where
  eq_of_compare {a b} h := by
    obtain ⟨h₁, h₂⟩ := compareLex_eq_eq.1 h
    have h₁ : a.group = b.group := Std.LawfulEqOrd.eq_of_compare h₁
    have h₂ : a.name = b.name := Std.LawfulEqOrd.eq_of_compare h₂
    cases a; cases b; simp_all

end ProductId

end ProductLock
