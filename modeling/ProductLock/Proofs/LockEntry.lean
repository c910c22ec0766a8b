import ProductLock.Dependency.Valid
import ProductLock.LockText
import ProductLock.Proofs.DependencyText

/-!
# The lines of a lock file and their entries

A line of a lock file is taken apart from left to right: a run of characters of one kind, then a
mark, then the next run. No run can hold the mark that ends it, so a line is an entry in one way at
most. `Entry.ofLine?_eq_some_iff` says which lines are entries, without the order in which they are
read: exactly the lines that an entry with well-formed pieces is written as.

The line of a valid dependency is of that kind whatever build it is written for, and the minimum
that is read back under the same build is the one that was written, placeholder or not.
-/

namespace ProductLock.LockText

theorem run?_append_cons {p : Char → Bool} {s : String} {x : Char} (hs : s ≠ "")
    (hp : ∀ c ∈ s.toList, p c = true) (hx : p x = false) (cs : List Char) :
    run? p (s.toList ++ x :: cs) = some (s, x :: cs) := by
  unfold run?
  rw [Text.takeWhile_append_cons hp hx, Text.dropWhile_append_cons hp hx]
  split
  next he => exact absurd (String.toList_eq_nil_iff.1 he) hs
  next => rw [String.ofList_toList]

theorem of_run?_eq_some {p : Char → Bool} {cs rest : List Char} {s : String}
    (h : run? p cs = some (s, rest)) :
    s ≠ "" ∧ (∀ c ∈ s.toList, p c = true) ∧ cs = s.toList ++ rest := by
  unfold run? at h
  split at h
  next => cases h
  next hne =>
    obtain ⟨rfl, rfl⟩ := Prod.mk.inj (Option.some.inj h)
    rw [String.toList_ofList]
    refine ⟨fun he => hne ?_, ?_, List.takeWhile_append_dropWhile.symm⟩
    · rw [← String.toList_inj, String.toList_ofList] at he
      exact he
    · exact List.all_eq_true.1 List.all_takeWhile

theorem after?_eq_some_iff {s : String} {cs rest : List Char} :
    after? s cs = some rest ↔ cs = s.toList ++ rest := by
  unfold after?
  rw [Option.ite_none_right_eq_some, List.isPrefixOf_iff_prefix, Option.some_inj]
  refine ⟨fun h => ?_, fun h => ?_⟩
  · obtain ⟨⟨r, rfl⟩, rfl⟩ := h
    rw [List.drop_left]
  · subst h
    exact ⟨List.prefix_append _ _, List.drop_left⟩

/-! ## Entries and their lines -/

namespace Entry

/-- The pieces can be told apart on a line. -/
structure Formed (e : Entry) : Prop where
  group_ne : e.group ≠ ""
  name_ne : e.name ≠ ""
  minimum_ne : e.minimum ≠ ""
  maximum_ne : e.maximum ≠ ""
  group : ∀ c ∈ e.group.toList, c ≠ ':' ∧ Text.isBlank c = false
  name : ∀ c ∈ e.name.toList, Text.isBlank c = false
  minimum : ∀ c ∈ e.minimum.toList, c ≠ ',' ∧ Text.isBlank c = false
  maximum : ∀ c ∈ e.maximum.toList, c ≠ ')' ∧ Text.isBlank c = false

def line (e : Entry) : List Char :=
  e.group.toList ++ ':' :: (e.name.toList ++ ' ' :: '(' :: (e.minimum.toList ++ ',' :: ' ' ::
    (e.maximum.toList ++ ')' :: Dependency.optionalChars e.isOptional)))

theorem ofLine?_line {e : Entry} (h : e.Formed) : ofLine? e.line = some e := by
  have hgroup := run?_append_cons (x := ':') h.group_ne
    (p := fun c => c != ':' && !Text.isBlank c) (by simpa using h.group) (by decide)
  have hname := run?_append_cons (x := ' ') h.name_ne
    (p := fun c => !Text.isBlank c) (by simpa using h.name) (by decide)
  have hminimum := run?_append_cons (x := ',') h.minimum_ne
    (p := fun c => c != ',' && !Text.isBlank c) (by simpa using h.minimum) (by decide)
  have hmaximum := run?_append_cons (x := ')') h.maximum_ne
    (p := fun c => c != ')' && !Text.isBlank c) (by simpa using h.maximum) (by decide)
  have hmark (s : String) (cs : List Char) : after? s (s.toList ++ cs) = some cs :=
    after?_eq_some_iff.2 rfl
  have hcolon (cs) : after? ":" (':' :: cs) = some cs := hmark ":" cs
  have hopen (cs) : after? " (" (' ' :: '(' :: cs) = some cs := hmark " (" cs
  have hcomma (cs) : after? ", " (',' :: ' ' :: cs) = some cs := hmark ", " cs
  have hclose (cs) : after? ")" (')' :: cs) = some cs := hmark ")" cs
  simp only [ofLine?, line, Option.bind_eq_bind, Option.bind_some, hgroup, hcolon, hname, hopen,
    hminimum, hcomma, hmaximum, hclose]
  obtain ⟨_, _, _, _, isOptional⟩ := e
  cases isOptional <;> rfl

theorem formed_of_ofLine? {line : List Char} {e : Entry} (h : ofLine? line = some e) :
    e.Formed ∧ line = e.line := by
  simp only [ofLine?, Option.bind_eq_bind, Option.bind_eq_some_iff, Prod.exists,
    after?_eq_some_iff] at h
  obtain ⟨group, _, hgroup, _, rfl, name, _, hname, _, rfl, minimum, _, hminimum, _, rfl, maximum,
    _, hmaximum, tail, rfl, h⟩ := h
  obtain ⟨hg, hgc, rfl⟩ := of_run?_eq_some hgroup
  obtain ⟨hn, hnc, rfl⟩ := of_run?_eq_some hname
  obtain ⟨hlo, hloc, rfl⟩ := of_run?_eq_some hminimum
  obtain ⟨hhi, hhic, rfl⟩ := of_run?_eq_some hmaximum
  have htail : ∃ isOptional, tail = Dependency.optionalChars isOptional ∧
      e = ⟨group, name, minimum, maximum, isOptional⟩ := by
    split at h
    next ht => exact ⟨false, ht, (Option.some.inj h).symm⟩
    next =>
      split at h
      next ht => exact ⟨true, ht, (Option.some.inj h).symm⟩
      next => cases h
  obtain ⟨isOptional, rfl, rfl⟩ := htail
  exact ⟨⟨hg, hn, hlo, hhi, by simpa using hgc, by simpa using hnc, by simpa using hloc,
    by simpa using hhic⟩, rfl⟩

theorem ofLine?_eq_some_iff {line : List Char} {e : Entry} :
    ofLine? line = some e ↔ e.Formed ∧ line = e.line := by
  refine ⟨formed_of_ofLine?, fun h => ?_⟩
  rw [h.2, ofLine?_line h.1]

/-- A line determines its entry. -/
theorem Formed.eq_of_line_eq {e f : Entry} (he : e.Formed) (hf : f.Formed)
    (h : e.line = f.line) : e = f :=
  Option.some.inj (by rw [← ofLine?_line he, ← ofLine?_line hf, h])

theorem eq_of_map_line_eq {es fs : List Entry} (he : ∀ e ∈ es, e.Formed) (hf : ∀ e ∈ fs, e.Formed)
    (h : es.map line = fs.map line) : es = fs := by
  have hread {l : List Entry} (hl : ∀ e ∈ l, e.Formed) : (l.map line).map ofLine? = l.map some := by
    rw [List.map_map]
    exact List.map_congr_left fun e he => ofLine?_line (hl e he)
  have h := congrArg (List.map ofLine?) h
  rw [hread he, hread hf] at h
  exact (List.map_inj_right fun _ _ => Option.some.inj).1 h

end Entry

/-! ## The entry of a dependency -/

/-- The pieces that a dependency is written as. -/
def entryOf (b : Build) (d : Dependency) : Entry :=
  ⟨d.id.group, d.id.name, minimumText b d, d.maximum.text, d.isOptional⟩

theorem toList_lineOf {b : Build} {d : Dependency} : (lineOf b d).toList = (entryOf b d).line := by
  unfold lineOf entryOf Entry.line Dependency.optionalChars ProductId.text
  cases d.isOptional <;> simp

theorem minimumText_cases (b : Build) (d : Dependency) :
    minimumText b d = placeholder ∧ d.minimum.text = b.version ∨
      minimumText b d = d.minimum.text := by
  unfold minimumText
  split
  next h => exact .inl ⟨rfl, h.2⟩
  next => exact .inr rfl

theorem text_ne_placeholder {v : Version} (h : v.IsRead) : v.text ≠ placeholder := by
  intro he
  have hdollar : '$' ∈ v.text.toList := by
    rw [he]
    decide
  exact absurd (h.isVersionChar_of_mem hdollar) (by decide)

/-- What stands for a minimum holds no mark of a line. -/
theorem minimum_formed {s : String} (h : s = placeholder ∨ ∃ v : Version, v.IsRead ∧ s = v.text) :
    s ≠ "" ∧ ∀ c ∈ s.toList, c ≠ ',' ∧ Text.isBlank c = false := by
  have hplaceholder : placeholder.toList.all (fun c => c != ',' && !Text.isBlank c) = true := by
    decide
  rcases h with rfl | ⟨v, hr, rfl⟩
  · refine ⟨by decide, fun c hc => ?_⟩
    simpa using List.all_eq_true.1 hplaceholder c hc
  · refine ⟨fun he => hr.text_ne_nil (String.toList_eq_nil_iff.2 he), fun c hc => ?_⟩
    have hc := hr.isVersionChar_of_mem hc
    exact ⟨Text.ne_of_isVersionChar hc (by decide), Text.isBlank_of_isVersionChar hc⟩

theorem maximum_formed {u : Bound} :
    u.text ≠ "" ∧ ∀ c ∈ u.text.toList, c ≠ ')' ∧ Text.isBlank c = false := by
  refine ⟨fun he => Bound.text_ne_nil (String.toList_eq_nil_iff.2 he), fun c hc => ?_⟩
  have hc := Bound.isVersionChar_of_mem hc
  exact ⟨Text.ne_of_isVersionChar hc (by decide), Text.isBlank_of_isVersionChar hc⟩

theorem entryOf_formed {b : Build} {d : Dependency} (hv : d.Valid) (hr : d.minimum.IsRead) :
    (entryOf b d).Formed := by
  have hminimum := minimum_formed ((minimumText_cases b d).imp And.left fun h => ⟨_, hr, h⟩)
  exact ⟨hv.group_ne, hv.name_ne, hminimum.1, maximum_formed.1,
    fun c hc => ⟨fun he => hv.group_colon (he ▸ hc), hv.group_blank c hc⟩, hv.name_blank,
    hminimum.2, maximum_formed.2⟩

/-- Read for the build it was written for, the minimum is the one of the dependency. -/
theorem minimumText_read {b : Build} {d : Dependency} (hr : d.minimum.IsRead) :
    (if minimumText b d = placeholder then b.version else minimumText b d) = d.minimum.text := by
  rcases minimumText_cases b d with ⟨h, hversion⟩ | h
  · rw [if_pos h, hversion]
  · rw [if_neg (h ▸ text_ne_placeholder hr), h]

end ProductLock.LockText
