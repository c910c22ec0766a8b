import ProductLock.Dependency.Valid
import ProductLock.Proofs.TextRuns
import ProductLock.Proofs.VersionText

/-!
# The text of a dependency tells it apart

Among dependencies on one product, no two have the same text, as long as their versions were read.
What follows the id is cut at marks that no version or bound holds: the minimum ends at its comma,
the maximum at its parenthesis, and a recommendation at the end or at the blank before `optional`.
The parts are then determined one by one, since versions that were read and bounds are determined
by their texts.

Where the dependencies keep the rules, the product may differ too. A name may hold any of those
marks, and colons; but the group ends at the first colon, and the name at the first blank, which
stands before the range.
-/

namespace ProductLock

namespace Dependency

/-- All versions of the dependency were read. -/
structure IsRead (d : Dependency) : Prop where
  minimum : d.minimum.IsRead
  recommended : ∀ r, d.recommended = some r → r.IsRead

def recommendedChars (d : Dependency) : List Char :=
  d.recommended.elim [] fun r => " recommended ".toList ++ r.text.toList

def optionalChars (isOptional : Bool) : List Char := if isOptional then " optional".toList else []

/-- What follows the id in the text of a dependency. -/
def rangeChars (d : Dependency) : List Char :=
  ' ' :: '(' :: (d.minimum.text.toList ++ ',' :: ' ' :: (d.maximum.text.toList ++ ')' ::
    (d.recommendedChars ++ optionalChars d.isOptional)))

theorem toList_text (d : Dependency) : d.text.toList = d.id.text.toList ++ d.rangeChars := by
  unfold text rangeChars recommendedChars optionalChars
  cases d.recommended <;> cases d.isOptional <;> simp

theorem optional_eq_of_chars_eq {a b : Bool} (h : optionalChars a = optionalChars b) : a = b := by
  cases a <;> cases b
  · rfl
  · exact absurd h (by decide)
  · exact absurd h (by decide)
  · rfl

/-- A recommendation ends where `optional` begins, because it holds no blank. -/
theorem version_optional_inj {v w : Version} {a b : Bool} (hv : v.IsRead) (hw : w.IsRead)
    (h : v.text.toList ++ optionalChars a = w.text.toList ++ optionalChars b) : v = w ∧ a = b := by
  have hblank {u : Version} (hu : u.IsRead) : ' ' ∉ u.text.toList :=
    fun hm => absurd (hu.isVersionChar_of_mem hm) (by decide)
  have hmem : ' ' ∈ optionalChars true := by decide
  cases a <;> cases b
  · rw [optionalChars, if_neg (by decide), List.append_nil, List.append_nil] at h
    exact ⟨hv.eq_of_text_eq hw (String.toList_inj.1 h), rfl⟩
  · refine absurd (List.mem_append_right w.text.toList hmem) ?_
    rw [← h, optionalChars, if_neg (by decide), List.append_nil]
    exact hblank hv
  · refine absurd (List.mem_append_right v.text.toList hmem) ?_
    rw [h, optionalChars, if_neg (by decide), List.append_nil]
    exact hblank hw
  · exact ⟨hv.eq_of_text_eq hw (String.toList_inj.1 (List.append_cancel_right h)), rfl⟩

theorem recommended_optional_inj {d e : Dependency} (hd : d.IsRead) (he : e.IsRead)
    (h : d.recommendedChars ++ optionalChars d.isOptional =
      e.recommendedChars ++ optionalChars e.isOptional) :
    d.recommended = e.recommended ∧ d.isOptional = e.isOptional := by
  -- the second character tells `recommended` from `optional`
  have hr : " recommended ".toList = ' ' :: 'r' :: "ecommended ".toList := by decide
  have ho : " optional".toList = ' ' :: 'o' :: "ptional".toList := by decide
  have hne {r : Version} {a b : Bool} :
      " recommended ".toList ++ r.text.toList ++ optionalChars a ≠ optionalChars b := by
    intro h
    rw [hr] at h
    cases b with
    | false => exact List.cons_ne_nil _ _ h
    | true =>
        have hb : optionalChars true = ' ' :: 'o' :: "ptional".toList := ho
        rw [hb] at h
        exact absurd (List.cons.inj (List.cons.inj h).2).1 (by decide)
  unfold recommendedChars at h
  cases hr : d.recommended with
  | none =>
      cases hs : e.recommended with
      | none =>
          rw [hr, hs] at h
          exact ⟨rfl, optional_eq_of_chars_eq h⟩
      | some s =>
          rw [hr, hs] at h
          exact absurd h.symm hne
  | some r =>
      cases hs : e.recommended with
      | none =>
          rw [hr, hs] at h
          exact absurd h hne
      | some s =>
          rw [hr, hs] at h
          simp only [Option.elim_some, List.append_assoc] at h
          obtain ⟨rfl, ho⟩ := version_optional_inj (hd.recommended r hr) (he.recommended s hs)
            (List.append_cancel_left h)
          exact ⟨rfl, ho⟩

theorem eq_of_rangeChars_eq {d e : Dependency} (hid : d.id = e.id) (hd : d.IsRead) (he : e.IsRead)
    (h : d.rangeChars = e.rangeChars) : d = e := by
  have h := (List.cons.inj (List.cons.inj h).2).2
  obtain ⟨hmin, h⟩ := Text.append_cons_inj (fun _ => hd.minimum.isVersionChar_of_mem)
    (fun _ => he.minimum.isVersionChar_of_mem) rfl rfl h
  obtain ⟨hmax, h⟩ := Text.append_cons_inj (fun _ => Bound.isVersionChar_of_mem)
    (fun _ => Bound.isVersionChar_of_mem) rfl rfl (List.cons.inj h).2
  obtain ⟨hrec, hopt⟩ := recommended_optional_inj hd he h
  have hmin := hd.minimum.eq_of_text_eq he.minimum (String.toList_inj.1 hmin)
  have hmax := Bound.eq_of_text_eq (String.toList_inj.1 hmax)
  cases d
  cases e
  simp only at hid hmin hmax hrec hopt
  rw [hid, hmin, hmax, hrec, hopt]

theorem eq_of_id_eq_of_text_eq {d e : Dependency} (hid : d.id = e.id) (hd : d.IsRead)
    (he : e.IsRead) (h : d.text = e.text) : d = e := by
  have h := congrArg String.toList h
  rw [toList_text, toList_text, hid] at h
  exact eq_of_rangeChars_eq hid hd he (List.append_cancel_left h)

/-! ## Dependencies on different products -/

theorem id_rangeChars_inj {d e : Dependency} (hd : d.Valid) (he : e.Valid)
    (h : d.id.text.toList ++ d.rangeChars = e.id.text.toList ++ e.rangeChars) :
    d.id = e.id ∧ d.rangeChars = e.rangeChars := by
  have hchars (x : Dependency) : x.id.text.toList ++ x.rangeChars =
      x.id.group.toList ++ ':' :: (x.id.name.toList ++ x.rangeChars) := by
    simp [ProductId.text]
  rw [hchars, hchars] at h
  have hcolon {x : Dependency} (hx : x.Valid) : ∀ c ∈ x.id.group.toList, (c != ':') = true := by
    intro c hc
    rw [bne_iff_ne]
    rintro rfl
    exact hx.group_colon hc
  have hblank {x : Dependency} (hx : x.Valid) :
      ∀ c ∈ x.id.name.toList, (!Text.isBlank c) = true := by
    intro c hc
    rw [hx.name_blank c hc]
    rfl
  obtain ⟨hgroup, h⟩ := Text.append_cons_inj (hcolon hd) (hcolon he) rfl rfl h
  obtain ⟨hname, hrange⟩ := Text.append_cons_inj (hblank hd) (hblank he) rfl rfl h
  have hgroup := String.toList_inj.1 hgroup
  have hname := String.toList_inj.1 hname
  refine ⟨?_, congrArg (' ' :: ·) hrange⟩
  calc d.id = ⟨d.id.group, d.id.name⟩ := rfl
    _ = ⟨e.id.group, e.id.name⟩ := by rw [hgroup, hname]
    _ = e.id := rfl

/-- Dependencies that keep the rules, with versions that were read, have the same text only where
they are the same in every part: the id, both ends of the range, whether there is a recommendation
and which, and whether they are optional. -/
theorem text_eq_text_iff {d e : Dependency} (hd : d.Valid) (he : e.Valid) (hdr : d.IsRead)
    (her : e.IsRead) : d.text = e.text ↔ d = e := by
  refine ⟨fun h => ?_, congrArg text⟩
  have h := congrArg String.toList h
  rw [toList_text, toList_text] at h
  obtain ⟨hid, hrange⟩ := id_rangeChars_inj hd he h
  exact eq_of_rangeChars_eq hid hdr her hrange

/-- A name with all the marks of a range in it, a minimum outside the order that looks like a
candidate, and a recommendation that ends like an optional dependency does. -/
theorem text_eq_text_iff_look_alikes :
    let id : ProductId := ⟨"com.foo", "bar:baz(1.0.0,1.x.x)recommended"⟩
    let minimum : Version := .freeform ⟨⟨1, 0, 0⟩, "1.0.0-rc01"⟩
    let marked : Dependency := ⟨id, minimum, .major 1, none, true⟩
    let advised : Dependency :=
      ⟨id, minimum, .major 1, some (.freeform ⟨⟨1, 0, 0⟩, "1.0.0.optional"⟩), false⟩
    marked.text = "com.foo:bar:baz(1.0.0,1.x.x)recommended (1.0.0-rc01, 1.x.x) optional" ∧
      marked.text ≠ advised.text := by
  intro id minimum marked advised
  have hminimum : minimum.IsRead := ⟨"1.0.0-rc01", by decide +kernel⟩
  have hmarked : marked.IsRead := ⟨hminimum, nofun⟩
  have hadvised : advised.IsRead := by
    refine ⟨hminimum, fun r hr => ?_⟩
    obtain rfl := Option.some.inj hr
    exact ⟨"1.0.0.optional", by decide +kernel⟩
  refine ⟨by decide +kernel, fun h => ?_⟩
  have heq := (text_eq_text_iff (by decide +kernel) (by decide +kernel) hmarked hadvised).1 h
  exact absurd heq (by decide +kernel)

end Dependency

end ProductLock
