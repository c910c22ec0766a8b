import Mathlib.Data.List.Basic
import ProductLock.Json.Token
import ProductLock.Proofs.TextRuns

/-!
# Tokens of texts put together

A text that can be cut into tokens is still cut into these when more text follows, and the tokens
of what follows come after them (`tokens?_append`). Only a word is not closed by its own last
character: it would go on into more word characters, so what follows must not begin with one.

A text written in quotes is one token, which holds the text again (`tokens?_quote`). Control
characters take part: what is escaped by its code is read back from the digits.
-/

namespace ProductLock.Json

/-! ## Texts in quotes -/

theorem value?_code : ∀ n < 32, Hexadecimal.value?
    ['0', '0', Hexadecimal.digit (n / 16), Hexadecimal.digit n] = some n := by
  decide

theorem textBody?_plain {c : Char} (hquote : c ≠ '\x22') (hslash : c ≠ '\\') (hc : ¬c < ' ')
    (cs : List Char) : textBody? (c :: cs) = before c.toNat (textBody? cs) := by
  rw [textBody?.eq_def]
  split <;> grind

theorem textBody?_escaped {e c : Char} (h : escaped? e = some c) (cs : List Char) :
    textBody? ('\\' :: e :: cs) = before c.toNat (textBody? cs) := by
  have he : e ≠ 'u' := by
    rintro rfl
    cases h
  rw [textBody?.eq_def]
  split <;> grind

theorem textBody?_escape (c : Char) (cs : List Char) :
    textBody? (escape c ++ cs) = before c.toNat (textBody? cs) := by
  unfold escape
  split
  -- the characters that are escaped by a letter
  iterate 7 rfl
  next hquote hslash _ _ _ _ _ =>
    split
    next hc =>
      have hcode := value?_code c.toNat hc
      simp only [List.cons_append, List.nil_append, textBody?, hcode, Option.bind_some]
    next hc => exact textBody?_plain hquote hslash hc cs

theorem textBody?_quoted (cs rest : List Char) :
    textBody? (cs.flatMap escape ++ '\x22' :: rest) = some (cs.map Char.toNat, rest) := by
  induction cs with
  | nil => rfl
  | cons c cs ih =>
      rw [List.flatMap_cons, List.append_assoc, textBody?_escape, ih]
      rfl

/-- No character is half of a surrogate pair. -/
theorem chars?_toNat (cs : List Char) : chars? (cs.map Char.toNat) = some cs := by
  induction cs with
  | nil => rfl
  | cons c cs ih =>
      have hvalid : c.toNat < 0xD800 ∨ 0xDFFF < c.toNat ∧ c.toNat < 0x110000 := c.valid
      have hhigh : isHighSurrogate c.toNat = false := by
        simp only [isHighSurrogate, Bool.and_eq_false_iff, decide_eq_false_iff_not]
        omega
      have hlow : isLowSurrogate c.toNat = false := by
        simp only [isLowSurrogate, Bool.and_eq_false_iff, decide_eq_false_iff_not]
        omega
      rw [List.map_cons, chars?.eq_def]
      simp [hhigh, hlow, ih, Char.ofNat_toNat]

/-- The closing quote ends a text, whatever follows it. -/
theorem textBody?_append {cs : List Char} {ns : List Nat} {rest : List Char} (more : List Char)
    (h : textBody? cs = some (ns, rest)) : textBody? (cs ++ more) = some (ns, rest ++ more) := by
  fun_induction textBody? cs generalizing ns rest with
  | case1 => cases h
  | case2 cs =>
      cases h
      rfl
  | case3 a b c d cs ih =>
      obtain ⟨n, hn, h⟩ := Option.bind_eq_some_iff.1 h
      obtain ⟨ms, hms, rfl⟩ := before_eq_some_iff.1 h
      simp only [List.cons_append, textBody?, hn, ih hms, Option.bind_some]
      rfl
  | case4 e cs hu ih =>
      obtain ⟨c, hc, h⟩ := Option.bind_eq_some_iff.1 h
      obtain ⟨ms, hms, rfl⟩ := before_eq_some_iff.1 h
      rw [List.cons_append, List.cons_append, textBody?_escaped hc, ih hms]
      rfl
  | case5 => cases h
  | case6 c cs hquote hcode hescape hc ih =>
      obtain ⟨ms, hms, rfl⟩ := before_eq_some_iff.1 h
      -- a backslash is left to this case only at the end, and then nothing is read
      have hslash : c ≠ '\\' := fun hc => by
        cases cs with
        | nil => cases hms
        | cons e cs => exact hescape e cs hc rfl
      rw [List.cons_append, textBody?_plain hquote hslash hc, ih hms]
      rfl

/-! ## Cutting -/

variable {cs rest : List Char} {ts : List Token}

@[simp] theorem tokens?_nil : tokens? [] = some [] := by
  rw [tokens?]

theorem tokens?_space {c : Char} (h : isSpace c = true) (cs : List Char) :
    tokens? (c :: cs) = tokens? cs := by
  rw [tokens?, if_pos h]

theorem tokens?_mark {c : Char} {t : Token} (h : mark? c = some t) (cs : List Char) :
    tokens? (c :: cs) = (tokens? cs).map (t :: ·) := by
  have hspace : isSpace c = false := by
    revert h
    unfold mark?
    split <;> simp [isSpace]
  have hquote : c ≠ '\x22' := by
    rintro rfl
    cases h
  rw [tokens?]
  simp [hspace, hquote, h]

theorem tokens?_text {ns : List Nat} (h : textBody? cs = some (ns, rest)) :
    tokens? ('\x22' :: cs) = (tokens? rest).map (.text ((chars? ns).map String.ofList) :: ·) := by
  rw [tokens?, if_neg (by decide), if_pos rfl]
  split <;> simp_all

theorem tokens?_word {c : Char} (hspace : isSpace c = false) (hquote : c ≠ '\x22')
    (hmark : mark? c = none) (cs : List Char) :
    tokens? (c :: cs) = (ofWord? (c :: cs.takeWhile isWordChar)).bind fun t =>
      (tokens? (cs.dropWhile isWordChar)).map (t :: ·) := by
  rw [tokens?]
  simp only [Option.map_eq_bind, Function.comp_def]
  simp [hspace, hquote, hmark]

/-- Where a word can end: at the end of the text, or at what is no character of a word. -/
def Stops (rest : List Char) : Prop := ∀ c ∈ rest.head?, isWordChar c = false

theorem Stops.takeWhile_append (h : Stops rest) (cs : List Char) :
    (cs ++ rest).takeWhile isWordChar = cs.takeWhile isWordChar :=
  Text.EndsRun.takeWhile_append h cs

theorem Stops.dropWhile_append (h : Stops rest) (cs : List Char) :
    (cs ++ rest).dropWhile isWordChar = cs.dropWhile isWordChar ++ rest :=
  Text.EndsRun.dropWhile_append h cs

/-- What follows a text that can be cut into tokens is cut on its own. -/
theorem tokens?_append (hrest : Stops rest) (h : tokens? cs = some ts) :
    tokens? (cs ++ rest) = (tokens? rest).map (ts ++ ·) := by
  have hcons (t : Token) (us : List Token) :
      ((tokens? rest).map (us ++ ·)).map (t :: ·) = (tokens? rest).map (t :: us ++ ·) := by
    rw [Option.map_map]
    rfl
  fun_induction tokens? cs generalizing ts with
  | case1 =>
      cases h
      simp
  | case2 c cs hspace ih =>
      rw [List.cons_append, tokens?_space hspace, ih h]
  | case3 cs ns after htext hspace ih =>
      obtain ⟨us, hus, rfl⟩ := Option.map_eq_some_iff.1 h
      rw [List.cons_append, tokens?_text (textBody?_append rest htext), ih hus, hcons]
  | case4 => cases h
  | case5 c cs hspace hquote t hmark ih =>
      obtain ⟨us, hus, rfl⟩ := Option.map_eq_some_iff.1 h
      rw [List.cons_append, tokens?_mark hmark, ih hus, hcons]
  | case6 c cs hspace hquote hmark ih =>
      obtain ⟨t, ht, h⟩ := Option.bind_eq_some_iff.1 h
      obtain ⟨us, hus, h⟩ := Option.bind_eq_some_iff.1 h
      cases h
      rw [List.cons_append, tokens?_word (by simpa using hspace) hquote hmark,
        hrest.takeWhile_append, hrest.dropWhile_append, ht, Option.bind_some, ih hus, hcons]

theorem tokens?_quote (s : String) : tokens? (quote s).toList = some [.text (some s)] := by
  have hbody := textBody?_quoted s.toList []
  rw [quote, String.toList_ofList, List.cons_append, tokens?_text hbody, chars?_toNat, tokens?_nil]
  simp

/-! ## Blanks, marks and what stands between them -/

theorem stops_cons {c : Char} (h : isWordChar c = false) (cs : List Char) : Stops (c :: cs) :=
  Text.endsRun_cons h

theorem isWordChar_of_isSpace {c : Char} (h : isSpace c = true) : isWordChar c = false := by
  simp only [isSpace, Bool.or_eq_true, beq_iff_eq] at h
  rcases h with ((rfl | rfl) | rfl) | rfl <;> rfl

theorem isWordChar_of_mark {c : Char} {t : Token} (h : mark? c = some t) :
    isWordChar c = false := by
  revert h
  unfold mark?
  split <;> simp [isWordChar]

def AreBlank (cs : List Char) : Prop := ∀ c ∈ cs, isSpace c = true

instance (cs : List Char) : Decidable (AreBlank cs) :=
  decidable_of_iff (cs.all isSpace = true) List.all_eq_true

theorem AreBlank.nil : AreBlank [] := nofun

variable {lead trail : List Char}

theorem AreBlank.stops_append (h : AreBlank trail) (hrest : Stops rest) :
    Stops (trail ++ rest) := by
  cases trail with
  | nil => exact hrest
  | cons c trail => exact stops_cons (isWordChar_of_isSpace (h c (.head trail))) _

theorem AreBlank.tokens?_append (h : AreBlank lead) (cs : List Char) :
    tokens? (lead ++ cs) = tokens? cs := by
  induction lead with
  | nil => rfl
  | cons c lead ih =>
      obtain ⟨hc, hlead⟩ := List.forall_mem_cons.1 h
      rw [List.cons_append, tokens?_space hc, ih hlead]

/-- Blanks around a text do not count. -/
theorem tokens?_padded (hlead : AreBlank lead) (htrail : AreBlank trail)
    (h : tokens? cs = some ts) : tokens? (lead ++ cs ++ trail) = some ts := by
  have htrail' : tokens? trail = some [] := by
    rw [← List.append_nil trail, htrail.tokens?_append, tokens?_nil]
  have hstops : Stops trail := by
    rw [← List.append_nil trail]
    exact htrail.stops_append nofun
  rw [List.append_assoc, hlead.tokens?_append, Json.tokens?_append hstops h, htrail']
  simp

theorem tokens?_enclosed {b e : Char} {t u : Token} (hb : mark? b = some t) (he : mark? e = some u)
    (h : tokens? cs = some ts) : tokens? (b :: cs ++ [e]) = some (t :: ts ++ [u]) := by
  have hstops : Stops [e] := stops_cons (isWordChar_of_mark he) []
  rw [List.cons_append, tokens?_mark hb, tokens?_append hstops h, tokens?_mark he, tokens?_nil]
  rfl

/-- Items after commas, with blanks after each comma. -/
theorem tokens?_intercalate {α : Type} {text : α → List Char} {tokens : α → List Token}
    {items : List α} (hlead : AreBlank lead) (h : ∀ x ∈ items, tokens? (text x) = some (tokens x)) :
    tokens? ((',' :: lead).intercalate (items.map text)) =
      some ([.comma].intercalate (items.map tokens)) := by
  induction items with
  | nil => simp [List.intercalate]
  | cons x items ih =>
      obtain ⟨hx, hitems⟩ := List.forall_mem_cons.1 h
      cases items with
      | nil => simpa [List.intercalate] using hx
      | cons y items =>
          have hstops (rest : List Char) : Stops (',' :: rest) := stops_cons rfl rest
          simp only [List.map_cons, List.intercalate_cons_cons] at ih ⊢
          rw [List.append_assoc, List.cons_append, tokens?_append (hstops _) hx, tokens?_mark rfl,
            hlead.tokens?_append, ih hitems]
          simp

end ProductLock.Json
