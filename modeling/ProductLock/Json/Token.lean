import ProductLock.Text

/-!
# The tokens of JSON

A JSON text is cut into tokens: the six punctuation marks, texts in quotes, and words, which are
the numbers and the three names. Blank characters between tokens are dropped.

A text may escape the two halves of a surrogate pair. Halves that do not pair up are allowed by the
grammar but stand for no character; the token then has no text, and it is for the reader of the
tokens to say whether that matters.

A text is written in quotes with the quote, the backslash and the control characters below U+0020
escaped, by a letter where there is one and by their code otherwise; every other character stands
for itself.
-/

namespace ProductLock.Json

inductive Token
  | beginRecord
  | endRecord
  | beginList
  | endList
  | colon
  | comma
  /-- Without a text if a surrogate stands alone in it. -/
  | text (value : Option String)
  | number
  | null
  | flag (value : Bool)
deriving DecidableEq

/-! ## Words -/

def isWordChar (c : Char) : Bool := c.isAlphanum || c == '+' || c == '-' || c == '.'

/-- An exponent, which may be missing. -/
def isExponent (cs : List Char) : Bool :=
  match cs with
  | [] => true
  | e :: cs =>
      let ds := match cs with
        | '+' :: ds | '-' :: ds => ds
        | ds => ds
      (e == 'e' || e == 'E') && ds ≠ [] && ds.all Char.isDigit

/-- What follows the whole part of a number: a fraction and an exponent, either of which may be
missing. -/
def isTail (cs : List Char) : Bool :=
  match cs with
  | '.' :: cs => cs.takeWhile Char.isDigit ≠ [] && isExponent (cs.dropWhile Char.isDigit)
  | cs => isExponent cs

def isMagnitude (cs : List Char) : Bool :=
  match cs with
  | '0' :: cs => isTail cs
  | cs => cs.takeWhile Char.isDigit ≠ [] && isTail (cs.dropWhile Char.isDigit)

def isNumber (cs : List Char) : Bool :=
  match cs with
  | '-' :: cs => isMagnitude cs
  | cs => isMagnitude cs

def ofWord? (cs : List Char) : Option Token :=
  if cs = "null".toList then some .null
  else if cs = "true".toList then some (.flag true)
  else if cs = "false".toList then some (.flag false)
  else if isNumber cs then some .number
  else none

/-! ## Texts -/

/-- The character after a backslash, save for `u`. -/
def escaped? : Char → Option Char
  | '\x22' => some '\x22'
  | '\\' => some '\\'
  | '/' => some '/'
  | 'b' => some '\x08'
  | 'f' => some '\x0c'
  | 'n' => some '\n'
  | 'r' => some '\r'
  | 't' => some '\t'
  | _ => none

/-- Puts a code point before those read so far. -/
def before (n : Nat) (read : Option (List Nat × List Char)) : Option (List Nat × List Char) :=
  read.map fun (ns, rest) => (n :: ns, rest)

theorem before_eq_some_iff {n : Nat} {read : Option (List Nat × List Char)} {ns : List Nat}
    {rest : List Char} :
    before n read = some (ns, rest) ↔ ∃ ms, read = some (ms, rest) ∧ ns = n :: ms := by
  refine ⟨fun h => ?_, fun h => ?_⟩
  · obtain ⟨⟨ms, _⟩, hread, hns⟩ := Option.map_eq_some_iff.1 h
    cases hns
    exact ⟨ms, hread, rfl⟩
  · obtain ⟨ms, rfl, rfl⟩ := h
    rfl

/-- The code points up to the closing quote, surrogates among them, and what follows the quote. -/
def textBody? : List Char → Option (List Nat × List Char)
  | [] => none
  | '\x22' :: cs => some ([], cs)
  | '\\' :: 'u' :: a :: b :: c :: d :: cs =>
      (Hexadecimal.value? [a, b, c, d]).bind fun n => before n (textBody? cs)
  | '\\' :: e :: cs => (escaped? e).bind fun c => before c.toNat (textBody? cs)
  | c :: cs => if c < ' ' then none else before c.toNat (textBody? cs)

def isHighSurrogate (n : Nat) : Bool := 0xD800 ≤ n && n < 0xDC00

def isLowSurrogate (n : Nat) : Bool := 0xDC00 ≤ n && n < 0xE000

/-- The characters that code points stand for, if every surrogate has its other half. -/
def chars? : List Nat → Option (List Char)
  | [] => some []
  | n :: ns =>
      if isHighSurrogate n then
        match ns with
        | m :: ms =>
            if isLowSurrogate m then
              (chars? ms).map (Char.ofNat (0x10000 + (n - 0xD800) * 0x400 + (m - 0xDC00)) :: ·)
            else none
        | [] => none
      else if isLowSurrogate n then none
      else (chars? ns).map (Char.ofNat n :: ·)

theorem length_textBody? {cs : List Char} {ns : List Nat} {rest : List Char}
    (h : textBody? cs = some (ns, rest)) : rest.length < cs.length := by
  fun_induction textBody? cs generalizing ns rest with
  | case1 => cases h
  | case2 cs =>
      cases h
      exact Nat.lt_succ_self _
  | case3 a b c d cs ih =>
      obtain ⟨_, _, h⟩ := Option.bind_eq_some_iff.1 h
      obtain ⟨_, hms, _⟩ := before_eq_some_iff.1 h
      have := ih hms
      simp only [List.length_cons]
      omega
  | case4 e cs _ ih =>
      obtain ⟨_, _, h⟩ := Option.bind_eq_some_iff.1 h
      obtain ⟨_, hms, _⟩ := before_eq_some_iff.1 h
      have := ih hms
      simp only [List.length_cons]
      omega
  | case5 => cases h
  | case6 c cs _ _ _ _ ih =>
      obtain ⟨_, hms, _⟩ := before_eq_some_iff.1 h
      have := ih hms
      simp only [List.length_cons]
      omega

/-! ## Cutting a text into tokens -/

def mark? : Char → Option Token
  | '\x7b' => some .beginRecord
  | '\x7d' => some .endRecord
  | '[' => some .beginList
  | ']' => some .endList
  | ':' => some .colon
  | ',' => some .comma
  | _ => none

def isSpace (c : Char) : Bool := c == ' ' || c == '\t' || c == '\n' || c == '\r'

def tokens? (cs : List Char) : Option (List Token) :=
  match cs with
  | [] => some []
  | c :: rest =>
      if isSpace c then tokens? rest
      else if c = '\x22' then
        match _h : textBody? rest with
        | some (ns, after) =>
            (tokens? after).map (.text ((chars? ns).map String.ofList) :: ·)
        | none => none
      else
        match mark? c with
        | some t => (tokens? rest).map (t :: ·)
        | none => do
            let t ← ofWord? (c :: rest.takeWhile isWordChar)
            return t :: (← tokens? (rest.dropWhile isWordChar))
termination_by cs.length
decreasing_by
  · simp
  · have := length_textBody? ‹_›
    simp only [List.length_cons]
    omega
  · simp
  · have := (List.dropWhile_sublist isWordChar (l := rest)).length_le
    simp only [List.length_cons]
    omega

/-! ## Quoting -/

def escape (c : Char) : List Char :=
  match c with
  | '\x22' => ['\\', '\x22']
  | '\\' => ['\\', '\\']
  | '\x08' => ['\\', 'b']
  | '\t' => ['\\', 't']
  | '\n' => ['\\', 'n']
  | '\x0c' => ['\\', 'f']
  | '\r' => ['\\', 'r']
  | c =>
      if c < ' ' then
        ['\\', 'u', '0', '0', Hexadecimal.digit (c.toNat / 16), Hexadecimal.digit c.toNat]
      else [c]

def quote (s : String) : String :=
  String.ofList ('\x22' :: s.toList.flatMap escape ++ ['\x22'])

end ProductLock.Json
