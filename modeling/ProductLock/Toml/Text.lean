import ProductLock.Text

/-!
# Texts in TOML

A text stands in double quotes, where a backslash escapes, or in single quotes, where nothing does.
Three quotes in a row open a block, which may run over several lines; a line feed right after the
opening is dropped, and so is everything from a backslash at the end of a line to the next character
that is not blank. Up to two quotes may stand right before the three that close a block.

However a line ends in the file, in a text it ends in a line feed.
-/

namespace ProductLock.Toml

/-- A character allowed in a comment, and in a text unless it means something there. -/
def isPlain (c : Char) : Bool := c == '\t' || (' ' ≤ c && c != '\x7f')

def isBlank (c : Char) : Bool := c == ' ' || c == '\t'

def skipBlanks (cs : List Char) : List Char := cs.dropWhile isBlank

/-- What follows a line feed. -/
def lineFeed? : List Char → Option (List Char)
  | '\n' :: cs => some cs
  | '\r' :: '\n' :: cs => some cs
  | _ => none

/-- The characters of a text, and what follows it. -/
abbrev Taken := Option (List Char × List Char)

def before (c : Char) (taken : Taken) : Taken := taken.map fun (cs, rest) => (c :: cs, rest)

def escaped? : Char → Option Char
  | '\x22' => some '\x22'
  | '\\' => some '\\'
  | 'b' => some '\x08'
  | 'f' => some '\x0c'
  | 'n' => some '\n'
  | 'r' => some '\r'
  | 't' => some '\t'
  | _ => none

/-- The character with the code that the digits spell out. -/
def coded? (digits : List Char) : Option Char := do
  let n ← Hexadecimal.value? digits
  if n.isValidChar then some (Char.ofNat n) else none

def basicLine? : List Char → Taken
  | [] => none
  | '\x22' :: cs => some ([], cs)
  | '\\' :: 'u' :: a :: b :: c :: d :: cs =>
      (coded? [a, b, c, d]).bind (before · (basicLine? cs))
  | '\\' :: 'U' :: a :: b :: c :: d :: e :: f :: g :: h :: cs =>
      (coded? [a, b, c, d, e, f, g, h]).bind (before · (basicLine? cs))
  | '\\' :: e :: cs => (escaped? e).bind (before · (basicLine? cs))
  | c :: cs => if isPlain c then before c (basicLine? cs) else none

/-- Within the margin that a backslash at the end of a line opens, blanks and line feeds are
dropped. -/
def basicBlock? (margin : Bool) : List Char → Taken
  | [] => none
  | '\x22' :: '\x22' :: '\x22' :: '\x22' :: '\x22' :: cs => some (['\x22', '\x22'], cs)
  | '\x22' :: '\x22' :: '\x22' :: '\x22' :: cs => some (['\x22'], cs)
  | '\x22' :: '\x22' :: '\x22' :: cs => some ([], cs)
  | '\\' :: 'u' :: a :: b :: c :: d :: cs =>
      (coded? [a, b, c, d]).bind (before · (basicBlock? false cs))
  | '\\' :: 'U' :: a :: b :: c :: d :: e :: f :: g :: h :: cs =>
      (coded? [a, b, c, d, e, f, g, h]).bind (before · (basicBlock? false cs))
  | '\\' :: e :: cs =>
      if (lineFeed? (skipBlanks (e :: cs))).isSome then basicBlock? true cs
      else (escaped? e).bind (before · (basicBlock? false cs))
  | '\r' :: '\n' :: cs =>
      if margin then basicBlock? true cs else before '\n' (basicBlock? false cs)
  | c :: cs =>
      if margin && (isBlank c || c == '\n') then basicBlock? true cs
      else if isPlain c || c == '\n' then before c (basicBlock? false cs)
      else none

def literalLine? : List Char → Taken
  | [] => none
  | '\x27' :: cs => some ([], cs)
  | c :: cs => if isPlain c then before c (literalLine? cs) else none

def literalBlock? : List Char → Taken
  | [] => none
  | '\x27' :: '\x27' :: '\x27' :: '\x27' :: '\x27' :: cs => some (['\x27', '\x27'], cs)
  | '\x27' :: '\x27' :: '\x27' :: '\x27' :: cs => some (['\x27'], cs)
  | '\x27' :: '\x27' :: '\x27' :: cs => some ([], cs)
  | '\r' :: '\n' :: cs => before '\n' (literalBlock? cs)
  | c :: cs => if isPlain c || c == '\n' then before c (literalBlock? cs) else none

def skipLineFeed (cs : List Char) : List Char := (lineFeed? cs).getD cs

/-- A text on one line, as it may stand for a key. -/
def textLine? : List Char → Taken
  | '\x22' :: cs => basicLine? cs
  | '\x27' :: cs => literalLine? cs
  | _ => none

def text? : List Char → Taken
  | '\x22' :: '\x22' :: '\x22' :: cs => basicBlock? false (skipLineFeed cs)
  | '\x27' :: '\x27' :: '\x27' :: cs => literalBlock? (skipLineFeed cs)
  | cs => textLine? cs

end ProductLock.Toml
