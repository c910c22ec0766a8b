import ProductLock.Document

/-!
# Words in TOML

Numbers, dates, times and the two flags are words: runs of letters, digits and a few marks, save
that a date and a time may have one space between them. Which words are allowed is settled here.
Nothing reads their values, but an integer has to fit in 64 bits, a date has to exist, and a float
that is not written with a minus sign must not be so large that it rounds to infinity.
-/

namespace ProductLock.Toml

def isWordChar (c : Char) : Bool :=
  c.isAlphanum || c == '+' || c == '-' || c == '_' || c == '.' || c == ':'

/-! ## Numbers -/

/-- Digits, at least one, with single underscores between some of them. -/
def isGrouped (isDigit : Char → Bool) : List Char → Bool
  | [] => false
  | [c] => isDigit c
  | c :: '_' :: cs => isDigit c && isGrouped isDigit cs
  | c :: cs => isDigit c && isGrouped isDigit cs

/-- The value of grouped digits in the given base. -/
def groupedValue (base : Nat) (cs : List Char) : Nat :=
  (cs.filter (· != '_')).foldl (fun n c =>
    base * n + (if c.isDigit then c.toNat - '0'.toNat else c.toLower.toNat - 'a'.toNat + 10)) 0

/-- The whole part of a decimal number: no leading zero. -/
def isWhole (cs : List Char) : Bool :=
  cs = ['0'] || (cs.head? != some '0' && isGrouped Char.isDigit cs)

/-- Whether there is a minus sign, and what follows the sign, if any. -/
def splitSign : List Char → Bool × List Char
  | '-' :: cs => (true, cs)
  | '+' :: cs => (false, cs)
  | cs => (false, cs)

def isHexDigit (c : Char) : Bool := c.isDigit || ('a' ≤ c && c ≤ 'f') || ('A' ≤ c && c ≤ 'F')

def isOctalDigit (c : Char) : Bool := '0' ≤ c && c ≤ '7'

def isBinaryDigit (c : Char) : Bool := c == '0' || c == '1'

/-- Integers lie below this, and a negative one may be as far below zero. -/
def integerLimit : Nat := Nat.pow 2 63

def isInteger : List Char → Bool
  | '0' :: 'x' :: cs => isGrouped isHexDigit cs && groupedValue 16 cs < integerLimit
  | '0' :: 'o' :: cs => isGrouped isOctalDigit cs && groupedValue 8 cs < integerLimit
  | '0' :: 'b' :: cs => isGrouped isBinaryDigit cs && groupedValue 2 cs < integerLimit
  | cs =>
      let (negative, cs) := splitSign cs
      let n := groupedValue 10 cs
      isWhole cs && (n < integerLimit || (negative && n == integerLimit))

/-- The least value that rounds to infinity: halfway between the largest double and the power of
two above it. -/
def infinityThreshold : Nat := Nat.pow 2 1024 - Nat.pow 2 970

/-- Whether `m * 10 ^ e` rounds to infinity. The count of digits settles all but the close cases, so
that no power of ten is computed for an exponent that is far away. -/
def roundsToInfinity (m : Nat) (e : Int) : Bool :=
  let size : Int := (Nat.toDigits 10 m).length + e
  if m = 0 || size < 300 then false
  else if 320 < size then true
  else m * Nat.pow 10 e.toNat ≥ infinityThreshold * Nat.pow 10 (-e).toNat

def isGroupChar (c : Char) : Bool := c.isDigit || c == '_'

/-- The exponent of a float, which may be missing. -/
def exponent? : List Char → Option Int
  | [] => some 0
  | e :: cs =>
      let (negative, ds) := splitSign cs
      if (e == 'e' || e == 'E') && isGrouped Char.isDigit ds then
        let n : Int := groupedValue 10 ds
        some (if negative then -n else n)
      else none

/-- A float that has a fraction, an exponent or both. -/
def isFloat (cs : List Char) : Bool :=
  let (negative, cs) := splitSign cs
  let whole := cs.takeWhile isGroupChar
  let inBounds (digits : List Char) (e : Int) : Bool :=
    negative || !roundsToInfinity (groupedValue 10 digits) e
  isWhole whole &&
    match cs.dropWhile isGroupChar with
    | [] => false
    | '.' :: cs =>
        let fraction := cs.takeWhile isGroupChar
        isGrouped Char.isDigit fraction &&
          (match exponent? (cs.dropWhile isGroupChar) with
            | some e => inBounds (whole ++ fraction) (e - fraction.countP Char.isDigit)
            | none => false)
    | cs =>
        match exponent? cs with
        | some e => inBounds whole e
        | none => false

def isNamedFloat (cs : List Char) : Bool :=
  let name := (splitSign cs).2
  name = "inf".toList || name = "nan".toList

/-! ## Dates and times -/

/-- A number of exactly so many digits. -/
def fixed? (width : Nat) (cs : List Char) : Option Nat :=
  if cs.length = width ∧ cs.all Char.isDigit then some (Nat.ofDigitChars 10 cs 0) else none

def isLeapYear (y : Nat) : Bool := y % 4 == 0 && (y % 100 != 0 || y % 400 == 0)

def daysIn (year month : Nat) : Nat :=
  if month = 2 then if isLeapYear year then 29 else 28
  else if month ∈ [4, 6, 9, 11] then 30
  else 31

def isDate (cs : List Char) : Bool :=
  match cs.splitOn '-' with
  | [y, m, d] =>
      match fixed? 4 y, fixed? 2 m, fixed? 2 d with
      | some y, some m, some d => 1 ≤ m && m ≤ 12 && 1 ≤ d && d ≤ daysIn y m
      | _, _, _ => false
  | _ => false

def isBelow (limit : Nat) (cs : List Char) : Bool := (fixed? 2 cs).any (· < limit)

/-- Seconds, the leap second included, perhaps with a fraction. -/
def isSeconds (cs : List Char) : Bool :=
  match cs.splitOn '.' with
  | [s] => isBelow 61 s
  | [s, fraction] => isBelow 61 s && fraction ≠ [] && fraction.all Char.isDigit
  | _ => false

def isTime (cs : List Char) : Bool :=
  match cs.splitOn ':' with
  | [h, m, s] => isBelow 24 h && isBelow 60 m && isSeconds s
  | _ => false

/-- An offset from UTC, which may be missing. -/
def isOffset : List Char → Bool
  | [] | ['Z'] | ['z'] => true
  | '+' :: cs | '-' :: cs =>
      match cs.splitOn ':' with
      | [h, m] => isBelow 24 h && isBelow 60 m
      | _ => false
  | _ => false

/-- What may follow a date: a time, perhaps with an offset. -/
def isTimeOfDay (cs : List Char) : Bool :=
  let inTime (c : Char) : Bool := c.isDigit || c == ':' || c == '.'
  isTime (cs.takeWhile inTime) && isOffset (cs.dropWhile inTime)

def isDateTime (cs : List Char) : Bool :=
  isDate (cs.take 10) &&
    match cs.drop 10 with
    | [] => true
    | t :: cs => (t == 'T' || t == 't') && isTimeOfDay cs

/-! ## Reading a word -/

/-- A date or a time counts as a record of parts that no kind of record asks for. -/
def moment : Document := .record []

def ofWord? (w : List Char) : Option Document :=
  if w = "true".toList then some (.flag true)
  else if w = "false".toList then some (.flag false)
  else if isInteger w || isFloat w || isNamedFloat w then some .other
  else if isDateTime w || isTime w then some moment
  else none

def word? (cs : List Char) : Option (Document × List Char) :=
  let w := cs.takeWhile isWordChar
  match isDate w, cs.dropWhile isWordChar with
  | true, ' ' :: rest =>
      let time := rest.takeWhile isWordChar
      if time = [] then some (moment, ' ' :: rest)
      else if isTimeOfDay time then some (moment, rest.dropWhile isWordChar)
      else none
  | _, rest => (ofWord? w).map (·, rest)

end ProductLock.Toml
