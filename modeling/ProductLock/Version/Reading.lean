import ProductLock.Version

/-!
# Reading versions

A text is tried as an orderable version first. Dashes cut such a text into its release, its
candidate number, its commit count and its hash, and neither a plain numeral nor a hash holds a
dash, so the number of pieces tells which of the four forms it is in.

Failing that, the text may still be freeform: dots and dashes cut it into nonempty segments, the
first three of which are digits with dots between them. Here leading zeros are allowed, and a
candidate number or commit count too large for an orderable version is one more segment. A first
number that does not fit is no version of either kind.
-/

namespace ProductLock

def Release.read? (cs : List Char) : Option Release :=
  match cs.splitOn '.' with
  | [major, minor, patch] => do
      return ⟨← Numeral.read? major, ← Numeral.read? minor, ← Numeral.read? patch⟩
  | _ => none

/-- A hexadecimal digit in lower case. -/
def Revision.isHashDigit (c : Char) : Bool := c.isDigit || ('a' ≤ c && c ≤ 'f')

def Revision.read? (commits hash : List Char) : Option Revision :=
  match hash with
  | 'g' :: h =>
      if h ≠ [] ∧ h.all isHashDigit then
        (Numeral.read? commits).map fun n => ⟨n, String.ofList h⟩
      else none
  | _ => none

namespace OrderableVersion

def candidate? : List Char → Option UInt32
  | 'r' :: 'c' :: n => Numeral.read? n
  | _ => none

def read? (cs : List Char) : Option OrderableVersion :=
  match cs.splitOn '-' with
  | [r] => do return ⟨← Release.read? r, .release⟩
  | [r, c] => do return ⟨← Release.read? r, .candidate (← candidate? c) none⟩
  | [r, n, h] => do return ⟨← Release.read? r, .revision (← Revision.read? n h)⟩
  | [r, c, n, h] => do
      return ⟨← Release.read? r, .candidate (← candidate? c) (some (← Revision.read? n h))⟩
  | _ => none

end OrderableVersion

namespace FreeformVersion

def isSeparator (c : Char) : Bool := c == '.' || c == '-'

/-- A segment after the three numbers: ASCII letters and digits, at least one. -/
def isSegment (cs : List Char) : Bool := cs ≠ [] && cs.all Char.isAlphanum

def read? (cs : List Char) : Option FreeformVersion :=
  match cs.splitOnP isSeparator, cs.filter isSeparator with
  | major :: minor :: patch :: segments, '.' :: '.' :: _ =>
      if segments.all isSegment then do
        return ⟨⟨← Numeral.readPadded? major, ← Numeral.readPadded? minor,
          ← Numeral.readPadded? patch⟩, String.ofList cs⟩
      else none
  | _, _ => none

end FreeformVersion

def Version.read? (s : String) : Option Version :=
  ((OrderableVersion.read? s.toList).map .orderable).or
    ((FreeformVersion.read? s.toList).map .freeform)

end ProductLock
