import ProductLock.Version.Reading

/-!
# Upper bounds

A bound pins the leading numbers of a release and leaves the others open: `x.x.x`, `1.x.x`,
`1.2.x`, or a whole release `1.2.3`. An open number stands for infinity, so that a bound is tighter
the more it pins and the smaller the pinned numbers are. No number is pinned after an open one:
the four constructors are the four shapes a bound can have.

It is written as three pieces with dots between them, each an `x` or a plain numeral, with no
numeral after an `x`. With all three pinned it is a release, and some places want a bound that
leaves a number open, so the wildcard forms can also be read alone.
-/

namespace ProductLock

inductive Bound
  | any
  | major (major : UInt32)
  | minor (major minor : UInt32)
  | exact (release : Release)
deriving DecidableEq

namespace Bound

def major? : Bound → Option UInt32
  | .any => none
  | .major a => some a
  | .minor a _ => some a
  | .exact r => some r.major

def minor? : Bound → Option UInt32
  | .any | .major _ => none
  | .minor _ b => some b
  | .exact r => some r.minor

def patch? : Bound → Option UInt32
  | .any | .major _ | .minor .. => none
  | .exact r => some r.patch

def text : Bound → String
  | .any => "x.x.x"
  | .major a => Numeral.text a ++ ".x.x"
  | .minor a b => Numeral.text a ++ "." ++ Numeral.text b ++ ".x"
  | .exact r => r.text

/-! ## Reading -/

/-- Reads one of the forms that leave a number open. -/
def readWildcard? (s : String) : Option Bound :=
  match s.toList.splitOn '.' with
  | [['x'], ['x'], ['x']] => some .any
  | [a, ['x'], ['x']] => (Numeral.read? a).map .major
  | [a, b, ['x']] => do return .minor (← Numeral.read? a) (← Numeral.read? b)
  | _ => none

def read? (s : String) : Option Bound :=
  (readWildcard? s).or ((Release.read? s.toList).map .exact)

end Bound

end ProductLock
