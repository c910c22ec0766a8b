import ProductLock.Numeral

/-!
# Versions

A version is *orderable* or *freeform*. An orderable version is a release `X.Y.Z`, a release
candidate `X.Y.Z-rcN`, or a build some commits past either of these, `X.Y.Z-N-gH` and
`X.Y.Z-rcN-M-gH`. A freeform version is three numbers followed by any segments, such as
`1.2.3-foo.dirty`; it has no place in the order and equals only itself, so it keeps its text.

Whatever its kind, a version builds on a release, the three numbers it begins with.
-/

namespace ProductLock

structure Release where
  major : UInt32
  minor : UInt32
  patch : UInt32
deriving DecidableEq

def Release.text (r : Release) : String :=
  Numeral.text r.major ++ "." ++ Numeral.text r.minor ++ "." ++ Numeral.text r.patch

/-- A build past a tag: how many commits past it, and the hash of the last one. -/
structure Revision where
  commits : UInt32
  hash : String
deriving DecidableEq

def Revision.text (r : Revision) : String := "-" ++ Numeral.text r.commits ++ "-g" ++ r.hash

/-- What an orderable version says beyond the release it builds on. -/
inductive Suffix
  | release
  | candidate (number : UInt32) (revision : Option Revision)
  | revision (revision : Revision)
deriving DecidableEq

def Suffix.text : Suffix → String
  | .release => ""
  | .candidate n none => "-rc" ++ Numeral.text n
  | .candidate n (some r) => "-rc" ++ Numeral.text n ++ r.text
  | .revision r => r.text

def Suffix.revision? : Suffix → Option Revision
  | .candidate _ r => r
  | .revision r => some r
  | .release => none

structure OrderableVersion where
  base : Release
  suffix : Suffix
deriving DecidableEq

def OrderableVersion.text (v : OrderableVersion) : String := v.base.text ++ v.suffix.text

def OrderableVersion.isRelease (v : OrderableVersion) : Bool := v.suffix = .release

/-- A version that has no place in the order. -/
structure FreeformVersion where
  base : Release
  text : String
deriving DecidableEq

inductive Version
  | orderable (v : OrderableVersion)
  | freeform (v : FreeformVersion)
deriving DecidableEq

namespace Version

def text : Version → String
  | .orderable v => v.text
  | .freeform v => v.text

/-- The release a version builds on. -/
def base : Version → Release
  | .orderable v => v.base
  | .freeform v => v.base

def orderable? : Version → Option OrderableVersion
  | .orderable v => some v
  | .freeform _ => none

def isOrderable (v : Version) : Bool := v.orderable?.isSome

end Version

end ProductLock
