import ProductLock.ConstraintError

/-!
# Why an operation failed

An operation on a project fails on what its dependencies say, or on a file: one that cannot be read
or does not parse, or a lock file that is out of date.
-/

namespace ProductLock

inductive Failure
  | constraint (error : ConstraintError)
  | io (message : String)
  | config (message : String)
  | descriptor (message : String)
  | drift (path diff : String)
  | generic (message : String)
deriving DecidableEq

namespace Failure

def ofInvalid (e : Invalid) : Failure := .constraint (.invalid e)

def message : Failure → String
  | .constraint e => e.message
  | .io m => "I/O error: " ++ m
  | .config m => "Configuration error: " ++ m
  | .descriptor m => "Descriptor error: " ++ m
  | .drift path diff => path ++ " is out of date:\n" ++ diff
  | .generic m => m

def help? : Failure → Option String
  | .constraint e => e.help?
  | .config _ => some "Check your product.toml for syntax errors"
  | .drift .. => some "Run `slsdep lock` to regenerate it"
  | .io _ | .descriptor _ | .generic _ => none

end Failure

end ProductLock
