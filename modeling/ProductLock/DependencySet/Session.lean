import ProductLock.LockText

/-!
# Sessions on a set of dependencies

A set is changed by an edit at a time: a dependency is filed in it, it is made anew from a list, its
policy is set, it is cut down to what a lock file records, or a lock file is read into it. Filing a
dependency tells which one it took the place of. Reading can fail, and then the set stays as it was.
-/

namespace ProductLock.DependencySet

inductive Edit
  | insert (d : Dependency)
  | ofList (ds : List Dependency)
  | withPolicy (optional ignored : IdSet)
  | lockView
  | decode (b : Build) (text : String)

/-- What an edit has to tell. -/
inductive Reply
  | replaced (previous : Option Dependency)
  | done
  | refused (error : ConstraintError)
deriving DecidableEq

def edit (s : DependencySet) : Edit → DependencySet × Reply
  | .insert d => (s.insert d, .replaced (s.find? d.id))
  | .ofList ds => (ofList ds, .done)
  | .withPolicy optional ignored => (s.withPolicy optional ignored, .done)
  | .lockView => (s.lockView, .done)
  | .decode b text =>
      match LockText.decode b text with
      | .ok t => (t, .done)
      | .error e => (s, .refused e)

/-- The set after a list of edits, with the reply to each of them. -/
def session (s : DependencySet) : List Edit → DependencySet × List Reply
  | [] => (s, [])
  | e :: es =>
      let first := s.edit e
      let rest := first.1.session es
      (rest.1, first.2 :: rest.2)

end ProductLock.DependencySet
