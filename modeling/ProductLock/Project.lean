import ProductLock.Descriptor
import ProductLock.Failure
import ProductLock.Files.Change
import ProductLock.LockText
import ProductLock.ProjectConfig
import ProductLock.Resolution

/-!
# Projects

A project is a directory with a configuration. Its dependencies are resolved from what the
configuration declares and what the descriptors it names recommend. From there the project can be
locked, which writes the lock file; checked, which compares the lock file with what locking would
write; and rendered as a manifest.

Files are read in a fixed order, and the first fault ends the operation: the configuration, its
version, its declarations, each descriptor with its entries, the two policy lists, then resolving,
and last the workspace products.
-/

namespace ProductLock

/-- A project whose dependencies have been resolved. -/
structure Project where
  config : ProjectConfig
  resolution : Resolution
  build : Build
  lockPath : String

/-- What locking did. -/
structure Locked where
  dependencies : Nat
  written : Bool

namespace Project

def lockName : String := "product-dependencies.lock"

def readConfig (t : FileTree) (here : Location) (path : String) : Except Failure ProjectConfig :=
  match t.read here path with
  | .error e => .error (.config ("Failed to read " ++ path ++ ": " ++ e.message))
  | .ok text =>
      match ProjectConfig.read? text with
      | some c => .ok c
      | none => .error (.config ("Failed to parse " ++ path))

def readDescriptor (t : FileTree) (here : Location) (path : String) :
    Except Failure (List Dependency) :=
  match t.read here path with
  | .error e => .error (.descriptor ("Failed to read " ++ path ++ ": " ++ e.message))
  | .ok text =>
      match Descriptor.read? text with
      | some d => d.dependencies.mapError .ofInvalid
      | none => .error (.descriptor ("Failed to parse " ++ path))

def resolve (t : FileTree) (here : Location) (root : String) : Except Failure Project := do
  let config ← readConfig t here (Path.join root ProjectConfig.fileName)
  let version ← config.projectVersion.mapError .ofInvalid
  let declared ← config.declared.mapError .ofInvalid
  let discovered ← (config.descriptorPaths root).mapM (readDescriptor t here)
  let ignored ← config.ignoredIds.mapError .ofInvalid
  let optional ← config.optionalIds.mapError .ofInvalid
  let resolver : Resolver := ⟨config.product, ignored, optional⟩
  let resolution ← (resolver.resolve declared discovered.flatten).mapError .constraint
  let workspace ← config.workspaceIds.mapError .ofInvalid
  return ⟨config, resolution, ⟨version.text, workspace⟩, Path.join root lockName⟩

/-- What the lock file should hold. -/
def lockText (p : Project) : String := LockText.encode p.build p.resolution.dependencies

def size (p : Project) : Nat := p.resolution.dependencies.size

def manifest (p : Project) : String := p.resolution.dependencies.manifest

/-- Writes the lock file unless it is up to date. What it held before does not matter. -/
def lock (p : Project) (t : FileTree) (here : Location) : Change Failure Locked :=
  ((t.writeIfChanged here p.lockPath p.lockText).map fun written => ⟨p.size, written⟩).mapError
    fun e => .io e.message

/-- How a lock file differs, in words. -/
def driftText (actual expected : String) : String :=
  match (LockText.Drift.between actual expected).text with
  | "" => "  (entries match, formatting differs)"
  | diff => diff

/-- Succeeds if the lock file holds just what it should. One that cannot be read as a lock file is
reported as such. -/
def check (p : Project) (t : FileTree) (here : Location) : Except Failure Unit := do
  match ← (t.readOptional here p.lockPath).mapError fun e => .io e.message with
  | none => throw (.drift p.lockPath (LockText.Drift.between "" p.lockText).text)
  | some actual =>
      if actual ≠ p.lockText then
        let _ ← (LockText.decode p.build actual).mapError .constraint
        throw (.drift p.lockPath (driftText actual p.lockText))

end Project

end ProductLock
