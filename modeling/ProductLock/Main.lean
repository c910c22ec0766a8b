import ProductLock.CommandLine

/-!
# The program

The part of the disk that a run reads is copied into a file tree, the run is computed, and what it
left in the tree is written back. A file is written beside its place first and then moved there, so
that no one ever sees half of it. What cannot be seen on the disk counts as not being there.
-/

namespace ProductLock.Disk

def observe (path : String) : IO (Option Content) := do
  if let .ok bytes ← (IO.FS.readBinFile path).toBaseIO then return some (.file bytes)
  match ← (IO.FS.realPath path).toBaseIO with
  | .ok path => return if ← path.isDir then some .directory else none
  | .error _ => return none

/-- Copies what lies along a way that starts at a location. -/
def copy (t : FileTree) (l : Location) : List String → IO FileTree
  | [] => return t
  | s :: rest => do
      if s = "" ∨ s = "." then copy t l rest
      else if s = ".." then copy t l.tail rest
      else
        match ← observe (Location.path (s :: l)) with
        | some c => copy (t.put (s :: l) c) (s :: l) rest
        | none => return t

def copyPaths (t : FileTree) (here : Location) (paths : List String) : IO FileTree :=
  paths.foldlM (fun t path => copy t (FileTree.start here path) (Path.segments path)) t

def store (change : Location × Content) : IO Unit := do
  let path := Location.path change.1
  match change.2 with
  | .directory => IO.FS.createDirAll path
  | .file bytes =>
      IO.FS.createDirAll (Location.path change.1.tail)
      IO.FS.writeBinFile (path ++ ".new") bytes
      IO.FS.rename (path ++ ".new") path

end ProductLock.Disk

open ProductLock in
def main (args : List String) : IO UInt32 := do
  let cwd := (← IO.currentDir).toString
  let here : Location := ((Path.segments cwd).filter (· ≠ "")).reverse
  let environment ← IO.getEnv "SLSDEP_PROJECT_DIR"
  let directory := match CommandLine.Progress.request {} environment args with
    | .run _ directory => directory
    | _ => none
  let t ← Disk.copyPaths {} here (cwd :: CommandLine.configPaths here directory)
  let t ← Disk.copyPaths t here (CommandLine.projectPaths t here directory)
  let outcome := CommandLine.run t here environment args
  (outcome.tree.changes t).forM Disk.store
  (← IO.getStdout).putStr outcome.output
  (← IO.getStderr).putStr outcome.messages
  return outcome.exitCode
