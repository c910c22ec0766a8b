import ProductLock.Project

/-!
# The command line

Three commands work on a project: `lock`, `check` and `manifest`. The directory of the project is
given by an option or by the environment; otherwise it is the nearest directory upwards that has a
configuration. Options may stand before the command or after it. After it they win, and in either
place each may be given once.

A run is a function of the file tree, the directory it starts in, the environment and the arguments.
-/

namespace ProductLock.CommandLine

inductive Command
  | lock
  | check
  | manifest
deriving DecidableEq

def Command.ofName? : String → Option Command
  | "lock" => some .lock
  | "check" => some .check
  | "manifest" => some .manifest
  | _ => none

/-- What the arguments ask for. -/
inductive Request
  | run (command : Command) (directory : Option String)
  | version
  | help
  | misuse
deriving DecidableEq

/-! ## Reading arguments -/

/-- The options met so far, before the command or after it. -/
structure Options where
  directory : Option String := none
  verbose : Bool := false
deriving DecidableEq

namespace Options

/-- An empty directory is none. -/
def setDirectory? (o : Options) (value : String) : Option Options :=
  if o.directory.isSome ∨ value.isEmpty then none else some { o with directory := some value }

def setVerbose? (o : Options) : Option Options :=
  if o.verbose then none else some { o with verbose := true }

end Options

/-- What an argument that starts with a dash comes to. -/
inductive Flags
  | set (options : Options)
  /-- The next argument is the directory. -/
  | wantsDirectory (options : Options)
  | stop (request : Request)

def Flags.ofOptions (o : Option Options) : Flags := o.elim (.stop .misuse) .set

/-- Letters after one dash. The version can only be asked for before the command. -/
def shortFlags (hasCommand : Bool) (o : Options) : List Char → Flags
  | [] => .set o
  | 'v' :: cs =>
      match o.setVerbose? with
      | some o => shortFlags hasCommand o cs
      | none => .stop .misuse
  | ['C'] => .wantsDirectory o
  | 'C' :: '=' :: cs => .ofOptions (o.setDirectory? (String.ofList cs))
  | 'C' :: cs => .ofOptions (o.setDirectory? (String.ofList cs))
  | 'h' :: _ => .stop .help
  | 'V' :: _ => .stop (if hasCommand then .misuse else .version)
  | _ => .stop .misuse

/-- A name after two dashes, perhaps with a value after an equals sign. -/
def longFlag (hasCommand : Bool) (o : Options) (cs : List Char) : Flags :=
  let name := String.ofList (cs.takeWhile (· != '='))
  match name, cs.dropWhile (· != '=') with
  | "project-dir", [] => .wantsDirectory o
  | "project-dir", _ :: value => .ofOptions (o.setDirectory? (String.ofList value))
  | "verbose", [] => .ofOptions o.setVerbose?
  | "help", [] => .stop .help
  | "version", [] => .stop (if hasCommand then .misuse else .version)
  | _, _ => .stop .misuse

/-- An argument that cannot be the value of an option. -/
def startsWithDash (arg : String) : Bool := arg.toList.head? == some '-' && arg != "-"

/-- How far the arguments have been read. -/
structure Progress where
  before : Options := {}
  command : Option Command := none
  after : Options := {}

namespace Progress

/-- The options of the place that reading has reached. -/
def current (p : Progress) : Options := if p.command.isSome then p.after else p.before

def setCurrent (p : Progress) (o : Options) : Progress :=
  if p.command.isSome then { p with after := o } else { p with before := o }

def flags (p : Progress) (arg : List Char) : Flags :=
  match arg with
  | '-' :: '-' :: name => longFlag p.command.isSome p.current name
  | '-' :: letters => shortFlags p.command.isSome p.current letters
  | _ => .stop .misuse

/-- The request once all arguments are read. The environment stands in wherever the directory is
not given, before the command or after it, and it must not be empty then. -/
def conclude (p : Progress) (environment : Option String) : Request :=
  let isGiven := p.before.directory.isSome && p.after.directory.isSome
  match p.command with
  | some c =>
      if !isGiven && environment == some "" then .misuse
      else .run c (p.after.directory.or (p.before.directory.or environment))
  | none => .misuse

/-- What `help` comes to with the arguments after it: at most one, which names a command. -/
def helpRequest : List String → Request
  | [] | ["help"] => .help
  | [name] => if (Command.ofName? name).isSome then .help else .misuse
  | _ => .misuse

/-- The request that the remaining arguments lead to. -/
def request (p : Progress) (environment : Option String) : List String → Request
  | [] => p.conclude environment
  | arg :: rest =>
      if arg = "--" then if rest = [] then p.conclude environment else .misuse
      else if startsWithDash arg then
        match p.flags arg.toList with
        | .set o => (p.setCurrent o).request environment rest
        | .stop r => r
        | .wantsDirectory o =>
            match rest with
            | [] => .misuse
            | value :: rest =>
                match if startsWithDash value then none else o.setDirectory? value with
                | some o => (p.setCurrent o).request environment rest
                | none => .misuse
      else
        match p.command, Command.ofName? arg with
        | none, some c => { p with command := some c }.request environment rest
        | none, none => if arg = "help" then helpRequest rest else .misuse
        | some _, _ => .misuse

end Progress

/-! ## Running -/

/-- What a run leaves behind. -/
structure Outcome where
  exitCode : UInt32
  output : String := ""
  messages : String := ""
  tree : FileTree

def version : String := "slsdep 0.1.0\n"

def usage : String :=
  "Usage: slsdep [-C DIR] [-v] <lock|check|manifest>\n\n"
    ++ "  lock      Resolve dependencies and write product-dependencies.lock\n"
    ++ "  check     Fail if product-dependencies.lock is out of date\n"
    ++ "  manifest  Print the resolved product dependencies as manifest JSON\n"

/-- The directory of the project: the given one, or the nearest upwards with a configuration. -/
def projectRoot (t : FileTree) (here : Location) (directory : Option String) :
    Except Failure String :=
  match directory with
  | some d => .ok d
  | none =>
      match t.findAncestorWith? here here.path ProjectConfig.fileName with
      | some d => .ok d
      | none => .error (.config ("Could not find " ++ ProjectConfig.fileName ++ " in " ++ here.path
          ++ " or any parent directory"))

/-- The paths where a configuration may be read. -/
def configPaths (here : Location) (directory : Option String) : List String :=
  match directory with
  | some d => [Path.join d ProjectConfig.fileName]
  | none => (Path.ancestors here.path).map (Path.join · ProjectConfig.fileName)

/-- The paths of the other files a run reads, once the configuration can be seen in the tree. -/
def projectPaths (t : FileTree) (here : Location) (directory : Option String) : List String :=
  match projectRoot t here directory with
  | .error _ => []
  | .ok root =>
      Path.join root Project.lockName ::
        match Project.readConfig t here (Path.join root ProjectConfig.fileName) with
        | .ok config => config.descriptorPaths root
        | .error _ => []

/-- The report of a resolution, if it has anything to say. -/
def suggestions (p : Project) : String :=
  if p.resolution.report.isEmpty then "" else p.resolution.report.text

def failed (t : FileTree) (said : String) (f : Failure) : Outcome :=
  let help := match f.help? with
    | some h => "  help: " ++ h ++ "\n"
    | none => ""
  { exitCode := 1, messages := said ++ "Error: " ++ f.message ++ "\n" ++ help, tree := t }

def runLock (p : Project) (t : FileTree) (here : Location) : Outcome :=
  let done := p.lock t here
  match done.result with
  | .error f => failed done.tree (suggestions p) f
  | .ok locked =>
      let n := toString locked.dependencies
      let said := if locked.written then "Locked " ++ n ++ " product dependencies\n"
        else "Lock file is up to date (" ++ n ++ " product dependencies)\n"
      { exitCode := 0, messages := suggestions p ++ said, tree := done.tree }

def runCheck (p : Project) (t : FileTree) (here : Location) : Outcome :=
  match p.check t here with
  | .error f => failed t (suggestions p) f
  | .ok _ => { exitCode := 0, messages := suggestions p ++ "Lock file is up to date\n", tree := t }

def runManifest (p : Project) (t : FileTree) : Outcome :=
  { exitCode := 0, output := p.manifest ++ "\n", messages := suggestions p, tree := t }

def runCommand (c : Command) (t : FileTree) (here : Location) (root : String) : Outcome :=
  match Project.resolve t here root with
  | .error f => failed t "" f
  | .ok p =>
      match c with
      | .lock => runLock p t here
      | .check => runCheck p t here
      | .manifest => runManifest p t

def run (t : FileTree) (here : Location) (environment : Option String) (args : List String) :
    Outcome :=
  match Progress.request {} environment args with
  | .misuse => { exitCode := 2, messages := usage, tree := t }
  | .help => { exitCode := 0, output := usage, tree := t }
  | .version => { exitCode := 0, output := version, tree := t }
  | .run c directory =>
      match projectRoot t here directory with
      | .ok root => runCommand c t here root
      | .error f => failed t "" f

end ProductLock.CommandLine
