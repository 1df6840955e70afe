import ClosureLisp.Host.Path
import ClosureLisp.Machine.Basic

/-!
# Projects

What a project file configures: the sources, the machine, the output and the log, together
with the directory that the file lies in. Relative paths are meant from that directory.
-/

namespace ClosureLisp

/-- The configuration of a project. -/
structure Project where
  name : Bytes
  version : Bytes
  sourceDirs : List Path
  sources : List Path
  gcThreshold : Int
  stackLimit : Int
  trace : Bool
  output : Path
  cache : Path
  verbosity : Int
  logFile : Path
  directory : Path
  deriving DecidableEq, Repr

/-- Why a configuration makes no sense. -/
inductive ProjectFault where
  | negativeThreshold (value : Int)
  | negativeStackLimit (value : Int)
  | negativeVerbosity (value : Int)
  deriving DecidableEq, Repr

/-- The wording of a project fault. -/
def ProjectFault.message : ProjectFault → Bytes
  | .negativeThreshold value =>
      utf8 "vm.gc-threshold must be positive, got " ++ Bytes.decimal value
  | .negativeStackLimit value =>
      utf8 "vm.stack-limit must be positive, got " ++ Bytes.decimal value
  | .negativeVerbosity value =>
      utf8 "log.verbosity must not be negative, got " ++ Bytes.decimal value

namespace Project

/-- The name of the project file. -/
def fileName : Name := utf8 "lamb.toml"

/-- How the names of source files end. -/
def sourceExtension : Bytes := utf8 ".lamb"

/-- How the names of bundles end. -/
def bundleExtension : Bytes := utf8 ".lambc"

/-- The configuration of an empty project file, before the defaults. -/
def blank : Project where
  name := []
  version := []
  sourceDirs := []
  sources := []
  gcThreshold := 0
  stackLimit := 0
  trace := false
  output := []
  cache := []
  verbosity := 0
  logFile := []
  directory := []

/-- The name of the output, unless it is configured: that of the project or its directory. -/
def defaultOutput (project : Project) : Path :=
  (if project.name.isEmpty then Path.base project.directory else project.name) ++ bundleExtension

/-- Fills in what is not configured. -/
def withDefaults (project : Project) : Project :=
  { project with
    sourceDirs := if project.sourceDirs.isEmpty then [utf8 "src"] else project.sourceDirs
    gcThreshold := if project.gcThreshold = 0 then Heap.defaultThreshold else project.gcThreshold
    stackLimit :=
      if project.stackLimit = 0 then Machine.defaultStackLimit else project.stackLimit
    output := if project.output.isEmpty then project.defaultOutput else project.output }

/-- Refuses numbers below zero. -/
def validate (project : Project) : Except ProjectFault Project :=
  if project.gcThreshold < 0 then .error (.negativeThreshold project.gcThreshold)
  else if project.stackLimit < 0 then .error (.negativeStackLimit project.stackLimit)
  else if project.verbosity < 0 then .error (.negativeVerbosity project.verbosity)
  else .ok project

/-- A configured path, seen from the root if the project's directory is. -/
def resolve (project : Project) (path : Path) : Path :=
  if Path.isAbsolute path then path else Path.join project.directory path

/-- The directories in which the sources lie. -/
def sourceDirPaths (project : Project) : List Path :=
  project.sourceDirs.map (Path.join project.directory)

/-- Where the bundle goes. -/
def outputPath (project : Project) : Path :=
  project.resolve project.output

/-- Where compiled programs are kept, if they are. -/
def cachePath? (project : Project) : Option Path :=
  if project.cache.isEmpty then none else some (project.resolve project.cache)

/-- Where the log goes, unless it goes to the terminal. -/
def logPath? (project : Project) : Option Path :=
  if project.logFile.isEmpty then none else some (project.resolve project.logFile)

/-- The settings of the project's machine. -/
def machineOptions (project : Project) : MachineOptions where
  gcThreshold := project.gcThreshold
  stackLimit := project.stackLimit
  trace := project.trace

end Project

end ClosureLisp
