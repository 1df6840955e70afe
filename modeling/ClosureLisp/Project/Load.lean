import ClosureLisp.Host.Files
import ClosureLisp.Project.Decode

/-!
# Loading projects

Reading the project file of a directory, looking for one in a directory and those above
it, and finding the source files of a project.
-/

namespace ClosureLisp

/-- Why a project cannot be loaded. -/
inductive LoadError where
  | unreadable (path : Path) (fault : FileFault)
  | malformed (path : Path)
  | invalid (path : Path) (fault : ProjectFault)
  deriving DecidableEq, Repr

/-- The wording of a load error. -/
def LoadError.message : LoadError → Bytes
  | .unreadable path fault => utf8 "cannot read " ++ path ++ utf8 ": " ++ fault.message
  | .malformed path => utf8 "parse error in " ++ path
  | .invalid path fault => path ++ utf8 ": " ++ fault.message

namespace Project

/-- The project that the content of a project file configures. -/
def ofFile (path directory : Path) (content : Bytes) : Except LoadError Project :=
  match ofText? content with
  | none => .error (.malformed path)
  | some project =>
      match ({ project with directory := directory }).withDefaults.validate with
      | .error fault => .error (.invalid path fault)
      | .ok project => .ok project

variable {m : Type → Type} [Monad m] (files : Files m)

/-- Loads the project file of a directory, as seen from the current one. -/
def load (here directory : Path) : m (Except LoadError Project) := do
  let path := Path.join directory fileName
  match ← files.read path with
  | .error fault => pure (.error (.unreadable path fault))
  | .ok content => pure (ofFile path (Path.absolute here directory) content)

/-- Loads the first project file among directories. -/
def loadFirst (here : Path) : List Path → m (Except LoadError (Option Project))
  | [] => pure (.ok none)
  | directory :: rest => do
      match ← files.kind? (Path.join directory fileName) with
      | none => loadFirst here rest
      | some _ =>
          match ← load files here directory with
          | .error error => pure (.error error)
          | .ok project => pure (.ok (some project))

/-- Loads the project file of a directory or of the nearest one above it that has one. -/
def find (here start : Path) : m (Except LoadError (Option Project)) :=
  loadFirst files here (Path.ancestors (Path.absolute here start))

/-- The source files in directories, in the order of the directories. There are none if a name
is a malformed pattern. -/
def filesIn? : List Path → m (Option (List Path))
  | [] => pure (some [])
  | directory :: rest => do
      match ← files.find? (Path.join directory (utf8 "*" ++ sourceExtension)) with
      | none => pure none
      | some found =>
          match ← filesIn? rest with
          | none => pure none
          | some others => pure (some (found ++ others))

/-- The source files of a project: those it lists, or those in its source directories, sorted.
The names of directories are patterns; there are no files if one is malformed. -/
def sourceFiles? (project : Project) : m (Option (List Path)) := do
  if project.sources.isEmpty then
    match ← filesIn? files project.sourceDirPaths with
    | none => pure none
    | some found => pure (some (found.mergeSort Bytes.lexLE))
  else pure (some (project.sources.map (Path.join project.directory)))

/-- The wording for a malformed pattern. -/
def malformedPattern : Bytes :=
  utf8 "syntax error in pattern"

end Project

end ClosureLisp
