import ClosureLisp.BundleStore
import ClosureLisp.CommandLine.Settings

/-!
# Sources of a command

Which files a command works on, their contents as one source, and the compilation of a
source with the help of a store in a file. A store only saves work: whatever is wrong
with its file, the source is compiled as if there were none.
-/

namespace ClosureLisp.Command

/-- Why a command has nothing to work on. -/
inductive InputFault where
  | noInput
  | noSources (directories : List Path)
  | malformedPattern
  | file (fault : FileFault)
  | bundle (fault : Bundle.LoadFault)
  deriving DecidableEq, Repr

/-- The wording of a fault of a bundle file. -/
def loadFaultText : Bundle.LoadFault → Bytes
  | .unreadable => utf8 "dist: unmarshal bundle"
  | .rejected fault => fault.message

/-- The wording of an input fault. -/
def InputFault.message : InputFault → Bytes
  | .noInput => utf8 "no input files and no lamb.toml found"
  | .noSources directories => utf8 "no *.lamb files in " ++ Bytes.bracketed directories
  | .malformedPattern => Project.malformedPattern
  | .file fault => fault.message
  | .bundle fault => loadFaultText fault

/-- The sources of a program, each on lines of its own, so that a comment at the end of one
cannot reach into the next. -/
def concatenate (contents : List Bytes) : Bytes :=
  contents.flatMap (· ++ utf8 "\n")

variable {m : Type → Type} [Monad m] (files : Files m)

/-- The files to compile: those given, or the sources of the project. -/
def sourceFiles (settings : Settings) (given : List Path) : m (Except InputFault (List Path)) := do
  if !given.isEmpty then pure (.ok given)
  else
    match settings.project with
    | none => pure (.error .noInput)
    | some project =>
        match ← project.sourceFiles? files with
        | none => pure (.error .malformedPattern)
        | some [] => pure (.error (.noSources project.sourceDirs))
        | some found => pure (.ok found)

/-- The contents of files, up to the first that cannot be read. -/
def readAll : List Path → m (Except InputFault (List Bytes))
  | [] => pure (.ok [])
  | path :: rest => do
      match ← files.read path with
      | .error fault => pure (.error (.file fault))
      | .ok content =>
          match ← readAll rest with
          | .error fault => pure (.error fault)
          | .ok contents => pure (.ok (content :: contents))

/-- The files to compile and their contents as one source. -/
def readSources (settings : Settings) (given : List Path) :
    m (Except InputFault (List Path × Bytes)) := do
  match ← sourceFiles files settings given with
  | .error fault => pure (.error fault)
  | .ok paths =>
      match ← readAll files paths with
      | .error fault => pure (.error fault)
      | .ok contents => pure (.ok (paths, concatenate contents))

/-- The bundle in a file. -/
def readBundle (path : Path) : m (Except InputFault Bundle) := do
  match ← files.read path with
  | .error fault => pure (.error (.file fault))
  | .ok content =>
      match Bundle.decode content with
      | .error fault => pure (.error (.bundle fault))
      | .ok bundle => pure (.ok bundle)

/-- Opens the store in a file, making its directory first. A file that holds something else
is left alone. -/
def openStore (path : Path) : m (Option BundleStore) := do
  match ← files.makeDirectories (Path.directory path) with
  | .error _ => pure none
  | .ok () =>
      match ← files.kind? path with
      | none => pure (some BundleStore.empty)
      | some _ =>
          match ← files.read path with
          | .error _ => pure none
          | .ok content => pure (BundleStore.ofFile? content)

/-- Compiles a source, with the store of the settings if there is one. A store that cannot be
opened or saved does no harm. -/
def compile (settings : Settings) (source : Bytes) : m (Except SourceError Bundle) := do
  match Reader.parse source, settings.cache with
  | .error error, _ => pure (.error error)
  | .ok exprs, none => pure (Bundle.ofExprs source exprs)
  | .ok exprs, some path =>
      match ← openStore files path with
      | none => pure (Bundle.ofExprs source exprs)
      | some store =>
          let (result, store) := store.compileExprs source exprs
          let _ ← files.write path store.toFile
          pure result

end ClosureLisp.Command
