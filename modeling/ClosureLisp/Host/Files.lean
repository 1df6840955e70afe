import ClosureLisp.Host.Pattern

/-!
# Files

What the command line needs from a file system, as a record of operations that any monad
can provide, and what follows from it: making a directory with its parents, and finding
the paths that fit a pattern.
-/

namespace ClosureLisp

/-- What a path can lead to. -/
inductive FileKind where
  | file
  | directory
  deriving DecidableEq, Repr

/-- What was being done when an operation on files failed. -/
inductive FileAction where
  | opening
  | reading
  | making
  deriving DecidableEq, Repr

/-- Why an operation on files failed. -/
inductive FileCause where
  | missing
  | isDirectory
  | notDirectory
  | other (text : Bytes)
  deriving DecidableEq, Repr

/-- A failed operation on files. -/
structure FileFault where
  action : FileAction
  path : Path
  cause : FileCause
  deriving DecidableEq, Repr

namespace FileFault

/-- The name of an action. -/
def actionName : FileAction → Bytes
  | .opening => utf8 "open"
  | .reading => utf8 "read"
  | .making => utf8 "mkdir"

/-- The wording of a cause. -/
def causeText : FileCause → Bytes
  | .missing => utf8 "no such file or directory"
  | .isDirectory => utf8 "is a directory"
  | .notDirectory => utf8 "not a directory"
  | .other text => text

/-- The full wording of a fault. -/
def message (fault : FileFault) : Bytes :=
  actionName fault.action ++ utf8 " " ++ fault.path ++ utf8 ": " ++ causeText fault.cause

end FileFault

/-- The operations on files. -/
structure Files (m : Type → Type) where
  kind? : Path → m (Option FileKind)
  names : Path → m (List Name)
  read : Path → m (Except FileFault Bytes)
  makeDirectory : Path → m (Except FileFault Unit)
  write : Path → Bytes → m (Except FileFault Unit)

namespace Files

variable {m : Type → Type} [Monad m] (files : Files m)

/-- Makes a directory whose path and its leading parts, longest first, are given. -/
def makeAll : List Path → m (Except FileFault Unit)
  | [] => pure (.ok ())
  | path :: parents => do
      match ← files.kind? path with
      | some .directory => pure (.ok ())
      | some .file => pure (.error ⟨.making, path, .notDirectory⟩)
      | none =>
          match ← makeAll parents with
          | .error fault => pure (.error fault)
          | .ok () => files.makeDirectory path

/-- Makes a directory and, where they are missing, its parents. -/
def makeDirectories (path : Path) : m (Except FileFault Unit) :=
  files.makeAll (Path.leadingParts path)

/-- The paths directly below a directory whose names fit a pattern, in order. What is no
directory has none. -/
def fitting (pattern : Pattern) (directory : Path) : m (List Path) := do
  match ← files.kind? directory with
  | some .directory =>
      let names ← files.names directory
      pure (((names.mergeSort Bytes.lexLE).filter pattern.fits).map (Path.join directory))
  | _ => pure []

/-- The paths below directories whose further components fit patterns. -/
def expand : List Pattern → List Path → m (List Path)
  | [], paths => pure paths
  | pattern :: patterns, paths => do
      let found ← paths.mapM (files.fitting pattern)
      expand patterns found.flatten

/-- The paths that fit a path with patterns in it, if the patterns are well-formed. -/
def find? (path : Path) : m (Option (List Path)) := do
  let components := Path.components path
  let fixed := components.takeWhile fun name => !Pattern.hasMeta name
  match (components.drop fixed.length).mapM Pattern.parse? with
  | none => pure none
  | some [] =>
      match ← files.kind? path with
      | none => pure (some [])
      | some _ => pure (some [path])
  | some patterns =>
      let start :=
        if fixed = [[]] then [Path.slash]
        else if fixed.isEmpty then Path.current
        else Path.ofComponents fixed
      some <$> files.expand patterns [start]

end Files

end ClosureLisp
