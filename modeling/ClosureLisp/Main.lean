import ClosureLisp.CommandLine.Commands
import ClosureLisp.CommandLine.Repl

/-!
# The program

The outermost layer: the file operations of the operating system, the two streams, and the
loop of an interactive session. All decisions are made by `Command.invoke` and `Repl.step`.
-/

namespace ClosureLisp

namespace Terminal

/-- The name of a path for the operating system. The empty path leads nowhere. -/
def hostName? (path : Path) : Option String :=
  if path.isEmpty then none else String.fromUTF8? ⟨path.toArray⟩

/-- The cause of a failure that the operating system reports. -/
def causeOf : IO.Error → FileCause
  | .noFileOrDirectory _ _ _ => .missing
  | .inappropriateType _ _ _ => .notDirectory
  | error => .other (utf8 (toString error))

/-- Carries out an operation on a path and turns a failure into a fault. -/
def attempt {α : Type} (action : FileAction) (path : Path) (operation : String → IO α) :
    IO (Except FileFault α) :=
  match hostName? path with
  | none => pure (.error ⟨action, path, .missing⟩)
  | some name =>
      try
        return .ok (← operation name)
      catch error =>
        return .error ⟨action, path, causeOf error⟩

/-- The kind of what a path leads to. -/
def kind? (path : Path) : IO (Option FileKind) := do
  match hostName? path with
  | none => return none
  | some name =>
      let place := (← IO.currentDir) / name
      if ← place.isDir then return some .directory
      else if ← place.pathExists then return some .file
      else return none

/-- The names directly below a path. -/
def names (path : Path) : IO (List Name) := do
  let listed ← attempt .reading path fun name => do
    return (← ((← IO.currentDir) / name).readDir).toList.map fun entry => utf8 entry.fileName
  match listed with
  | .ok found => return found
  | .error _ => return []

/-- The content of a file. -/
def read (path : Path) : IO (Except FileFault Bytes) := do
  match ← kind? path with
  | some .directory => return .error ⟨.reading, path, .isDirectory⟩
  | _ => attempt .opening path fun name => return (← IO.FS.readBinFile name).data.toList

/-- Makes a directory inside an existing one. -/
def makeDirectory (path : Path) : IO (Except FileFault Unit) :=
  attempt .making path fun name => IO.FS.createDir name

/-- Writes a file. -/
def write (path : Path) (content : Bytes) : IO (Except FileFault Unit) := do
  match ← kind? path with
  | some .directory => return .error ⟨.opening, path, .isDirectory⟩
  | _ => attempt .opening path fun name => IO.FS.writeBinFile name ⟨content.toArray⟩

/-- The file operations of the operating system. -/
def files : Files IO where
  kind? := kind?
  names := names
  read := read
  makeDirectory := makeDirectory
  write := write

/-- Writes bytes to a stream at once. -/
def put (stream : IO.FS.Stream) (bytes : Bytes) : IO Unit := do
  stream.write ⟨bytes.toArray⟩
  stream.flush

/-- The next line of a stream without its end, or nothing at the end of the stream. -/
partial def nextLine (stream : IO.FS.Stream) (line : Array UInt8) : IO (Option Bytes) := do
  let bytes ← stream.read 1
  match bytes.data[0]? with
  | none => return if line.isEmpty then none else some line.toList
  | some byte => if byte = 10 then return some line.toList else nextLine stream (line.push byte)

/-- Takes a line. A collection is measured first, so that its duration can be shown. -/
def stepTimed (repl : Repl) (line : Bytes) : IO ReplStep := do
  let started ← IO.monoNanosNow
  let taken ← IO.lazyPure fun _ => repl.step Command.stepLimit line
  let stopped ← IO.monoNanosNow
  if repl.pending.isEmpty && line == Repl.collectCommand then
    let repl := { repl with duration := Repl.durationText (stopped - started) }
    return repl.step Command.stepLimit line
  else return taken

/-- The loop of an interactive session. -/
partial def converse (input output errors : IO.FS.Stream) (repl : Repl) : IO Unit := do
  put output repl.prompt
  match ← nextLine input #[] with
  | none => put output Repl.farewell
  | some line =>
      if Repl.lineLimit ≤ line.length then put output Repl.farewell
      else
        let taken ← stepTimed repl (Repl.dropReturn line)
        put output taken.out
        put errors taken.err
        match taken.next with
        | none => put output Repl.farewell
        | some next => converse input output errors next

/-- Runs the program on its arguments and gives its exit status. -/
def run (arguments : List String) : IO UInt32 := do
  let here ← IO.currentDir
  let output ← IO.getStdout
  let errors ← IO.getStderr
  match ← Command.invoke files (utf8 here.toString) (arguments.map utf8) with
  | .finished report =>
      put output report.out
      put errors report.err
      return report.status
  | .interactive session =>
      put output Repl.banner
      converse (← IO.getStdin) output errors ⟨session, [], []⟩
      return 0

end Terminal

end ClosureLisp

/-- Runs the program. -/
def main (arguments : List String) : IO UInt32 :=
  ClosureLisp.Terminal.run arguments
