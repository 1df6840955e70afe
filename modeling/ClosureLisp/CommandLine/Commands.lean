import ClosureLisp.CommandLine.Report
import ClosureLisp.CommandLine.Sources
import ClosureLisp.CommandLine.Usage
import ClosureLisp.Lint
import ClosureLisp.Session

/-!
# Commands

What each command of the program does, over any provider of file operations. A command
ends in a report, except that the interactive one hands a session to its caller.
-/

namespace ClosureLisp

namespace Command

/-- More steps than any run takes. -/
def stepLimit : Nat := 4611686018427387904

/-- The report of a run of a bundle, if the policy admits it. -/
def runBundle (settings : Settings) (bundle : Bundle) : Report :=
  match bundle.admittedBy settings.policy with
  | .error fault => .failure fault.message
  | .ok () =>
      let (halt, machine) := (Machine.new settings.machine).runFrom stepLimit bundle.code 0
      let printed := machine.takeOutput.1
      match halt.outcome with
      | .error error => ⟨1, printed, Report.errorLine error.message⟩
      | .ok value => .success (printed ++ Report.valueLine value)

/-- The report of an evaluation without a machine. Failed assertions are only counted, and then
decide about the status. -/
def interpret (source : Bytes) : Report :=
  match Evaluator.evalText source (Evaluator.new 0) with
  | .error error evaluator =>
      ⟨1, evaluator.outputText, evaluator.diagnosticText ++ Report.errorLine error.message⟩
  | .ok value evaluator =>
      ⟨if evaluator.failures = 0 then 0 else 1, evaluator.outputText ++ Report.valueLine value,
        evaluator.diagnosticText⟩

/-- The report of a check: warnings do not make it fail. -/
def checkSource (source : Bytes) : Report :=
  match Reader.parse source with
  | .error error => .failure error.message
  | .ok exprs =>
      let warnings := Lint.ofExprs exprs
      let lines := warnings.flatMap fun warning => warning.text ++ utf8 "\n"
      match Program.ofExprs exprs with
      | .error error => ⟨1, [], lines ++ Report.errorLine error.message⟩
      | .ok _ =>
          ⟨0, utf8 "ok: " ++ Bytes.decimalNat exprs.length ++ utf8 " expressions, " ++
            Bytes.decimalNat warnings.length ++ utf8 " warnings\n", lines⟩

variable {m : Type → Type} [Monad m] (files : Files m)

/-- Evaluates a source. -/
def runSource (settings : Settings) (source : Bytes) : m Report := do
  if settings.interpreted then pure (interpret source)
  else
    match ← compile files settings source with
    | .error error => pure (.failure error.message)
    | .ok bundle => pure (runBundle settings bundle)

/-- The command that runs files. -/
def run (settings : Settings) (arguments : List Bytes) : m Report := do
  match ← readSources files settings arguments with
  | .error fault => pure (.failure fault.message)
  | .ok (_, source) => runSource files settings source

/-- The command that checks files. -/
def check (settings : Settings) (arguments : List Bytes) : m Report := do
  match ← readSources files settings arguments with
  | .error fault => pure (.failure fault.message)
  | .ok (_, source) => pure (checkSource source)

/-- The command that evaluates its arguments. -/
def eval (settings : Settings) (arguments : List Bytes) : m Report :=
  if arguments.isEmpty then pure (.misuse "eval requires source text")
  else runSource files settings (Bytes.join (utf8 " ") arguments)

/-- Where a bundle goes, unless it is said: where the project wants it, or beside the first
file. -/
def outputPath (settings : Settings) (paths : List Path) : Path :=
  match settings.project with
  | some project => project.outputPath
  | none =>
      let first := paths.headD []
      (if Bytes.endsWith first Project.sourceExtension then
          first.take (first.length - Project.sourceExtension.length)
        else first) ++ Project.bundleExtension

/-- Writes a bundle, making its directory first. -/
def writeBundle (path : Path) (bundle : Bundle) : m Report := do
  match ← files.makeDirectories (Path.directory path) with
  | .error fault => pure (.failure fault.message)
  | .ok () =>
      match ← files.write path bundle.encode with
      | .error fault => pure (.failure fault.message)
      | .ok () => pure (.success [])

/-- The command that builds a bundle. -/
def build (settings : Settings) (arguments : List Bytes) : m Report := do
  match Flag.parse Usage.buildFlags arguments with
  | .error fault => pure ⟨2, [], Usage.explain fault Usage.build⟩
  | .ok (given, arguments) =>
      match ← readSources files settings arguments with
      | .error fault => pure (.failure fault.message)
      | .ok (paths, source) =>
          match ← compile files settings source with
          | .error error => pure (.failure error.message)
          | .ok bundle =>
              let named := Flag.text "o" given
              let output := if named.isEmpty then outputPath settings paths else named
              writeBundle files output bundle

/-- The command that runs a bundle. -/
def exec (settings : Settings) (arguments : List Bytes) : m Report := do
  match arguments with
  | [path] =>
      match ← readBundle files path with
      | .error fault => pure (.failure fault.message)
      | .ok bundle => pure (runBundle settings bundle)
  | _ => pure (.misuse "exec requires exactly one bundle path")

/-- The listing of a source file. -/
def listSource (path : Path) : m Report := do
  match ← files.read path with
  | .error fault => pure (.failure fault.message)
  | .ok content =>
      match Program.ofText content with
      | .error error => pure (.failure error.message)
      | .ok program => pure (.success program.listing)

/-- The listing of a bundle. -/
def listBundle (path : Path) : m Report := do
  match ← readBundle files path with
  | .error fault => pure (.failure fault.message)
  | .ok bundle =>
      match bundle.listing with
      | (_, some error) => pure (.failure error.message)
      | (lines, none) => pure (.success lines)

/-- The command that lists the code of a source file or a bundle. -/
def disasm (arguments : List Bytes) : m Report :=
  match arguments with
  | [path] =>
      if Bytes.endsWith path Project.sourceExtension then listSource files path
      else listBundle files path
  | _ => pure (.misuse "disasm requires exactly one file")

/-- What a call of the program comes to. -/
inductive Outcome where
  | finished (report : Report)
  | interactive (session : Session)

/-- A new session for a terminal. -/
def session (settings : Settings) : Session :=
  if settings.interpreted then .interpreted (Evaluator.new 0)
  else .compiled (CompiledSession.new settings.machine)

/-- Carries out a command. -/
def dispatch (settings : Settings) (name : Bytes) (arguments : List Bytes) : m Outcome :=
  if name = utf8 "run" then .finished <$> run files settings arguments
  else if name = utf8 "check" then .finished <$> check files settings arguments
  else if name = utf8 "eval" then .finished <$> eval files settings arguments
  else if name = utf8 "build" then .finished <$> build files settings arguments
  else if name = utf8 "exec" then .finished <$> exec files settings arguments
  else if name = utf8 "disasm" then .finished <$> disasm files arguments
  else if name = utf8 "repl" then pure (.interactive (session settings))
  else
    pure (.finished ⟨2, [], utf8 "Unknown command: " ++ name ++ utf8 "\n\n" ++ Usage.program⟩)

/-- Makes sure that there is a file for the log. -/
def openLog : Option Path → m (Except FileFault Unit)
  | none => pure (.ok ())
  | some path => do
      match ← files.kind? path with
      | some .file => pure (.ok ())
      | _ => files.write path []

/-- Carries out a call of the program with the given settings. Without a command it runs the
project, or else starts a session. -/
def start (settings : Settings) : List Bytes → m Outcome
  | name :: arguments => dispatch files settings name arguments
  | [] =>
      match settings.project with
      | some _ => .finished <$> run files settings []
      | none => pure (.interactive (session settings))

/-- The project that a call of the program works in. -/
def projectFor (here : Path) (given : List (Bytes × FlagValue)) :
    m (Except LoadError (Option Project)) :=
  if Flag.switch "no-manifest" given then pure (.ok none)
  else Project.find files here Path.current

/-- Carries out a call of the program in a directory. -/
def invoke (here : Path) (arguments : List Bytes) : m Outcome := do
  match Flag.parse Usage.flags arguments with
  | .error fault =>
      pure (.finished ⟨if fault = .help then 0 else 2, [], Usage.explain fault Usage.program⟩)
  | .ok (given, arguments) =>
      match ← projectFor files here given with
      | .error error =>
          let line := utf8 "Error loading manifest: " ++ error.message ++ utf8 "\n"
          pure (.finished ⟨1, [], line⟩)
      | .ok project =>
          let settings := Settings.ofFlags project given
          match ← openLog files settings.log with
          | .error fault =>
              pure (.finished ⟨1, [], utf8 "log file error: " ++ fault.message ++ utf8 "\n"⟩)
          | .ok () => start files settings arguments

end Command

end ClosureLisp
