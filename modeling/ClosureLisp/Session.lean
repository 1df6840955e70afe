import ClosureLisp.Compiler.Batch
import ClosureLisp.Evaluator.Eval
import ClosureLisp.Machine.Run

/-!
# Sessions

A session evaluates one input after the other against what the earlier ones defined. With
the machine, an input that does not compile or does not run to its end leaves neither code
nor globals behind, so that the compiler's table and the machine's globals stay aligned.
-/

namespace ClosureLisp

/-- Why an input has no value. -/
inductive SessionError where
  | source (error : SourceError)
  | run (error : RunError)
  | eval (error : EvalError)
  | overrun
  | unfinished
  deriving DecidableEq, Repr

/-- The wording of a session error. -/
def SessionError.message : SessionError → Bytes
  | .source error => error.message
  | .run error => error.message
  | .eval error => error.message
  | .overrun => utf8 "stack access out of range"
  | .unfinished => utf8 "run did not finish"

/-- The outcome of a run as that of an input. -/
def Halt.outcome : Halt → Except SessionError Value
  | .value result => .ok result
  | .error cause => .error (.run cause)
  | .overrun => .error .overrun
  | .outOfFuel => .error .unfinished

/-- A session with the machine: the compiler, the machine, and the code of the last input that
ran. -/
structure CompiledSession where
  compiler : Compiler
  machine : Machine
  code : Code

namespace CompiledSession

/-- A session before its first input. -/
def new (options : MachineOptions) : CompiledSession :=
  ⟨Compiler.new, Machine.new options, #[]⟩

/-- A session after a run has failed: the compiler is set back to a mark, and the machine
forgets the globals behind it. -/
def undo (session : CompiledSession) (mark : Compiler.Mark) (compiler : Compiler)
    (machine : Machine) : CompiledSession :=
  { session with
    compiler := (compiler.reset mark).2
    machine := machine.truncateGlobals mark.globals }

/-- Evaluates an input. -/
def eval (fuel : Nat) (session : CompiledSession) (input : Bytes) :
    Except SessionError Value × CompiledSession :=
  let mark := session.compiler.mark
  match session.compiler.compileText input with
  | (.error error, compiler) => (.error (.source error), { session with compiler := compiler })
  | (.ok program, compiler) =>
      let (halt, machine) := session.machine.runFrom fuel program.code program.start
      match halt.outcome with
      | .ok value => (.ok value, ⟨compiler, machine, program.code⟩)
      | .error error => (.error error, session.undo mark compiler machine)

end CompiledSession

/-- A session with the machine or with the evaluator. -/
inductive Session where
  | compiled (session : CompiledSession)
  | interpreted (evaluator : Evaluator)

namespace Session

/-- Evaluates an input. -/
def eval (fuel : Nat) (input : Bytes) : Session → Except SessionError Value × Session
  | .compiled session =>
      let (outcome, session) := session.eval fuel input
      (outcome, .compiled session)
  | .interpreted evaluator =>
      match Evaluator.evalText input evaluator with
      | .ok value evaluator => (.ok value, .interpreted evaluator)
      | .error error evaluator => (.error (.eval error), .interpreted evaluator)

/-- What the latest inputs printed and what they reported, and the session without it. -/
def takeOutput : Session → (Bytes × Bytes) × Session
  | .compiled session =>
      let (printed, machine) := session.machine.takeOutput
      ((printed, []), .compiled { session with machine := machine })
  | .interpreted evaluator =>
      ((evaluator.outputText, evaluator.diagnosticText), .interpreted evaluator.clearOutput)

end Session

end ClosureLisp
