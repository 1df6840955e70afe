import ClosureLisp.Machine.Execute

/-!
# Running

One step collects the heap if it asks for it, decodes the instruction at the program
counter, traces it if tracing is on, and executes it. A run repeats steps up to the end of
the code, a fault, or the end of its fuel. An instruction stream may loop for ever, so a run
is given fuel; more fuel never changes an outcome other than `outOfFuel`.
-/

namespace ClosureLisp

/-- Why a run fails. -/
inductive RunError where
  | malformed (error : DecodeError)
  | fault (pc : Int) (opcode : Opcode) (cause : Fault)
  deriving DecidableEq, Repr

/-- The full wording of a run error. -/
def RunError.message : RunError → Bytes
  | .malformed error => error.message
  | .fault pc opcode cause =>
      utf8 "runtime error at pc " ++ Bytes.decimal pc ++ utf8 " (" ++ opcode.name ++ utf8 "): " ++
        cause.message

/-- How a run ends. -/
inductive Halt where
  | value (value : Value)
  | error (error : RunError)
  | overrun
  | outOfFuel
  deriving DecidableEq, Repr

/-- One step of a run: it goes on or it ends. -/
inductive Progress where
  | running (machine : Machine)
  | halted (halt : Halt) (machine : Machine)

namespace Machine

/-- Collects the heap if it asks for it. -/
def collectIfNeeded (machine : Machine) : Machine :=
  if machine.heap.needsCollection then machine.collect.2 else machine

/-- Notes the instruction about to be executed, if tracing is on. -/
def traceInstr (machine : Machine) (instr : Instr) : Machine :=
  if machine.trace then
    { machine with
      events :=
        .traced machine.pc instr machine.stack.size machine.activations.length :: machine.events }
  else machine

/-- The value of a run that has reached the end of its code: the top of the stack, or else the
last top-level result. -/
def finalValue (machine : Machine) : Value :=
  match machine.stack.back? with
  | some value => value
  | none => machine.result.getD .nil

/-- One step of a run. -/
def step (machine : Machine) : Progress :=
  if machine.pc < machine.code.size then
    let machine := machine.collectIfNeeded
    match machine.code.instrAt machine.pc with
    | .error error => .halted (.error (.malformed error)) machine
    | .ok (instr, size) =>
        let pc := machine.pc
        let machine := machine.traceInstr instr
        match { machine with pc := pc + size }.execute instr with
        | .next machine => .running machine
        | .fault cause machine => .halted (.error (.fault pc instr.opcode cause)) machine
        | .overrun machine => .halted .overrun machine
  else .halted (.value machine.finalValue) machine

/-- Runs a machine from where it stands. -/
def run : (fuel : Nat) → Machine → Halt × Machine
  | 0, machine => (.outOfFuel, machine)
  | fuel + 1, machine =>
      match machine.step with
      | .halted halt machine => (halt, machine)
      | .running machine => run fuel machine

/-- The machine at the start of a run. -/
def prepare (machine : Machine) (code : Code) (start : Nat) : Machine :=
  { machine with
    code := code
    pc := start
    stack := #[]
    activations := []
    result := some .nil }

/-- Runs code from an offset. -/
def runFrom (fuel : Nat) (machine : Machine) (code : Code) (start : Int) : Halt × Machine :=
  let machine := machine.prepare code start.toNat
  if start < 0 ∨ code.size < start then
    (.error (.fault start .push .startOutOfRange), machine)
  else run fuel machine

end Machine

end ClosureLisp
