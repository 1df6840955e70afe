import ClosureLisp.Machine.Basic

/-!
# Executing one instruction

The effect of each instruction on a machine whose program counter has already moved past
it. Besides going on and stopping with a fault there is a third outcome: a load of a local
slot inside its activation but above the top of the stack, which can only happen when the
body has popped its own locals.
-/

namespace ClosureLisp

/-- What an instruction does to a machine. -/
inductive Effect where
  | next (machine : Machine)
  | fault (cause : Fault) (machine : Machine)
  | overrun (machine : Machine)

namespace Effect

/-- Goes on with a further effect, unless the first one stopped. -/
def andThen (effect : Effect) (further : Machine → Effect) : Effect :=
  match effect with
  | .next machine => further machine
  | .fault cause machine => .fault cause machine
  | .overrun machine => .overrun machine

end Effect

namespace Machine

/-- Pushes a value, unless the stack is full. -/
def push (machine : Machine) (value : Value) : Effect :=
  if machine.stackLimit ≤ machine.stack.size then .fault (.stackLimit machine.stackLimit) machine
  else .next { machine with stack := machine.stack.push value }

/-- Pushes values one after the other, up to the first that does not fit. -/
def pushAll (machine : Machine) : List Value → Effect
  | [] => .next machine
  | value :: rest => (machine.push value).andThen fun machine => machine.pushAll rest

/-- Pops a value and goes on with it. -/
def pop (machine : Machine) (further : Value → Machine → Effect) : Effect :=
  match machine.stack.back? with
  | none => .fault .emptyStack machine
  | some value => further value { machine with stack := machine.stack.pop }

/-- Whether a target lies in the code or at its end. -/
def isTarget (machine : Machine) (target : Int32) : Bool :=
  0 ≤ target.toInt && target.toInt ≤ machine.code.size

/-- Checks a target and goes on. -/
def checkTarget (machine : Machine) (target : Int32) (further : Machine → Effect) : Effect :=
  if machine.isTarget target then further machine
  else .fault (.targetOutOfRange target machine.code.size) machine

/-- Goes on at a target. -/
def goTo (machine : Machine) (target : Int32) : Machine :=
  { machine with pc := target.toInt.toNat }

/-- Loads a local slot of the current activation. -/
def load (machine : Machine) (slot : Int32) : Effect :=
  match machine.activations with
  | [] => .fault (.localOutsideCall slot) machine
  | activation :: _ =>
      if slot.toInt < 0 ∨ activation.locals ≤ slot.toInt then
        .fault (.localOutOfRange slot activation.locals) machine
      else
        match machine.stack[activation.base + slot.toInt.toNat]? with
        | some value => machine.push value
        | none => .overrun machine

/-- Loads a global slot. -/
def loadGlobal (machine : Machine) (slot : Int32) : Effect :=
  if slot.toInt < 0 then .fault (.globalOutOfRange slot machine.globals.size) machine
  else
    match machine.globals[slot.toInt.toNat]? with
    | some value => machine.push value
    | none => .fault (.globalOutOfRange slot machine.globals.size) machine

/-- Pops a condition and jumps if it is true. -/
def branch (machine : Machine) (target : Int32) : Effect :=
  machine.checkTarget target fun machine =>
    machine.pop fun condition machine =>
      match condition with
      | .bool true => .next (machine.goTo target)
      | .bool false => .next machine
      | other => .fault (.conditionNotBool other.tag) machine

/-- Calls a primitive on the topmost values. -/
def callBuiltin (machine : Machine) (name : Name) (count : Nat) : Effect :=
  let base := machine.stack.size - count
  let arguments := (machine.stack.extract base machine.stack.size).toList
  let machine := { machine with stack := machine.stack.shrink base }
  match Primitive.applyNamed name arguments with
  | .error cause => .fault cause machine
  | .ok yielded =>
      match yielded.shown with
      | none => machine.push yielded.result
      | some value =>
          { machine with events := .displayed value :: machine.events }.push yielded.result

/-- Enters a closure whose arguments are the topmost values: pushes the closure itself and its
captures behind them and opens an activation. -/
def enter (machine : Machine) (handle : UInt32) (arity : Int) (count : Nat) : Effect :=
  match machine.heap.get handle with
  | .error cause => .fault cause machine
  | .ok closure =>
      if closure.arity.toNat ≠ count then
        .fault (.closureArity handle closure.arity.toNat count) machine
      else
        machine.checkTarget closure.entry.toInt32 fun machine =>
          let activation : Activation :=
            { returnTo := machine.pc
              base := machine.stack.size - count
              locals := count + 1 + closure.captures.length
              closure := handle }
          (machine.pushAll (.closure handle arity :: closure.captures)).andThen fun machine =>
            .next
              { machine with
                activations := activation :: machine.activations
                pc := closure.entry.toNat }

/-- Pops the callee and calls it on the given number of topmost values. -/
def call (machine : Machine) (count : Int32) : Effect :=
  machine.pop fun callee machine =>
    if count.toInt < 0 ∨ machine.stack.size < count.toInt then
      .fault (.missingArguments count.toInt machine.stack.size) machine
    else
      match callee with
      | .builtin name _ => machine.callBuiltin name count.toInt.toNat
      | .closure handle arity => machine.enter handle arity count.toInt.toNat
      | other => .fault (.notCallable other) machine

/-- Leaves the current activation with the topmost value as its result. -/
def leave (machine : Machine) : Effect :=
  match machine.activations with
  | [] => .fault .returnOutsideCall machine
  | activation :: outer =>
      machine.pop fun result machine =>
        if machine.stack.size < activation.base then
          .fault (.frameAboveStack activation.base machine.stack.size) machine
        else
          { machine with
            activations := outer
            stack := machine.stack.shrink activation.base
            pc := activation.returnTo }.push result

/-- Makes a closure of the topmost values. -/
def makeLambda (machine : Machine) (entry arity captures : Int32) : Effect :=
  if captures.toInt < 0 ∨ machine.stack.size < captures.toInt then
    .fault (.missingCaptures captures.toInt machine.stack.size) machine
  else if arity.toInt < 0 then .fault (.negativeArity arity) machine
  else
    machine.checkTarget entry fun machine =>
      let base := machine.stack.size - captures.toInt.toNat
      let values := (machine.stack.extract base machine.stack.size).toList
      let (handle, heap) := machine.heap.alloc ⟨arity.toUInt32, values, entry.toUInt32⟩
      { machine with stack := machine.stack.shrink base, heap := heap }.push
        (.closure handle arity.toInt)

/-- Executes one instruction. -/
def execute (machine : Machine) : Instr → Effect
  | .push constant => machine.push constant.value
  | .pop =>
      machine.pop fun value machine =>
        match machine.activations with
        | [] => .next { machine with result := some value }
        | _ :: _ => .next machine
  | .get slot => machine.load slot
  | .defGlobal =>
      machine.pop fun value machine =>
        .next { machine with globals := machine.globals.push value }
  | .getGlobal slot => machine.loadGlobal slot
  | .jump target => machine.checkTarget target fun machine => .next (machine.goTo target)
  | .jumpIf target => machine.branch target
  | .call count => machine.call count
  | .ret => machine.leave
  | .makeLambda entry arity captures => machine.makeLambda entry arity captures

end Machine

end ClosureLisp
