import ClosureLisp.Bytecode.Decode
import ClosureLisp.Heap.Collect
import ClosureLisp.Primitive

/-!
# The machine

A stack machine for instruction streams. Globals, heap and output carry over from run to
run; the stack, the activations and the last result belong to one run. What a run prints
is kept as a list of events, the latest first, and rendered on demand.
-/

namespace ClosureLisp

/-- The window of one closure call: its arguments, the closure itself and its captures lie in
consecutive stack slots from `base` on. -/
structure Activation where
  returnTo : Nat
  base : Nat
  locals : Nat
  closure : UInt32
  deriving DecidableEq, Repr

/-- Something a run prints. -/
inductive Event where
  | displayed (value : Value)
  | traced (pc : Nat) (instr : Instr) (depth activations : Nat)
  deriving DecidableEq, Repr

/-- The line that an event prints. -/
def Event.text : Event → Bytes
  | .displayed value => value.text ++ utf8 "\n"
  | .traced pc instr depth activations =>
      utf8 "[" ++ Bytes.zeroPadded 4 pc ++ utf8 "] " ++ Bytes.padRight 40 instr.text ++
        utf8 " sp=" ++ Bytes.decimalNat depth ++ utf8 " fp=" ++ Bytes.decimalNat activations ++
        utf8 "\n"

/-- The text of a list of events, given the latest first. -/
def Event.textAll (events : List Event) : Bytes :=
  events.reverse.flatMap Event.text

/-- The settings of a machine; a number that is not positive stands for its default. -/
structure MachineOptions where
  gcThreshold : Int := 0
  stackLimit : Int := 0
  trace : Bool := false
  deriving DecidableEq, Repr

/-- A machine between two instructions. -/
structure Machine where
  stackLimit : Nat
  trace : Bool
  globals : Array Value
  heap : Heap
  code : Code
  pc : Nat
  stack : Array Value
  activations : List Activation
  result : Option Value
  events : List Event

namespace Machine

/-- The largest stack depth, unless told otherwise. -/
def defaultStackLimit : Nat := 65536

/-- A machine that has run nothing yet. -/
def new (options : MachineOptions) : Machine where
  stackLimit := if options.stackLimit ≤ 0 then defaultStackLimit else options.stackLimit.toNat
  trace := options.trace
  globals := predefinedValues.toArray
  heap := Heap.new options.gcThreshold
  code := #[]
  pc := 0
  stack := #[]
  activations := []
  result := none
  events := []

/-- The values that keep closures alive: the stack, the globals and the last result. -/
def roots (machine : Machine) : List Value :=
  machine.stack.toList ++ machine.globals.toList ++ machine.result.toList

/-- Collects the heap. -/
def collect (machine : Machine) : Collection × Machine :=
  let (account, heap) := machine.heap.collect machine.roots
  (account, { machine with heap := heap })

/-- Collects the heap without any roots, so that every closure value dangles. -/
def sweep (machine : Machine) : Collection × Machine :=
  let (account, heap) := machine.heap.collect []
  (account, { machine with heap := heap })

/-- Drops the globals from a slot on; predefined ones always stay. -/
def truncateGlobals (machine : Machine) (count : Int) : Machine :=
  { machine with
    globals := machine.globals.shrink (max count.toNat predefinedValues.length) }

/-- The text printed so far, and the machine with that text taken away. -/
def takeOutput (machine : Machine) : Bytes × Machine :=
  (Event.textAll machine.events, { machine with events := [] })

end Machine

end ClosureLisp
