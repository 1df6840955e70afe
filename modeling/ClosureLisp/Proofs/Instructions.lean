import ClosureLisp.Proofs.Following

/-!
# Single instructions

What the instructions of a compiled expression do to a machine in agreement with an evaluator.
A piece of code that has been executed to its end leaves the machine as it was, except for its
position, the heap, the events and the values pushed: `Machine.advance`. While the body of a
function runs, `Window` ties the slots of its frame to the values of its environment.
-/

namespace ClosureLisp

namespace Machine

/-- A machine that has gone on to an offset and pushed the machine's form of some values. -/
def advance (machine : Machine) (pc : Nat) (values : List Value) (heap : Heap)
    (events : List Event) : Machine :=
  { machine with
    pc := pc
    stack := machine.stack ++ (values.map Value.onMachine).toArray
    heap := heap
    events := events }

section Advance

variable (machine : Machine) (pc : Nat) (values : List Value) (heap : Heap) (events : List Event)

@[simp]
theorem advance_pc : (machine.advance pc values heap events).pc = pc := rfl

@[simp]
theorem advance_activations :
    (machine.advance pc values heap events).activations = machine.activations := rfl

@[simp]
theorem advance_stackLimit :
    (machine.advance pc values heap events).stackLimit = machine.stackLimit := rfl

@[simp]
theorem advance_stack :
    (machine.advance pc values heap events).stack =
      machine.stack ++ (values.map Value.onMachine).toArray := rfl

theorem advance_advance (laterPc : Nat) (more : List Value) (laterHeap : Heap)
    (laterEvents : List Event) :
    (machine.advance pc values heap events).advance laterPc more laterHeap laterEvents =
      machine.advance laterPc (values ++ more) laterHeap laterEvents := by
  simp [advance]

theorem advance_self :
    machine.advance machine.pc [] machine.heap machine.events = machine := by
  simp [advance]

theorem advance_nil :
    machine.advance pc [] heap events =
      { machine with pc := pc, heap := heap, events := events } := by
  simp [advance]

end Advance

/-- Making a machine ready changes its position, its heap and its events only. -/
theorem ready_eq_advance (machine : Machine) (instr : Instr) (size : Nat) :
    machine.ready instr size =
      machine.advance (machine.pc + size) [] (machine.ready instr size).heap
        (machine.ready instr size).events := by
  rw [advance_nil]
  unfold ready traceInstr collectIfNeeded
  split <;> split <;> rfl

end Machine

/-- A machine has executed a piece of code that pushes values, in agreement with an evaluator that
has evaluated them. -/
structure Arrived (start : Machine) (pc : Nat) (older : List Event) (evaluator : Evaluator)
    (values : List Value) (count : Nat) (later : Evaluator) (last : Machine) : Prop where
  shape : ∃ heap events, last = start.advance pc values heap events
  setting : later.setting = evaluator.setting
  agrees : Agrees count older later last

namespace Arrived

variable {start middle last : Machine} {pc laterPc count more : Nat} {older : List Event}
  {evaluator later latest : Evaluator} {values others : List Value}

/-- Two pieces of code one after the other. -/
theorem trans (first : Arrived start pc older evaluator values count later middle)
    (second : Arrived middle laterPc older later others more latest last) :
    Arrived start laterPc older evaluator (values ++ others) more latest last := by
  obtain ⟨⟨heap, events, rfl⟩, same, -⟩ := first
  obtain ⟨⟨laterHeap, laterEvents, rfl⟩, unchanged, agrees⟩ := second
  exact ⟨⟨laterHeap, laterEvents, Machine.advance_advance ..⟩, unchanged.trans same, agrees⟩

/-- The stack has only grown. -/
theorem higher {depth : Nat} (arrived : Arrived start pc older evaluator values count later middle)
    (room : depth + middle.stack.size < middle.stackLimit) :
    depth + start.stack.size < start.stackLimit := by
  obtain ⟨⟨heap, events, rfl⟩, -, -⟩ := arrived
  rw [Machine.advance_stack, Machine.advance_stackLimit, Array.size_append] at room
  omega

/-- A machine that goes on from where it has arrived. -/
theorem resume {depth failures stop : Nat} {outcome : EStateM.Result EvalError Evaluator Value}
    (first : Arrived start pc older evaluator values count later middle)
    (second : Follows (depth + middle.stack.size < middle.stackLimit) older failures
      (fun value => Arrived middle stop older later [value]) count middle outcome) :
    Follows (depth + start.stack.size < start.stackLimit) older failures
      (fun value => Arrived start stop older evaluator (values ++ [value])) count middle
      outcome :=
  (second.deepen first.higher).onward fun counted arrived =>
    .value (.refl _) counted (first.trans arrived)

end Arrived

/-! ## The slots of the current frame -/

/-- The slots that the innermost of some frames gives to names hold the values that these names
have in an environment. -/
def Window (frames : List Frame) (environment : Environment) (machine : Machine) : Prop :=
  ∀ name slot, Frame.innermostSlot? frames name = some slot →
    ∃ activation outer value, machine.activations = activation :: outer ∧
      slot < activation.locals ∧ environment.lookup? name = some value ∧
      machine.stack[activation.base + slot]? = some value.onMachine

namespace Window

variable {frames later : List Frame} {environment : Environment} {machine : Machine}

theorem shrink (window : Window later environment machine)
    (grown : List.Forall₂ Frame.Extends frames later) : Window frames environment machine :=
  fun name slot found => window name slot (Frame.innermostSlot?_of_extends grown found)

theorem advance (window : Window frames environment machine) (pc : Nat) (values : List Value)
    (heap : Heap) (events : List Event) :
    Window frames environment (machine.advance pc values heap events) := by
  intro name slot found
  obtain ⟨activation, outer, value, active, inside, bound, held⟩ := window name slot found
  refine ⟨activation, outer, value, active, inside, bound, ?_⟩
  obtain ⟨within, -⟩ := Array.getElem?_eq_some_iff.mp held
  rw [Machine.advance_stack, Array.getElem?_append_left within, held]

end Window

/-! ## Instructions that push a value -/

/-- An instruction that pushes a value does so, or the stack is full. -/
theorem Machine.step_push {machine middle : Machine} {pc : Nat} {instr : Instr} {value : Value}
    (stepped : machine.step = Progress.ofEffect pc instr (middle.push value)) :
    (∃ limit last, machine.Fails (.stackLimit limit) last) ∨
      machine.step = .running { middle with stack := middle.stack.push value } := by
  by_cases full : middle.stackLimit ≤ middle.stack.size
  · rw [push, if_pos full] at stepped
    exact .inl ⟨middle.stackLimit, middle, _, _, _, .of_step stepped⟩
  · rw [push, if_neg full] at stepped
    exact .inr stepped

section Pushing

variable {deep : Prop} {older : List Event} {count size : Nat} {evaluator : Evaluator}
  {machine : Machine} {instr : Instr}

/-- A result that is pushed where a machine has gone on to. -/
theorem Follows.of_result {start : Machine} {pc offset : Nat} {heap : Heap} {events : List Event}
    {result : Value} {former : Evaluator}
    (stepped : machine.step =
      Progress.ofEffect offset instr ((start.advance pc [] heap events).push result.onMachine))
    (made : heap.next = machine.heap.next)
    (agrees : Agrees count older evaluator (start.advance pc [] heap events))
    (linked : LinkedValue evaluator (start.advance pc [] heap events) result.onMachine)
    (same : evaluator.setting = former.setting) :
    Follows deep older evaluator.failures
      (fun value => Arrived start pc older former [value]) count machine
      (.ok result evaluator) := by
  rcases Machine.step_push stepped with ⟨limit, last, fails⟩ | running
  · exact .strays (.inr ⟨limit, last, fails⟩)
  · refine .of_step running made (.value (.refl _) rfl ⟨⟨heap, events, ?_⟩, same, ?_⟩)
    · simp [Machine.advance]
    · refine agrees.restack rfl rfl rfl rfl rfl ?_ agrees.linked_of_result
      intro pushed listed
      rcases List.mem_append.mp (Array.toList_push ▸ listed) with known | added
      · exact agrees.linked_of_stack pushed known
      · rw [List.mem_singleton.mp added]
        exact linked

/-- An instruction that pushes the machine's form of a value follows the evaluation to it. -/
theorem Follows.of_push {value : Value} (agrees : Agrees count older evaluator machine)
    (decoded : machine.code.instrAt machine.pc = .ok (instr, size))
    (executed : (machine.ready instr size).execute instr =
      (machine.ready instr size).push value.onMachine)
    (linked : LinkedValue evaluator (machine.ready instr size) value.onMachine) :
    Follows deep older evaluator.failures
      (fun value => Arrived machine (machine.pc + size) older evaluator [value]) count machine
      (.ok value evaluator) := by
  have stepped := Machine.step_of_instrAt decoded
  have prepared := agrees.ready instr size
  have made : (machine.ready instr size).heap.next = machine.heap.next := by simp
  rw [executed] at stepped
  rw [Machine.ready_eq_advance] at stepped prepared linked
  exact .of_result stepped made prepared linked rfl

/-- A constant is its own value. -/
theorem Follows.of_constant (agrees : Agrees count older evaluator machine)
    {constant : Constant}
    (decoded : machine.code.instrAt machine.pc = .ok (.push constant, size)) :
    Follows deep older evaluator.failures
      (fun value => Arrived machine (machine.pc + size) older evaluator [value]) count machine
      (.ok constant.value evaluator) := by
  refine .of_push agrees decoded ?_ ?_
  · rw [constant.onMachine_value]
    rfl
  · rw [constant.onMachine_value]
    exact linkedValue_constant _ _ constant

/-- A local slot holds the value of its name. -/
theorem Follows.of_get (agrees : Agrees count older evaluator machine) {frames : List Frame}
    {environment : Environment} (window : Window frames environment machine) {name : Name}
    {slot : Nat} (found : Frame.innermostSlot? frames name = some slot)
    (fits : slot < Expr.operandRange)
    (decoded : machine.code.instrAt machine.pc = .ok (.get (Expr.word slot), size)) :
    ∃ value, environment.lookup? name = some value ∧
      Follows deep older evaluator.failures
        (fun value => Arrived machine (machine.pc + size) older evaluator [value]) count machine
        (.ok value evaluator) := by
  obtain ⟨activation, outer, value, active, inside, bound, held⟩ := window name slot found
  refine ⟨value, bound, .of_push agrees decoded ?_ ?_⟩
  · have within : ¬ ((slot : Int) < 0 ∨ (activation.locals : Int) ≤ slot) := by omega
    simp only [Machine.execute, Machine.load, Machine.ready_activations, active, if_neg within,
      Machine.ready_stack, Expr.toInt_word fits, Int.toNat_natCast, held]
  · refine (agrees.ready _ size).linked_of_stack _ ?_
    rw [Machine.ready_stack]
    exact Array.mem_toList_iff.mpr (Array.mem_of_getElem? held)

/-- A global slot holds the value of its name. -/
theorem Follows.of_getGlobal (agrees : Agrees count older evaluator machine)
    {table : List Name} (known : table <+: evaluator.names) {name : Name} {slot : Nat}
    (found : slotIn table name = some slot) (fits : slot < Expr.operandRange)
    (decoded : machine.code.instrAt machine.pc = .ok (.getGlobal (Expr.word slot), size)) :
    ∃ value, evaluator.globals.lookup name = some value ∧
      Follows deep older evaluator.failures
        (fun value => Arrived machine (machine.pc + size) older evaluator [value]) count machine
        (.ok value evaluator) := by
  obtain ⟨value, bound, held⟩ : ∃ value, evaluator.globals.lookup name = some value ∧
      machine.globals[slot]? = some value.onMachine := by
    obtain ⟨value, listed, bound⟩ := lookup_of_slotIn (slotIn_extend known found)
    refine ⟨value, bound, ?_⟩
    rw [← Array.getElem?_toList, agrees.globals, List.getElem?_map, listed]
    rfl
  refine ⟨value, bound, .of_push agrees decoded ?_ ?_⟩
  · have within : ¬ (slot : Int) < 0 := by omega
    simp only [Machine.execute, Machine.loadGlobal, if_neg within, Machine.ready_globals,
      Expr.toInt_word fits, Int.toNat_natCast, held]
  · refine (agrees.ready _ size).linked_of_globals _ ?_
    rw [Machine.ready_globals]
    exact Array.mem_toList_iff.mpr (Array.mem_of_getElem? held)

end Pushing

/-! ## Instructions that take values from the stack -/

namespace Machine

variable {start : Machine} {pc size : Nat} {values : List Value} {heap : Heap}
  {events : List Event}

theorem pop_advance (value : Value) (further : Value → Machine → Effect) :
    (start.advance pc (values ++ [value]) heap events).pop further =
      further value.onMachine (start.advance pc values heap events) := by
  have stacked : start.stack ++ ((values ++ [value]).map Value.onMachine).toArray =
      (start.stack ++ (values.map Value.onMachine).toArray).push value.onMachine := by
    simp
  simp only [pop, advance, stacked, Array.back?_push, Array.pop_push]

theorem pop_advance_single (value : Value) (further : Value → Machine → Effect) :
    (start.advance pc [value] heap events).pop further =
      further value.onMachine (start.advance pc [] heap events) := by
  rw [← List.nil_append [value], pop_advance]

/-- The values that a machine has pushed, and what is left without them. -/
theorem extract_advance :
    ((start.advance pc values heap events).stack.extract start.stack.size
        (start.advance pc values heap events).stack.size).toList =
      values.map Value.onMachine := by
  simp [List.take_of_length_le]

theorem shrink_advance :
    (start.advance pc values heap events).stack.shrink start.stack.size = start.stack := by
  apply Array.ext'
  simp

theorem size_advance :
    (start.advance pc values heap events).stack.size = start.stack.size + values.length := by
  simp

end Machine

namespace Agrees

variable {count : Nat} {older : List Event} {evaluator : Evaluator} {start : Machine}
  {pc size : Nat} {values : List Value} {heap : Heap} {events : List Event} {instr : Instr}

/-- A step of a machine that has gone on executes its instruction on a machine that has gone on
past it, still in agreement. -/
theorem step (agrees : Agrees count older evaluator (start.advance pc values heap events))
    (decoded : start.code.instrAt pc = .ok (instr, size)) :
    ∃ laterHeap laterEvents,
      (start.advance pc values heap events).step =
        Progress.ofEffect pc instr
          ((start.advance (pc + size) values laterHeap laterEvents).execute instr) ∧
      Agrees count older evaluator (start.advance (pc + size) values laterHeap laterEvents) ∧
      laterHeap.next = heap.next := by
  have prepared := Machine.ready_eq_advance (start.advance pc values heap events) instr size
  rw [Machine.advance_advance, List.append_nil, Machine.advance_pc] at prepared
  refine ⟨_, _, ?_, prepared ▸ agrees.ready instr size, ?_⟩
  · rw [← prepared]
    exact Machine.step_of_instrAt decoded
  · rw [Machine.ready_heap, Machine.collectIfNeeded_next]
    rfl

/-- Values may be taken from the stack, and the position does not matter. -/
theorem drop {dropped : List Value}
    (agrees : Agrees count older evaluator (start.advance pc (values ++ dropped) heap events))
    (target : Nat) : Agrees count older evaluator (start.advance target values heap events) := by
  refine agrees.restack rfl rfl rfl rfl rfl ?_ agrees.linked_of_result
  intro value listed
  refine agrees.linked_of_stack value ?_
  simp only [Machine.advance_stack, Array.toList_append, List.map_append,
    List.mem_append] at listed ⊢
  exact listed.imp_right .inl

theorem bare (agrees : Agrees count older evaluator (start.advance pc values heap events))
    (target : Nat) : Agrees count older evaluator (start.advance target [] heap events) :=
  Agrees.drop (by rwa [List.nil_append]) target

theorem move (agrees : Agrees count older evaluator (start.advance pc values heap events))
    (target : Nat) : Agrees count older evaluator (start.advance target values heap events) :=
  agrees.restack rfl rfl rfl rfl rfl agrees.linked_of_stack agrees.linked_of_result

end Agrees

theorem Machine.checkTarget_of_le (machine : Machine) {target : Nat}
    (fits : target < Expr.operandRange) (inside : target ≤ machine.code.size)
    (further : Machine → Effect) :
    machine.checkTarget (Expr.word target) further = further machine := by
  have isTarget : machine.isTarget (Expr.word target) = true := by
    simp [isTarget, Expr.toInt_word fits, inside]
  rw [checkTarget, if_pos isTarget]

/-- A run that stops at once with a fault follows an evaluation that does so with one of the same
kind. -/
theorem Follows.of_fault {α : Type} {deep : Prop} {older : List Event} {count pc : Nat}
    {evaluator : Evaluator} {done : α → Nat → Evaluator → Machine → Prop}
    {machine last : Machine} {opcode : Opcode} {cause stopped : Fault}
    (stepped : machine.step = .halted (.error (.fault pc opcode stopped)) last)
    (ordinary : cause.kind.IsOrdinary) (same : stopped.kind = cause.kind)
    (printed : evaluator.Prints older last) :
    Follows deep older evaluator.failures done count machine (.error (.fault cause) evaluator) :=
  .fault ordinary same ⟨_, pc, opcode, .of_step stepped⟩ rfl printed

section Jumps

variable {deep : Prop} {older : List Event} {failures count : Nat} {evaluator : Evaluator}
  {start : Machine} {pc size target : Nat} {values : List Value} {heap : Heap}
  {events : List Event} {done : Value → Nat → Evaluator → Machine → Prop}
  {outcome : EStateM.Result EvalError Evaluator Value}

theorem Follows.of_jump
    (agrees : Agrees count older evaluator (start.advance pc values heap events))
    (decoded : start.code.instrAt pc = .ok (.jump (Expr.word target), size))
    (fits : target < Expr.operandRange) (inside : target ≤ start.code.size)
    (rest : ∀ heap events,
      Agrees count older evaluator (start.advance target values heap events) →
      Follows deep older failures done count (start.advance target values heap events) outcome) :
    Follows deep older failures done count (start.advance pc values heap events) outcome := by
  obtain ⟨laterHeap, laterEvents, stepped, prepared, same⟩ := agrees.step decoded
  have jumped : (start.advance pc values heap events).step =
      .running (start.advance target values laterHeap laterEvents) := by
    rw [stepped, Machine.execute, Machine.checkTarget_of_le (start.advance _ _ _ _) fits inside,
      Machine.goTo, Expr.toInt_word fits, Int.toNat_natCast]
    rfl
  exact .of_step jumped same (rest _ _ (prepared.move target))

theorem Follows.of_jump_here {machine : Machine} (agrees : Agrees count older evaluator machine)
    (decoded : machine.code.instrAt machine.pc = .ok (.jump (Expr.word target), size))
    (fits : target < Expr.operandRange) (inside : target ≤ machine.code.size)
    (rest : ∀ heap events,
      Agrees count older evaluator (machine.advance target [] heap events) →
      Follows deep older failures done count (machine.advance target [] heap events) outcome) :
    Follows deep older failures done count machine outcome := by
  have here := machine.advance_self
  rw [← here] at agrees
  have follows := Follows.of_jump agrees decoded fits inside rest
  rwa [here] at follows

/-- A branch goes on with the alternative that an evaluation chooses by the same value. -/
theorem Follows.of_branch {test : Value}
    (agrees : Agrees count older evaluator (start.advance pc [test] heap events))
    (decoded : start.code.instrAt pc = .ok (.jumpIf (Expr.word target), size))
    (fits : target < Expr.operandRange) (inside : target ≤ start.code.size)
    {consequent alternative : Evaluator.Action Value}
    (whenTrue : ∀ heap events,
      Agrees count older evaluator (start.advance target [] heap events) →
      Follows deep older evaluator.failures done count (start.advance target [] heap events)
        (consequent evaluator))
    (whenFalse : ∀ heap events,
      Agrees count older evaluator (start.advance (pc + size) [] heap events) →
      Follows deep older evaluator.failures done count
        (start.advance (pc + size) [] heap events) (alternative evaluator)) :
    Follows deep older evaluator.failures done count (start.advance pc [test] heap events)
      (Evaluator.choose consequent alternative test evaluator) := by
  obtain ⟨laterHeap, laterEvents, stepped, prepared, same⟩ := agrees.step decoded
  rw [Machine.execute, Machine.branch,
    Machine.checkTarget_of_le (start.advance _ _ _ _) fits inside,
    Machine.pop_advance_single] at stepped
  cases test with
  | bool flag =>
      cases flag with
      | true =>
          have jumped : (start.advance pc [.bool true] heap events).step =
              .running (start.advance target [] laterHeap laterEvents) := by
            rw [stepped]
            simp only [Value.onMachine, Machine.goTo, Expr.toInt_word fits, Int.toNat_natCast]
            rfl
          exact .of_step jumped same (whenTrue _ _ (prepared.bare target))
      | false => exact .of_step stepped same (whenFalse _ _ (prepared.bare (pc + size)))
  | nil | int | builtin | closure =>
      exact .of_fault stepped (.inr (.inl rfl)) rfl (prepared.bare (pc + size)).prints

end Jumps

/-! ## Making closures -/

theorem Expr.toNat_toUInt32_word {number : Nat} (fits : number < operandRange) :
    (word number).toUInt32.toNat = number := by
  unfold operandRange at fits
  exact UInt32.toNat_ofNat_of_lt' (by simp [UInt32.size]; omega)

/-- The closure that is made of a body at an entry and the values that it captures. -/
def Closure.ofValues (entry arity : Nat) (values : List Value) : Closure where
  arity := (Expr.word arity).toUInt32
  captures := values.map Value.onMachine
  entry := (Expr.word entry).toUInt32

theorem Machine.made_of_next {machine next : Machine}
    (allocated : next.heap.next = machine.heap.next + 1) : machine.made next = 1 := by
  have differs : machine.heap.next + 1 ≠ machine.heap.next := by
    rw [Ne, UInt32.add_eq_left]
    decide
  rw [made, allocated, if_neg differs]

section Lambda

variable {deep : Prop} {older : List Event} {count : Nat} {evaluator : Evaluator}
  {start : Machine} {pc size entry : Nat} {values : List Value} {heap : Heap}
  {events : List Event}

theorem Machine.execute_makeLambda {arity : Nat} (entryFits : entry < Expr.operandRange)
    (arityFits : arity < Expr.operandRange) (capturesFit : values.length < Expr.operandRange)
    (inside : entry ≤ start.code.size) :
    (start.advance pc values heap events).execute
        (.makeLambda (Expr.word entry) (Expr.word arity) (Expr.word values.length)) =
      (start.advance pc [] (heap.alloc (.ofValues entry arity values)).2 events).push
        (.closure heap.next arity) := by
  have available : ¬ ((values.length : Int) < 0 ∨
      ((start.advance pc values heap events).stack.size : Int) < values.length) := by
    rw [size_advance]
    omega
  have natural : ¬ (arity : Int) < 0 := by omega
  have below : start.stack.size =
      (start.advance pc values heap events).stack.size - values.length := by
    rw [size_advance, Nat.add_sub_cancel]
  rw [execute, makeLambda]
  simp only [Expr.toInt_word capturesFit, Expr.toInt_word arityFits, if_neg available,
    if_neg natural, checkTarget_of_le (start.advance _ _ _ _) entryFits inside,
    Int.toNat_natCast, ← below, extract_advance, shrink_advance, advance_nil]
  rfl

/-- The instruction that makes a closure of the values on the stack follows the evaluation of the
lambda. -/
theorem Follows.of_makeLambda {function : Function} {frame : Frame}
    (agrees : Agrees count older evaluator (start.advance pc values heap events))
    (decoded : start.code.instrAt pc = .ok (.makeLambda (Expr.word entry)
      (Expr.word function.parameters.length) (Expr.word values.length), size))
    (body : BodyAt start.code evaluator.names function entry frame)
    (entryFits : entry < Expr.operandRange)
    (arityFits : function.parameters.length < Expr.operandRange)
    (capturesFit : values.length < Expr.operandRange) (inside : entry ≤ start.code.size)
    (bound : frame.captures.map (fun capture => function.environment.lookup? capture.name) =
      values.map some) :
    Follows deep older evaluator.failures
      (fun value => Arrived start (pc + size) older evaluator [value]) count
      (start.advance pc values heap events)
      (.ok (.closure evaluator.next function.parameters.length) (evaluator.alloc function).2) := by
  obtain ⟨laterHeap, laterEvents, stepped, prepared, same⟩ := agrees.step decoded
  rw [Machine.execute_makeLambda entryFits arityFits capturesFit inside] at stepped
  rcases Machine.step_push stepped with ⟨limit, last, fails⟩ | running
  · exact .strays (.inr ⟨limit, last, fails⟩)
  have runs := Machine.Runs.single running
  rw [Machine.made_of_next (congrArg (· + 1) same)] at runs
  by_cases room : count + 1 < Machine.handleRange
  · have captured : ∀ value ∈ values, LinkedValue evaluator
        (start.advance (pc + size) values laterHeap laterEvents) value.onMachine := by
      intro value listed
      refine prepared.linked_of_stack _ ?_
      simp only [Machine.advance_stack, Array.toList_append, List.mem_append]
      exact .inr (List.mem_map_of_mem listed)
    have placed : BodyAt start.code evaluator.names function
        (Closure.ofValues entry function.parameters.length values).entry.toNat frame := by
      rw [Closure.ofValues, Expr.toNat_toUInt32_word entryFits]
      exact body
    obtain ⟨allocated, linked⟩ := prepared.alloc room placed
      (Expr.toNat_toUInt32_word arityFits) rfl bound captured
    refine .prepend runs (.value (.refl _) rfl
      ⟨⟨(laterHeap.alloc (.ofValues entry function.parameters.length values)).2, laterEvents, ?_⟩,
        rfl, ?_⟩)
    · simp [Machine.advance, Value.onMachine, ← prepared.machineNext]
    · refine allocated.restack rfl rfl rfl rfl rfl ?_ allocated.linked_of_result
      intro value listed
      simp only [Machine.advance_stack, List.map_nil, Array.append_empty, Array.toList_push,
        List.mem_append, List.mem_singleton] at listed
      rcases listed with known | rfl
      · refine allocated.linked_of_stack value ?_
        rw [Machine.advance_stack, Array.toList_append]
        exact List.mem_append_left _ known
      · rintro handle arity ⟨rfl, rfl⟩
        exact linked
  · exact .strays (.inl ⟨1, _, runs, Nat.not_lt.mp room⟩)

end Lambda

end ClosureLisp
