import ClosureLisp.Proofs.Calls

/-!
# The balance of compiled code

A run that comes to a value has passed through the code of its expressions from end to end. On
the way the code of an expression leaves exactly one value on the stack, opens no activation that
it does not leave again, and touches neither the globals nor the last result: `exprDelivers`. The
claim is about the shape of the stack only. It needs no evaluator, and it holds even when handles
are given out again; all it takes is that the body of every closure on the heap stands in the code.
-/

namespace ClosureLisp

/-- Every value is the machine's form of some value. -/
theorem Value.exists_onMachine (value : Value) : ∃ other : Value, other.onMachine = value := by
  cases value with
  | closure handle arity =>
      refine ⟨.closure (handle - 1) arity, ?_⟩
      rw [onMachine, UInt32.sub_add_cancel]
  | nil => exact ⟨.nil, rfl⟩
  | int number => exact ⟨.int number, rfl⟩
  | bool flag => exact ⟨.bool flag, rfl⟩
  | builtin name arity => exact ⟨.builtin name arity, rfl⟩

theorem Value.exists_map_onMachine (values : List Value) :
    ∃ others : List Value, values = others.map Value.onMachine := by
  induction values with
  | nil => exact ⟨[], rfl⟩
  | cons value rest ih =>
      obtain ⟨other, rfl⟩ := value.exists_onMachine
      obtain ⟨others, rfl⟩ := ih
      exact ⟨other :: others, rfl⟩

/-! ## Sound heaps -/

namespace Heap

/-- Every closure on a heap has a property. -/
def Each (property : Closure → Prop) (heap : Heap) : Prop :=
  ∀ (handle : UInt32) (closure : Closure), heap.objects[handle]? = some closure → property closure

namespace Each

variable {property : Closure → Prop} {heap : Heap}

theorem collect (each : heap.Each property) (roots : List Value) :
    (heap.collect roots).2.Each property :=
  fun handle closure kept => each handle closure ((getElem?_collect_iff _ _ _ _).mp kept).1

theorem alloc (each : heap.Each property) {closure : Closure} (made : property closure) :
    (heap.alloc closure).2.Each property := by
  intro handle other stored
  rw [Heap.alloc, Std.TreeMap.getElem?_insert] at stored
  split at stored
  · cases stored
    exact made
  · exact each handle other stored

theorem ready (machine : Machine) (each : machine.heap.Each property) (instr : Instr)
    (size : Nat) : (machine.ready instr size).heap.Each property := by
  rw [Machine.ready_heap, Machine.collectIfNeeded]
  split
  · exact each.collect machine.roots
  · exact each

end Each

end Heap

/-- The body of every closure on a heap stands in the code. -/
def Heap.Sound (code : Code) (heap : Heap) : Prop :=
  ∀ (handle : UInt32) (closure : Closure), heap.objects[handle]? = some closure →
    code.HoldsBody closure.entry.toNat closure.arity.toNat

namespace Heap.Sound

variable {code longer : Code} {heap : Heap}

theorem extend (sound : heap.Sound code) (grown : code.toList <+: longer.toList) :
    heap.Sound longer :=
  fun handle closure stored => (sound handle closure stored).extend grown

theorem alloc (sound : heap.Sound code) {closure : Closure}
    (body : code.HoldsBody closure.entry.toNat closure.arity.toNat) :
    (heap.alloc closure).2.Sound code :=
  Each.alloc sound body

theorem ready {machine : Machine} (sound : machine.heap.Sound code) (instr : Instr) (size : Nat) :
    (machine.ready instr size).heap.Sound code :=
  Each.ready machine sound instr size

end Heap.Sound

namespace Machine

/-! ## Runs that come to a value -/

/-- A machine comes to a value within the given fuel. -/
def Completes (fuel : Nat) (machine : Machine) : Prop :=
  ∃ value last, run fuel machine = (.value value, last)

namespace Completes

variable {machine : Machine} {fuel : Nat}

theorem succ (completes : machine.Completes fuel) : machine.Completes (fuel + 1) := by
  induction fuel generalizing machine with
  | zero =>
      obtain ⟨value, last, ran⟩ := completes
      cases ran
  | succ fuel ih =>
      unfold Completes at completes ⊢
      rw [run] at completes ⊢
      cases stepped : machine.step with
      | halted halt last =>
          rw [stepped] at completes
          exact completes
      | running next =>
          rw [stepped] at completes
          exact ih completes

/-- A machine that comes to a value executes the instruction it stands at without a fault. -/
theorem step (completes : machine.Completes fuel) {instr : Instr} {size : Nat}
    (decoded : machine.code.instrAt machine.pc = .ok (instr, size)) :
    ∃ rest next, fuel = rest + 1 ∧ (machine.ready instr size).execute instr = .next next ∧
      machine.step = .running next ∧ next.Completes rest := by
  obtain ⟨value, last, ran⟩ := completes
  cases fuel with
  | zero => cases ran
  | succ rest =>
      have stepped := step_of_instrAt decoded
      rw [run, stepped] at ran
      cases executed : (machine.ready instr size).execute instr with
      | next next =>
          rw [executed] at ran stepped
          exact ⟨rest, next, rfl, rfl, stepped, value, last, ran⟩
      | fault cause stopped =>
          rw [executed] at ran
          cases ran
      | overrun stopped =>
          rw [executed] at ran
          cases ran

end Completes

/-- A machine on its way to a value, with sound closures only. -/
structure Underway (fuel : Nat) (machine : Machine) : Prop where
  sound : machine.heap.Sound machine.code
  completes : machine.Completes fuel

/-- A machine on its way comes to where a former state has gone on to an offset and pushed a given
number of values, and it is still on its way there. -/
inductive Delivers (fuel : Nat) (start machine : Machine) (pc count : Nat) : Prop where
  | intro {values : List Value} {heap : Heap} {events : List Event} {handles : List UInt32}
      (counted : values.length = count)
      (gives : machine.Gives handles (start.advance pc values heap events))
      (underway : (start.advance pc values heap events).Underway fuel) :
      Delivers fuel start machine pc count

section Deliveries

variable {fuel pc stop count more size target : Nat} {start machine next : Machine}
  {values : List Value} {heap : Heap} {events : List Event} {instr : Instr}

theorem Underway.delivers (underway : machine.Underway fuel) :
    Delivers fuel machine machine machine.pc 0 := by
  have gives : machine.Gives [] (machine.advance machine.pc [] machine.heap machine.events) := by
    rw [advance_self]
    exact .refl machine
  rw [← machine.advance_self] at underway
  exact .intro rfl gives underway

namespace Delivers

/-- A machine goes on from where it has come to. -/
theorem bind (first : Delivers fuel start machine pc count)
    (second : ∀ {values : List Value} {heap : Heap} {events : List Event}, values.length = count →
      (start.advance pc values heap events).Underway fuel →
      Delivers fuel start (start.advance pc values heap events) stop more) :
    Delivers fuel start machine stop more := by
  obtain ⟨counted, gives, underway⟩ := first
  obtain ⟨total, onward, underway⟩ := second counted underway
  exact .intro total (gives.trans onward) underway

/-- What is pushed above some values. -/
theorem above (upper : Delivers fuel (start.advance pc values heap events) machine stop count) :
    Delivers fuel start machine stop (values.length + count) := by
  obtain ⟨counted, gives, underway⟩ := upper
  rw [advance_advance] at gives underway
  refine .intro ?_ gives underway
  rw [List.length_append, counted]

theorem of_gives {handles : List UInt32} (gives : machine.Gives handles next)
    (rest : Delivers fuel start next stop count) : Delivers fuel start machine stop count := by
  obtain ⟨counted, onward, underway⟩ := rest
  exact .intro counted (gives.trans onward) underway

end Delivers

/-- A machine on its way executes its instruction where it has gone on past it. -/
theorem Underway.step (underway : (start.advance pc values heap events).Underway fuel)
    (decoded : start.code.instrAt pc = .ok (instr, size)) :
    ∃ rest laterHeap laterEvents next, fuel = rest + 1 ∧ laterHeap.Sound start.code ∧
      (start.advance (pc + size) values laterHeap laterEvents).execute instr = .next next ∧
      (start.advance pc values heap events).step = .running next ∧ next.Completes rest := by
  have prepared := ready_eq_advance (start.advance pc values heap events) instr size
  rw [advance_advance, List.append_nil, advance_pc] at prepared
  have sound := underway.sound.ready instr size
  obtain ⟨rest, next, enough, executed, stepped, completes⟩ := underway.completes.step decoded
  rw [prepared] at executed
  exact ⟨rest, _, _, next, enough, sound, executed, stepped, completes⟩

/-! ## Single instructions -/

theorem push_eq_next {value : Value} (pushed : machine.push value = .next next) :
    next = { machine with stack := machine.stack.push value } := by
  unfold push at pushed
  split at pushed
  · cases pushed
  · cases pushed
    rfl

/-- An instruction pushes a value whenever it has no fault. -/
def Pushes (instr : Instr) : Prop :=
  ∀ {machine next : Machine}, machine.execute instr = .next next →
    ∃ value, machine.push value = .next next

theorem pushes_constant (constant : Constant) : Pushes (.push constant) :=
  fun executed => ⟨constant.value, executed⟩

theorem pushes_get (slot : Int32) : Pushes (.get slot) := by
  intro machine next executed
  rw [execute, load] at executed
  split at executed
  · cases executed
  · split at executed
    · cases executed
    · split at executed
      · exact ⟨_, executed⟩
      · cases executed

theorem pushes_getGlobal (slot : Int32) : Pushes (.getGlobal slot) := by
  intro machine next executed
  rw [execute, loadGlobal] at executed
  split at executed
  · cases executed
  · split at executed
    · exact ⟨_, executed⟩
    · cases executed

theorem checkTarget_eq_next {further : Machine → Effect} {word : Int32}
    (checked : machine.checkTarget word further = .next next) : further machine = .next next := by
  unfold checkTarget at checked
  split at checked
  · exact checked
  · cases checked

theorem goTo_advance (fits : target < Expr.operandRange) :
    (start.advance pc values heap events).goTo (Expr.word target) =
      start.advance target values heap events := by
  rw [goTo, Expr.toInt_word fits, Int.toNat_natCast]
  rfl

namespace Delivers

/-- A value is pushed where a machine has gone on to. -/
theorem of_push_eq_next {value : Value} (sound : heap.Sound start.code)
    (pushed : (start.advance pc [] heap events).push value = .next next)
    (completes : next.Completes fuel) : Delivers fuel start next pc 1 := by
  obtain ⟨other, rfl⟩ := value.exists_onMachine
  have same : next = start.advance pc [other] heap events := by
    rw [push_eq_next pushed]
    simp [advance]
  subst same
  exact .intro rfl (.refl _) ⟨sound, completes⟩

theorem of_pushes (pushes : Pushes instr) (underway : machine.Underway fuel)
    (decoded : machine.code.instrAt machine.pc = .ok (instr, size)) :
    Delivers fuel machine machine (machine.pc + size) 1 := by
  have here := machine.advance_self
  rw [← here] at underway
  obtain ⟨rest, laterHeap, laterEvents, next, rfl, sound, executed, stepped, completes⟩ :=
    underway.step decoded
  obtain ⟨value, pushed⟩ := pushes executed
  rw [here] at stepped
  exact .of_gives (.single stepped) (.of_push_eq_next sound pushed completes.succ)

theorem of_jump (underway : machine.Underway fuel)
    (decoded : machine.code.instrAt machine.pc = .ok (.jump (Expr.word target), size))
    (fits : target < Expr.operandRange) : Delivers fuel machine machine target 0 := by
  have here := machine.advance_self
  rw [← here] at underway
  obtain ⟨rest, laterHeap, laterEvents, next, rfl, sound, executed, stepped, completes⟩ :=
    underway.step decoded
  rw [execute] at executed
  have jumped := checkTarget_eq_next executed
  rw [goTo_advance fits] at jumped
  cases jumped
  rw [here] at stepped
  exact .of_gives (.single stepped) (.intro rfl (.refl _) ⟨sound, completes.succ⟩)

/-- A branch takes its condition from the stack and goes one of two ways. -/
theorem of_branch {test : Value}
    (underway : (start.advance pc [test] heap events).Underway fuel)
    (decoded : start.code.instrAt pc = .ok (.jumpIf (Expr.word target), size))
    (fits : target < Expr.operandRange) :
    Delivers fuel start (start.advance pc [test] heap events) target 0 ∨
      Delivers fuel start (start.advance pc [test] heap events) (pc + size) 0 := by
  obtain ⟨rest, laterHeap, laterEvents, next, rfl, sound, executed, stepped, completes⟩ :=
    underway.step decoded
  rw [execute, branch] at executed
  have popped := checkTarget_eq_next executed
  rw [pop_advance_single] at popped
  split at popped
  · rw [goTo_advance fits] at popped
    cases popped
    exact .inl (.of_gives (.single stepped) (.intro rfl (.refl _) ⟨sound, completes.succ⟩))
  · cases popped
    exact .inr (.of_gives (.single stepped) (.intro rfl (.refl _) ⟨sound, completes.succ⟩))
  · cases popped

/-- A closure is made of the values on the stack. -/
theorem of_makeLambda {entry arity : Nat}
    (underway : (start.advance pc values heap events).Underway fuel)
    (decoded : start.code.instrAt pc =
      .ok (.makeLambda (Expr.word entry) (Expr.word arity) (Expr.word values.length), size))
    (body : start.code.HoldsBody entry arity) (aritySmall : arity < Expr.operandRange)
    (capturesSmall : values.length < Expr.operandRange) :
    Delivers fuel start (start.advance pc values heap events) (pc + size) 1 := by
  obtain ⟨rest, laterHeap, laterEvents, next, rfl, sound, executed, stepped, completes⟩ :=
    underway.step decoded
  obtain ⟨-, -, -, placed, small⟩ := id body
  have inside : entry ≤ start.code.size := Nat.le_trans (Nat.le_add_right _ _) placed.stop_le
  rw [execute_makeLambda small aritySmall capturesSmall inside] at executed
  refine .of_gives (.single stepped) (.of_push_eq_next (sound.alloc ?_) executed completes.succ)
  rw [Closure.ofValues, Expr.toNat_toUInt32_word small, Expr.toNat_toUInt32_word aritySmall]
  exact body

end Delivers

/-- A closure that is entered has its body in the code. -/
theorem enter_eq_next {handle : UInt32} {arity : Int} (sound : heap.Sound start.code)
    (called : (start.advance pc values heap events).enter (handle + 1) arity values.length =
      .next next) :
    ∃ entry captured, start.code.HoldsBody entry values.length ∧
      next = start.entered pc entry handle arity values captured heap events := by
  cases stored : heap.objects[handle + 1]? with
  | none =>
      have missing : (start.advance pc values heap events).heap.get (handle + 1) =
          .error (.unknownHandle (handle + 1)) := by
        change heap.get (handle + 1) = _
        rw [Heap.get, stored]
      rw [enter, missing] at called
      cases called
  | some closure =>
      by_cases differs : closure.arity.toNat ≠ values.length
      · rw [enter_arity stored differs] at called
        cases called
      · have equal := Decidable.not_not.mp differs
        obtain ⟨captured, captures⟩ := Value.exists_map_onMachine closure.captures
        have body := sound _ closure stored
        obtain ⟨-, -, -, placed, small⟩ := id body
        rcases enter_cases stored captures equal small
            (Nat.le_trans (Nat.le_add_right _ _) placed.stop_le) with
          ⟨limit, last, full⟩ | ⟨entered, -⟩
        · rw [full] at called
          cases called
        · rw [entered] at called
          cases called
          exact ⟨_, captured, equal ▸ body, rfl⟩

end Deliveries

end Machine

open Machine

/-! ## Expressions -/

/-- The code of an expression delivers one value to its end, for machines that have come to a value
within the given fuel. -/
def ExprDelivers (fuel : Nat) (expr : Expr) : Prop :=
  ∀ {globals : Name → Option Nat} {frames after : List Frame} {code : List Instr}
    {machine : Machine},
    expr.generate globals machine.pc frames = .ok (code, after) →
    expr.Fits globals machine.pc frames → machine.code.Places machine.pc code →
    machine.Underway fuel →
    Delivers fuel machine machine (machine.pc + Instr.sizeAll code) 1

section Forms

variable {fuel : Nat} {globals : Name → Option Nat} {frames after : List Frame}
  {code : List Instr} {machine : Machine}

theorem exprDelivers_constant {expr : Expr} {constant : Constant}
    (generates : ∀ globals offset frames,
      expr.generate globals offset frames = .ok ([.push constant], frames)) :
    ExprDelivers fuel expr := by
  intro globals frames after code machine generated _ placed underway
  rw [generates] at generated
  cases generated
  rw [Instr.sizeAll_singleton]
  exact .of_pushes (pushes_constant constant) underway placed.instrAt

theorem exprDelivers_var (span : Span) (name : Name) : ExprDelivers fuel (.var span name) := by
  intro globals frames after code machine generated _ placed underway
  rcases Expr.generate_var generated with ⟨slot, -, rfl⟩ | ⟨-, -, slot, -, rfl⟩
  · rw [Instr.sizeAll_singleton]
    exact .of_pushes (pushes_get _) underway placed.instrAt
  · rw [Instr.sizeAll_singleton]
    exact .of_pushes (pushes_getGlobal _) underway placed.instrAt

/-- Values that have been pushed stay when the machine jumps. -/
theorem Machine.Delivers.then_jump {start : Machine} {pc count size target : Nat}
    (delivers : Delivers fuel start machine pc count)
    (decoded : start.code.instrAt pc = .ok (.jump (Expr.word target), size))
    (fits : target < Expr.operandRange) : Delivers fuel start machine target count := by
  refine delivers.bind fun counted underway => ?_
  rw [← counted]
  exact (Delivers.of_jump underway decoded fits).above

theorem exprDelivers_ifThen (span : Span) {test consequent : Expr}
    (testDelivers : ExprDelivers fuel test) (thenDelivers : ExprDelivers fuel consequent) :
    ExprDelivers fuel (.ifThen span test consequent) := by
  intro globals frames after code machine generated fits placed underway
  obtain ⟨testCode, middle, thenCode, tested, chosen, rfl⟩ := Expr.generate_ifThen generated
  obtain ⟨testFits, thenSmall, stopSmall, thenFits⟩ := fits.ifThen tested chosen
  have branchPlaced := placed.left.right
  have thenPlaced := placed.right
  rw [Instr.sizeAll_append, ← Nat.add_assoc, Expr.thenOffset_eq]
  rw [Expr.thenOffset_eq] at thenPlaced
  refine (testDelivers tested testFits placed.left.left underway).bind
    fun {values heap events} counted underway => ?_
  obtain ⟨value, rfl⟩ := List.length_eq_one_iff.mp counted
  rcases Delivers.of_branch underway branchPlaced.instrAt thenSmall with jumped | passed
  · refine jumped.bind fun {values heap events} counted underway => ?_
    obtain rfl := List.length_eq_zero_iff.mp counted
    exact (thenDelivers chosen thenFits thenPlaced underway).above
  · refine passed.bind fun {values heap events} counted underway => ?_
    obtain rfl := List.length_eq_zero_iff.mp counted
    have pushed := Delivers.of_pushes (pushes_constant .nil) underway branchPlaced.tail.instrAt
    exact pushed.above.then_jump branchPlaced.tail.tail.instrAt stopSmall

theorem exprDelivers_ifElse (span : Span) {test consequent alternative : Expr}
    (testDelivers : ExprDelivers fuel test) (thenDelivers : ExprDelivers fuel consequent)
    (elseDelivers : ExprDelivers fuel alternative) :
    ExprDelivers fuel (.ifElse span test consequent alternative) := by
  intro globals frames after code machine generated fits placed underway
  obtain ⟨testCode, first, elseCode, second, thenCode, tested, otherwise, chosen, rfl⟩ :=
    Expr.generate_ifElse generated
  obtain ⟨testFits, thenSmall, elseFits, stopSmall, thenFits⟩ :=
    fits.ifElse tested otherwise chosen
  have branchPlaced := placed.right
  have elsePlaced := branchPlaced.tail.left
  have jumpPlaced := branchPlaced.tail.right
  have thenPlaced := jumpPlaced.tail
  rw [Expr.stop_of_ifElse]
  refine (testDelivers tested testFits placed.left underway).bind
    fun {values heap events} counted underway => ?_
  obtain ⟨value, rfl⟩ := List.length_eq_one_iff.mp counted
  rcases Delivers.of_branch underway branchPlaced.instrAt thenSmall with jumped | passed
  · refine jumped.bind fun {values heap events} counted underway => ?_
    obtain rfl := List.length_eq_zero_iff.mp counted
    exact (thenDelivers chosen thenFits thenPlaced underway).above
  · refine passed.bind fun {values heap events} counted underway => ?_
    obtain rfl := List.length_eq_zero_iff.mp counted
    exact (elseDelivers otherwise elseFits elsePlaced underway).above.then_jump
      jumpPlaced.instrAt stopSmall

/-- The loads of captures push one value each. -/
theorem Machine.Delivers.of_loads {captures : List Capture}
    (placed : machine.code.Places machine.pc
      (captures.map fun capture => .get (Expr.word capture.parentSlot)))
    (underway : machine.Underway fuel) :
    Delivers fuel machine machine (machine.pc + Instr.sizeAll (captures.map fun capture =>
      .get (Expr.word capture.parentSlot))) captures.length := by
  induction captures generalizing machine with
  | nil => exact underway.delivers
  | cons capture rest ih =>
      have loaded := Delivers.of_pushes (pushes_get _) underway placed.instrAt
      refine loaded.bind fun {values heap events} counted underway => ?_
      have upper := (ih placed.tail underway).above
      rw [List.map_cons, Instr.sizeAll_cons, ← Nat.add_assoc, List.length_cons, Nat.add_comm _ 1,
        ← counted]
      exact upper

theorem exprDelivers_lambda (span : Span) (self : Option Name) (parameters : List Name)
    (body : Expr) : ExprDelivers fuel (.lambda span self parameters body) := by
  intro globals frames after code machine generated fits placed underway
  obtain ⟨-, bodyCode, bodyFrames, inner, rfl, -⟩ := Expr.generate_lambda_raw generated
  obtain ⟨stopSmall, bodyFits, -, entrySmall, aritySmall, capturesSmall⟩ := fits.lambda_raw inner
  rw [Expr.lambdaCode_eq] at placed ⊢
  have bodyPlaced := placed.tail.left
  have madePlaced := placed.tail.right
  rw [Expr.stop_of_body] at madePlaced
  rw [Instr.sizeAll_cons, Instr.sizeAll_append, ← Nat.add_assoc, ← Nat.add_assoc,
    Expr.stop_of_body, Instr.sizeAll_append, Instr.sizeAll_singleton, ← Nat.add_assoc]
  refine (Delivers.of_jump underway placed.instrAt stopSmall).bind
    fun {values heap events} counted underway => ?_
  obtain rfl := List.length_eq_zero_iff.mp counted
  refine (Delivers.of_loads madePlaced.left underway).above.bind
    fun {values heap events} counted underway => ?_
  rw [List.length_nil, Nat.zero_add] at counted
  rw [← counted] at madePlaced capturesSmall ⊢
  have held : machine.code.HoldsBody (machine.pc + Expr.jumpSize) parameters.length :=
    .intro rfl inner bodyFits bodyPlaced entrySmall
  exact .of_makeLambda underway madePlaced.right.instrAt held aritySmall capturesSmall

/-- The code of expressions one after the other delivers a value for each. -/
theorem exprsDeliver {exprs : List Expr} (each : ∀ expr ∈ exprs, ExprDelivers fuel expr)
    (generated : Expr.generateAll globals machine.pc frames exprs = .ok (code, after))
    (fits : Expr.FitsAll globals machine.pc frames exprs)
    (placed : machine.code.Places machine.pc code) (underway : machine.Underway fuel) :
    Delivers fuel machine machine (machine.pc + Instr.sizeAll code) exprs.length := by
  induction exprs generalizing frames code machine with
  | nil =>
      rw [Expr.generateAll] at generated
      cases generated
      exact underway.delivers
  | cons expr rest ih =>
      obtain ⟨head, tail⟩ := List.forall_mem_cons.mp each
      obtain ⟨firstCode, middle, restCode, first, rested, rfl⟩ := Expr.generateAll_cons generated
      obtain ⟨firstFits, restFits⟩ := fits.cons first
      refine (head first firstFits placed.left underway).bind
        fun {values heap events} counted underway => ?_
      have upper := (ih tail rested restFits placed.right underway).above
      rw [Instr.sizeAll_append, ← Nat.add_assoc, List.length_cons, Nat.add_comm _ 1, ← counted]
      exact upper

/-- The body of a closure delivers its result to where the call was made from. -/
theorem Machine.Delivers.of_body {start : Machine} {returnTo entry : Nat} {handle : UInt32}
    {arity : Int} {values captured : List Value} {heap : Heap} {events : List Event}
    (bodies : ∀ body, ExprDelivers fuel body) (held : start.code.HoldsBody entry values.length)
    (underway : (start.entered returnTo entry handle arity values captured heap events).Underway
      fuel) :
    Delivers (fuel + 1) start
      (start.entered returnTo entry handle arity values captured heap events) returnTo 1 := by
  obtain ⟨-, generated, fits, placed, -⟩ := held
  obtain ⟨counted, through, underway⟩ := bodies _ generated fits placed.left underway
  obtain ⟨result, rfl⟩ := List.length_eq_one_iff.mp counted
  obtain ⟨rest, laterHeap, laterEvents, next, rfl, sound, executed, stepped, completes⟩ :=
    underway.step placed.right.instrAt
  rw [execute, leave_entered] at executed
  exact .of_gives through (.of_gives (.single stepped)
    (.of_push_eq_next sound executed completes.succ.succ))

/-- A call delivers one value, if all bodies do so within less fuel. -/
theorem Machine.Delivers.of_call {start : Machine} {pc size : Nat} {values : List Value}
    {callee : Value} {heap : Heap} {events : List Event}
    (bodies : ∀ body, ExprDelivers fuel body)
    (underway : (start.advance pc (values ++ [callee]) heap events).Underway (fuel + 1))
    (decoded : start.code.instrAt pc = .ok (.call (Expr.word values.length), size))
    (fits : values.length < Expr.operandRange) :
    Delivers (fuel + 1) start (start.advance pc (values ++ [callee]) heap events)
      (pc + size) 1 := by
  obtain ⟨rest, laterHeap, laterEvents, next, enough, sound, executed, stepped, completes⟩ :=
    underway.step decoded
  cases enough
  rw [execute_call _ fits] at executed
  cases callee with
  | builtin name arity =>
      simp only [Value.onMachine, callBuiltin_advance] at executed
      split at executed
      · cases executed
      · exact .of_gives (.single stepped) (.of_push_eq_next sound executed completes.succ)
  | closure handle arity =>
      simp only [Value.onMachine] at executed
      obtain ⟨entry, captured, held, rfl⟩ := enter_eq_next sound executed
      exact .of_gives (.single stepped) (.of_body bodies held ⟨sound, completes⟩)
  | nil | int | bool => cases executed

theorem exprDelivers_call (bodies : ∀ body, ExprDelivers fuel body) (span : Span) {callee : Expr}
    {arguments : List Expr} (calleeDelivers : ExprDelivers (fuel + 1) callee)
    (argumentsDeliver : ∀ argument ∈ arguments, ExprDelivers (fuel + 1) argument) :
    ExprDelivers (fuel + 1) (.call span callee arguments) := by
  intro globals frames after code machine generated fits placed underway
  obtain ⟨argumentCode, middle, calleeCode, supplied, called, rfl⟩ := Expr.generate_call generated
  obtain ⟨argumentsFit, calleeFits, countSmall⟩ := fits.call supplied
  rw [Instr.sizeAll_append, Instr.sizeAll_append, Instr.sizeAll_singleton, ← Nat.add_assoc,
    ← Nat.add_assoc]
  refine (exprsDeliver argumentsDeliver supplied argumentsFit placed.left underway).bind
    fun {values heap events} counted underway => ?_
  have callPlaced := placed.right.right
  rw [← counted] at callPlaced countSmall ⊢
  have upper := calleeDelivers called calleeFits placed.right.left underway
  obtain ⟨single, gives, underway⟩ := upper
  obtain ⟨value, rfl⟩ := List.length_eq_one_iff.mp single
  rw [advance_advance] at gives underway
  exact .of_gives gives (.of_call bodies underway callPlaced.instrAt countSmall)

end Forms

/-- Code of an expression that a run passes through on its way to a value delivers one value. -/
theorem exprDelivers (fuel : Nat) (expr : Expr) : ExprDelivers fuel expr := by
  -- The fuel bounds the calls, whose bodies are no parts of the expression.
  induction fuel generalizing expr with
  | zero =>
      intro globals frames after code machine _ _ _ underway
      obtain ⟨value, last, ran⟩ := underway.completes
      cases ran
  | succ fuel bodies =>
      induction expr using Expr.induction with
      | int span number => exact exprDelivers_constant fun _ _ _ => by rw [Expr.generate]
      | bool span flag => exact exprDelivers_constant fun _ _ _ => by rw [Expr.generate]
      | var span name => exact exprDelivers_var span name
      | ifThen span test consequent testIh thenIh => exact exprDelivers_ifThen span testIh thenIh
      | ifElse span test consequent alternative testIh thenIh elseIh =>
          exact exprDelivers_ifElse span testIh thenIh elseIh
      | define span name value valueIh =>
          intro globals frames after code machine generated
          exact absurd generated Expr.generate_define
      | lambda span self parameters body bodyIh =>
          exact exprDelivers_lambda span self parameters body
      | call span callee arguments calleeIh argumentsIh =>
          exact exprDelivers_call bodies span calleeIh argumentsIh

end ClosureLisp
