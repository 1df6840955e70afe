import ClosureLisp.Proofs.Retention
import ClosureLisp.Proofs.Termination

/-!
# Runs under different stack limits

Under a lower stack limit a machine does what it does under a higher one, step by step, up to the
push for which there is no room. So a program that stops with anything else than a full stack
stops in the same way under every higher limit, and a program that runs on and on as the limit is
raised stops with a full stack under each of them.
-/

namespace ClosureLisp

namespace Machine

/-- The same machine with another stack limit. -/
def withLimit (machine : Machine) (limit : Nat) : Machine :=
  { machine with stackLimit := limit }

section WithLimit

variable (machine : Machine) (limit : Nat)

@[simp]
theorem withLimit_globals : (machine.withLimit limit).globals = machine.globals := rfl

@[simp]
theorem withLimit_heap : (machine.withLimit limit).heap = machine.heap := rfl

@[simp]
theorem withLimit_code : (machine.withLimit limit).code = machine.code := rfl

@[simp]
theorem withLimit_pc : (machine.withLimit limit).pc = machine.pc := rfl

@[simp]
theorem withLimit_stack : (machine.withLimit limit).stack = machine.stack := rfl

@[simp]
theorem withLimit_activations : (machine.withLimit limit).activations = machine.activations := rfl

end WithLimit

/-- An effect under a higher stack limit and the same one under a lower limit, which may be that
the stack is full. -/
inductive Curtails (limit : Nat) : Effect → Effect → Prop where
  | next (machine : Machine) (lower : limit ≤ machine.stackLimit) :
      Curtails limit (.next machine) (.next (machine.withLimit limit))
  | fault (cause : Fault) (machine : Machine) :
      Curtails limit (.fault cause machine) (.fault cause (machine.withLimit limit))
  | overrun (machine : Machine) :
      Curtails limit (.overrun machine) (.overrun (machine.withLimit limit))
  | full (effect : Effect) (machine : Machine) :
      Curtails limit effect (.fault (.stackLimit limit) machine)

namespace Curtails

variable {limit : Nat} {machine : Machine}

theorem push (machine : Machine) (lower : limit ≤ machine.stackLimit) (value : Value) :
    Curtails limit (machine.push value) ((machine.withLimit limit).push value) := by
  by_cases full : limit ≤ machine.stack.size
  · have stopped : (machine.withLimit limit).push value =
        .fault (.stackLimit limit) (machine.withLimit limit) := if_pos full
    rw [stopped]
    exact .full _ _
  · have pushed : machine.push value =
        .next { machine with stack := machine.stack.push value } := if_neg (by omega)
    have again : (machine.withLimit limit).push value =
        .next ({ machine with stack := machine.stack.push value }.withLimit limit) := if_neg full
    rw [pushed, again]
    exact .next _ lower

theorem andThen {long short : Effect} {further : Machine → Effect}
    (first : Curtails limit long short)
    (second : ∀ machine : Machine, limit ≤ machine.stackLimit →
      Curtails limit (further machine) (further (machine.withLimit limit))) :
    Curtails limit (long.andThen further) (short.andThen further) := by
  cases first with
  | next machine lower => exact second machine lower
  | fault cause machine => exact .fault cause machine
  | overrun machine => exact .overrun machine
  | full effect machine => exact .full _ machine

theorem pushAll (lower : limit ≤ machine.stackLimit) (values : List Value) :
    Curtails limit (machine.pushAll values) ((machine.withLimit limit).pushAll values) := by
  induction values generalizing machine with
  | nil => exact .next machine lower
  | cons value rest ih =>
      exact (push machine lower value).andThen fun machine lower => ih lower

theorem pop (lower : limit ≤ machine.stackLimit) {further : Value → Machine → Effect}
    (second : ∀ (value : Value) (machine : Machine), limit ≤ machine.stackLimit →
      Curtails limit (further value machine) (further value (machine.withLimit limit))) :
    Curtails limit (machine.pop further) ((machine.withLimit limit).pop further) := by
  rw [Machine.pop, Machine.pop, withLimit_stack]
  cases machine.stack.back? with
  | none => exact .fault _ machine
  | some value => exact second value { machine with stack := machine.stack.pop } lower

theorem checkTarget (lower : limit ≤ machine.stackLimit) (target : Int32)
    {further : Machine → Effect}
    (second : ∀ machine : Machine, limit ≤ machine.stackLimit →
      Curtails limit (further machine) (further (machine.withLimit limit))) :
    Curtails limit (machine.checkTarget target further)
      ((machine.withLimit limit).checkTarget target further) := by
  have same : (machine.withLimit limit).isTarget target = machine.isTarget target := rfl
  rw [Machine.checkTarget, Machine.checkTarget, same]
  split
  · exact second machine lower
  · exact .fault _ machine

theorem load (lower : limit ≤ machine.stackLimit) (slot : Int32) :
    Curtails limit (machine.load slot) ((machine.withLimit limit).load slot) := by
  rw [Machine.load, Machine.load, withLimit_activations, withLimit_stack]
  cases machine.activations with
  | nil => exact .fault _ machine
  | cons activation outer =>
      dsimp only
      split
      · exact .fault _ machine
      · cases machine.stack[activation.base + slot.toInt.toNat]? with
        | none => exact .overrun machine
        | some value => exact push machine lower value

theorem loadGlobal (lower : limit ≤ machine.stackLimit) (slot : Int32) :
    Curtails limit (machine.loadGlobal slot) ((machine.withLimit limit).loadGlobal slot) := by
  rw [Machine.loadGlobal, Machine.loadGlobal, withLimit_globals]
  split
  · exact .fault _ machine
  · cases machine.globals[slot.toInt.toNat]? with
    | none => exact .fault _ machine
    | some value => exact push machine lower value

theorem branch (lower : limit ≤ machine.stackLimit) (target : Int32) :
    Curtails limit (machine.branch target) ((machine.withLimit limit).branch target) := by
  refine checkTarget lower target fun machine lower => pop lower fun condition machine lower => ?_
  split
  · exact .next _ lower
  · exact .next machine lower
  · exact .fault _ machine

theorem callBuiltin (lower : limit ≤ machine.stackLimit) (name : Name) (count : Nat) :
    Curtails limit (machine.callBuiltin name count)
      ((machine.withLimit limit).callBuiltin name count) := by
  rw [Machine.callBuiltin, Machine.callBuiltin, withLimit_stack]
  dsimp only
  cases Primitive.applyNamed name
      (machine.stack.extract (machine.stack.size - count) machine.stack.size).toList with
  | error cause =>
      exact .fault cause
        { machine with stack := machine.stack.shrink (machine.stack.size - count) }
  | ok yielded =>
      obtain ⟨result, shown⟩ := yielded
      cases shown with
      | none => exact push { machine with stack := machine.stack.shrink _ } lower result
      | some value =>
          exact push
            { machine with
              stack := machine.stack.shrink _
              events := .displayed value :: machine.events } lower result

theorem enter (lower : limit ≤ machine.stackLimit) (handle : UInt32) (arity : Int) (count : Nat) :
    Curtails limit (machine.enter handle arity count)
      ((machine.withLimit limit).enter handle arity count) := by
  rw [Machine.enter, Machine.enter, withLimit_heap]
  cases machine.heap.get handle with
  | error cause => exact .fault cause machine
  | ok closure =>
      dsimp only
      split
      · exact .fault _ machine
      · exact checkTarget lower _ fun machine lower =>
          (pushAll lower _).andThen fun machine lower => .next _ lower

theorem call (lower : limit ≤ machine.stackLimit) (count : Int32) :
    Curtails limit (machine.call count) ((machine.withLimit limit).call count) := by
  refine pop lower fun callee machine lower => ?_
  rw [withLimit_stack]
  split
  · exact .fault _ machine
  · cases callee with
    | builtin name arity => exact callBuiltin lower name _
    | closure handle arity => exact enter lower handle arity _
    | nil | int | bool => exact .fault _ machine

theorem leave (lower : limit ≤ machine.stackLimit) :
    Curtails limit machine.leave (machine.withLimit limit).leave := by
  rw [Machine.leave, Machine.leave, withLimit_activations]
  cases machine.activations with
  | nil => exact .fault _ machine
  | cons activation outer =>
      refine pop lower fun result machine lower => ?_
      rw [withLimit_stack]
      split
      · exact .fault _ machine
      · exact push
          { machine with
            activations := outer
            stack := machine.stack.shrink activation.base
            pc := activation.returnTo } lower result

theorem makeLambda (lower : limit ≤ machine.stackLimit) (entry arity captures : Int32) :
    Curtails limit (machine.makeLambda entry arity captures)
      ((machine.withLimit limit).makeLambda entry arity captures) := by
  rw [Machine.makeLambda, Machine.makeLambda, withLimit_stack]
  split
  · exact .fault _ machine
  · split
    · exact .fault _ machine
    · exact checkTarget lower entry fun machine lower =>
        push { machine with stack := machine.stack.shrink _, heap := _ } lower _

theorem execute (lower : limit ≤ machine.stackLimit) (instr : Instr) :
    Curtails limit (machine.execute instr) ((machine.withLimit limit).execute instr) := by
  cases instr with
  | push constant => exact push machine lower constant.value
  | pop =>
      rw [Machine.execute, Machine.execute]
      refine pop lower fun value machine lower => ?_
      rw [withLimit_activations]
      split
      · exact .next { machine with result := some value } lower
      · exact .next machine lower
  | get slot => exact load lower slot
  | defGlobal =>
      exact pop lower fun value machine lower =>
        .next { machine with globals := machine.globals.push value } lower
  | getGlobal slot => exact loadGlobal lower slot
  | jump target =>
      exact checkTarget lower target fun machine lower =>
        .next (machine.goTo target) lower
  | jumpIf target => exact branch lower target
  | call count => exact call lower count
  | ret => exact leave lower
  | makeLambda entry arity captures => exact makeLambda lower entry arity captures

end Curtails

/-! ## Whole runs -/

theorem collectIfNeeded_withLimit (machine : Machine) (limit : Nat) :
    (machine.withLimit limit).collectIfNeeded = machine.collectIfNeeded.withLimit limit := by
  rw [collectIfNeeded, collectIfNeeded, withLimit_heap]
  split <;> rfl

theorem ready_withLimit (machine : Machine) (limit : Nat) (instr : Instr) (size : Nat) :
    (machine.withLimit limit).ready instr size = (machine.ready instr size).withLimit limit := by
  have same : (machine.collectIfNeeded.withLimit limit).trace = machine.collectIfNeeded.trace := rfl
  rw [ready, ready, collectIfNeeded_withLimit, traceInstr, traceInstr, same]
  split <;> rfl

/-- A step under a lower stack limit finds the stack full, or it does what it does under a higher
limit. -/
theorem step_withLimit {machine : Machine} {limit : Nat} (lower : limit ≤ machine.stackLimit) :
    (∃ pc opcode last, (machine.withLimit limit).step =
        .halted (.error (.fault pc opcode (.stackLimit limit))) last) ∨
      (∃ next, machine.step = .running next ∧ limit ≤ next.stackLimit ∧
        (machine.withLimit limit).step = .running (next.withLimit limit)) ∨
      ∃ halt last, machine.step = .halted halt last ∧
        (machine.withLimit limit).step = .halted halt (last.withLimit limit) := by
  cases decoded : machine.code.instrAt machine.pc with
  | error error =>
      refine .inr (.inr ?_)
      rw [step, step, withLimit_pc, withLimit_code]
      split
      · simp only [collectIfNeeded_withLimit, withLimit_code, withLimit_pc, collectIfNeeded_code,
          collectIfNeeded_pc, decoded]
        exact ⟨_, _, rfl, rfl⟩
      · exact ⟨_, _, rfl, rfl⟩
  | ok found =>
      obtain ⟨instr, size⟩ := found
      have long := step_of_instrAt decoded
      have short : (machine.withLimit limit).step = Progress.ofEffect machine.pc instr
          (((machine.withLimit limit).ready instr size).execute instr) := step_of_instrAt decoded
      rw [ready_withLimit] at short
      have under : limit ≤ (machine.ready instr size).stackLimit := by
        rw [ready_eq_advance]
        exact lower
      have curtails := Curtails.execute under instr
      generalize (machine.ready instr size).execute instr = effect at *
      generalize ((machine.ready instr size).withLimit limit).execute instr = effect at *
      cases curtails with
      | next next lower => exact .inr (.inl ⟨next, long, lower, short⟩)
      | fault cause last => exact .inr (.inr ⟨_, last, long, short⟩)
      | overrun last => exact .inr (.inr ⟨_, last, long, short⟩)
      | full _ last => exact .inl ⟨_, _, last, short⟩

/-- A run under a lower stack limit ends with a full stack, or it is the run under a higher
limit. -/
theorem run_withLimit (machine : Machine) {limit : Nat} (lower : limit ≤ machine.stackLimit)
    (fuel : Nat) :
    (∃ pc opcode last, run fuel (machine.withLimit limit) =
        (.error (.fault pc opcode (.stackLimit limit)), last)) ∨
      run fuel (machine.withLimit limit) =
        ((run fuel machine).1, (run fuel machine).2.withLimit limit) := by
  induction fuel generalizing machine with
  | zero => exact .inr rfl
  | succ fuel ih =>
      rw [run, run]
      rcases step_withLimit lower with
        ⟨pc, opcode, last, full⟩ | ⟨next, long, under, short⟩ | ⟨halt, last, long, short⟩
      · rw [full]
        exact .inl ⟨pc, opcode, last, rfl⟩
      · rw [long, short]
        exact ih next under
      · rw [long, short]
        exact .inr rfl

theorem step_stackLimit (machine : Machine) :
    machine.step.machine.stackLimit = machine.stackLimit := by
  have collected : machine.collectIfNeeded.stackLimit = machine.stackLimit := by
    unfold collectIfNeeded
    split <;> rfl
  rcases machine.step_evolves with same | evolves
  · rw [same]
  · rw [evolves.stackLimit, collected]

/-! ## Runaway programs -/

/-- Code that runs away: however many steps it is to take, there is a stack limit under which it
is still running after them. -/
def RunsAway (options : MachineOptions) (code : Code) : Prop :=
  ∀ steps, ∃ limit : Int,
    ((new { options with stackLimit := limit }).runFrom steps code 0).1 = .outOfFuel

/-- Code that runs away under some limits ends with a full stack whenever it ends. -/
theorem RunsAway.eq_stackLimit {options : MachineOptions} {code : Code} {made : Nat} {halt : Halt}
    {last : Machine} (away : RunsAway options code)
    (ends : ((new options).prepare code 0).Ends made halt last) (halts : halt ≠ .outOfFuel) :
    ∃ pc opcode, halt = .error (.fault pc opcode (.stackLimit (new options).stackLimit)) := by
  obtain ⟨enough, reached⟩ := ends.exists_fuel
  have ran := reached enough (Nat.le_refl _)
  obtain ⟨limit, running⟩ := away enough
  rw [runFrom_zero] at running
  -- The two machines differ in their limits only, and either one may be the higher.
  rcases Nat.le_total (new { options with stackLimit := limit }).stackLimit
      (new options).stackLimit with lower | higher
  · have same : (new { options with stackLimit := limit }).prepare code 0 =
        ((new options).prepare code 0).withLimit
          (new { options with stackLimit := limit }).stackLimit := rfl
    rw [same] at running
    rcases run_withLimit ((new options).prepare code 0) lower enough with
      ⟨pc, opcode, last, full⟩ | equal
    · rw [full] at running
      cases running
    · rw [equal, ran] at running
      exact absurd running halts
  · have same : (new options).prepare code 0 =
        ((new { options with stackLimit := limit }).prepare code 0).withLimit
          (new options).stackLimit := rfl
    rw [same] at ran
    rcases run_withLimit ((new { options with stackLimit := limit }).prepare code 0) higher
        enough with ⟨pc, opcode, last, full⟩ | equal
    · rw [full] at ran
      cases ran
      exact ⟨pc, opcode, rfl⟩
    · rw [equal, running] at ran
      cases ran
      exact absurd rfl halts

end Machine

/-- Compiled programs halt: whatever the settings, the run of a compiled program on a fresh machine
ends after finitely many steps, with a value or an error, and the run of a program that would run
away ends because the stack is full. -/
theorem Program.run_halts (exprs : List Expr) (program : Program)
    (compiled : Program.ofExprs exprs = .ok program) (fits : Compiler.new.Fits exprs)
    (options : MachineOptions) :
    ∃ halt last,
      (∃ enough, ∀ fuel, enough ≤ fuel →
        (Machine.new options).runFrom fuel program.code 0 = (halt, last)) ∧
      ((∃ value, halt = .value value) ∨ ∃ error, halt = .error error) ∧
      (Machine.RunsAway options program.code → ∃ pc opcode,
        halt = .error (.fault pc opcode (.stackLimit (Machine.new options).stackLimit))) := by
  obtain ⟨made, halt, last, ends, outcome⟩ := Machine.ends_of_ofExprs compiled fits options
  have halts : halt ≠ .outOfFuel := by
    rcases outcome with ⟨value, rfl⟩ | ⟨error, rfl⟩ <;> exact Halt.noConfusion
  refine ⟨halt, last, ?_, outcome, fun away => away.eq_stackLimit ends halts⟩
  obtain ⟨enough, reached⟩ := ends.exists_fuel
  refine ⟨enough, fun fuel within => ?_⟩
  rw [Machine.runFrom_zero]
  exact reached fuel within

/-! ## A function that only calls itself -/

namespace Recursion

/-- The program `(define f (lambda () (f))) (f)`. -/
def exprs : List Expr :=
  [.define default [102]
    (.lambda default (some [102]) [] (.call default (.var default [102]) [])),
    .call default (.var default [102]) []]

/-- Its code. The body stands at offset five, and its frame has the slot of the function only. -/
def code : Code :=
  (Instr.encodeAll [.jump 16, .get 0, .call 0, .ret, .makeLambda 5 0 0, .defGlobal, .getGlobal 9,
    .call 0, .pop]).toArray

/-- The function on the stack of a machine that has made it. -/
def function : Value := .closure 1 0

/-- A machine at the entry of the function. -/
structure Looping (machine : Machine) : Prop where
  code : machine.code = Recursion.code
  pc : machine.pc = 5
  untraced : machine.trace = false
  stored : machine.heap.get 1 = .ok ⟨0, [], 5⟩
  small : machine.heap.needsCollection = false
  active : ∃ activation outer, machine.activations = activation :: outer ∧
    activation.locals = 1 ∧ machine.stack[activation.base]? = some function

/-- A machine that neither collects nor traces only moves its program counter. -/
theorem ready_eq (machine : Machine) (untraced : machine.trace = false)
    (small : machine.heap.needsCollection = false) (instr : Instr) (size : Nat) :
    machine.ready instr size = { machine with pc := machine.pc + size } := by
  have same : machine.collectIfNeeded = machine := by simp [Machine.collectIfNeeded, small]
  simp [Machine.ready, Machine.traceInstr, same, untraced]

/-- The function calls itself: two steps later the machine is at its entry again, on a stack that
is higher by one value. -/
theorem Looping.steps {machine : Machine} (looping : Looping machine)
    (room : machine.stack.size < machine.stackLimit) :
    ∃ middle next, machine.step = .running middle ∧ middle.step = .running next ∧
      Looping next ∧ next.stack.size = machine.stack.size + 1 ∧
      next.stackLimit = machine.stackLimit := by
  obtain ⟨code, pc, untraced, stored, small, activation, outer, active, single, held⟩ := looping
  have loaded : machine.code.instrAt machine.pc = .ok (.get 0, 5) := by
    rw [code, pc]
    rfl
  have first : machine.step =
      .running { machine with pc := 10, stack := machine.stack.push function } := by
    rw [Machine.step_of_instrAt loaded, ready_eq machine untraced small]
    have none : (0 : Int32).toInt = 0 := rfl
    simp only [Machine.execute, Machine.load, active, single, none]
    simp [held, Machine.push, Nat.not_le.mpr room, pc, Progress.ofEffect]
  have called : machine.code.instrAt 10 = .ok (.call 0, 5) := by
    rw [code]
    rfl
  have second : ({ machine with pc := 10, stack := machine.stack.push function }).step =
      .running { machine with
        pc := 5
        stack := machine.stack.push function
        activations := ⟨15, machine.stack.size, 1, 1⟩ :: machine.activations } := by
    have prepared := ready_eq { machine with pc := 10, stack := machine.stack.push function }
      untraced small (.call 0) 5
    rw [Machine.step_of_instrAt called, prepared]
    have none : (0 : Int32).toInt = 0 := rfl
    have available : ¬ (machine.stack.size : Int) < 0 := by omega
    have inside : ∀ stack pc, ({ machine with pc := pc, stack := stack }).isTarget 5 = true := by
      intro stack pc
      rw [Machine.isTarget, code]
      rfl
    simp [Machine.execute, Machine.call, Machine.pop, function, none, available, Machine.enter,
      stored, Machine.checkTarget, inside, Machine.pushAll, Machine.push, Nat.not_le.mpr room,
      Effect.andThen, Progress.ofEffect]
  refine ⟨_, _, first, second, ⟨code, rfl, untraced, stored, small, _, _, rfl, rfl, ?_⟩, ?_, rfl⟩
  · simp
  · simp

/-- The function goes on calling itself as long as there is room. -/
theorem Looping.run {machine : Machine} {fuel : Nat} (looping : Looping machine)
    (room : machine.stack.size + fuel < machine.stackLimit) :
    (Machine.run fuel machine).1 = .outOfFuel := by
  induction fuel using Nat.strongRecOn generalizing machine with
  | _ fuel ih =>
      obtain ⟨middle, next, first, second, again, higher, same⟩ := looping.steps (by omega)
      match fuel with
      | 0 => rfl
      | 1 =>
          rw [Machine.run, first]
          rfl
      | rest + 2 =>
          rw [Machine.run, first]
          dsimp only
          rw [Machine.run, second]
          exact ih rest (by omega) again (by omega)

/-- After five steps the function is entered, whatever the limit. -/
theorem looping_start {limit : Nat} (room : 2 ≤ limit) :
    ∃ machine, Looping machine ∧ machine.stack.size = 1 ∧ machine.stackLimit = limit ∧
      Machine.run 5 ((Machine.new { stackLimit := limit }).prepare code 0) =
        (.outOfFuel, machine) := by
  have positive : ¬ (limit : Int) ≤ 0 := by omega
  have limited : (Machine.new { stackLimit := limit }).stackLimit = limit := if_neg positive
  -- Under the limit two the steps can be computed, and under a higher one they are the same.
  have low : ((Machine.new { stackLimit := limit }).prepare code 0).withLimit 2 =
      (Machine.new { stackLimit := 2 }).prepare code 0 := rfl
  have running : (Machine.run 5 ((Machine.new { stackLimit := 2 }).prepare code 0)).1 =
      .outOfFuel := rfl
  have kept := Machine.run_keeps Machine.step_stackLimit
    ((Machine.new { stackLimit := limit }).prepare code 0) 5
  rcases Machine.run_withLimit ((Machine.new { stackLimit := limit }).prepare code 0)
    (limited.symm ▸ room) 5 with ⟨pc, opcode, last, full⟩ | equal
  · rw [low] at full
    rw [full] at running
    cases running
  · rw [low] at equal
    have halted := (congrArg Prod.fst equal).symm.trans running
    have fields := (congrArg Prod.snd equal).symm
    generalize Machine.run 5 ((Machine.new { stackLimit := limit }).prepare code 0) = reached at *
    obtain ⟨halt, machine⟩ := reached
    refine ⟨machine, ⟨congrArg Machine.code fields, congrArg Machine.pc fields,
      congrArg Machine.trace fields, ?_, ?_, ?_⟩, ?_, kept.trans limited, Prod.ext halted rfl⟩
    · exact congrArg (fun machine => machine.heap.get 1) fields
    · exact congrArg (fun machine => machine.heap.needsCollection) fields
    · refine ⟨_, _, congrArg Machine.activations fields, rfl, ?_⟩
      exact congrArg (fun machine => machine.stack[0]?) fields
    · exact congrArg (fun machine => machine.stack.size) fields

theorem runsAway : Machine.RunsAway {} code := by
  intro steps
  obtain ⟨machine, looping, height, limited, started⟩ :=
    looping_start (show 2 ≤ steps + 2 from Nat.le_add_left _ _)
  refine ⟨(steps + 2 : Nat), ?_⟩
  rw [Machine.runFrom_zero]
  have later := Machine.run_of_outOfFuel started steps
  have running : (Machine.run steps machine).1 = .outOfFuel := looping.run (by omega)
  rw [← later, Nat.add_comm] at running
  by_contra halted
  rw [(Machine.run_of_halted rfl halted 5).1] at running
  exact halted running

end Recursion

theorem Program.run_halts_recursion :
    ∃ program, Program.ofExprs Recursion.exprs = .ok program ∧ ∃ pc opcode last enough,
      ∀ fuel, enough ≤ fuel → (Machine.new {}).runFrom fuel program.code 0 =
        (.error (.fault pc opcode (.stackLimit 65536)), last) := by
  have compiled : Program.ofExprs Recursion.exprs =
      .ok ⟨Recursion.code, predefinedNames ++ [[102]], 0⟩ := rfl
  have fits : Compiler.new.Fits Recursion.exprs := by
    unfold Compiler.Fits
    decide
  obtain ⟨halt, last, ⟨enough, reached⟩, -, overflows⟩ :=
    Program.run_halts Recursion.exprs _ compiled fits {}
  obtain ⟨pc, opcode, rfl⟩ := overflows Recursion.runsAway
  exact ⟨_, compiled, pc, opcode, last, enough, reached⟩

end ClosureLisp
