import ClosureLisp.Machine.Run

/-!
# Runs of the machine

`Machine.Runs` is the relation between a machine and a later state of it, with the number of
closures made on the way; `Machine.Ends` adds how the run halts, and `Machine.Gives` says instead
which handles have been given out. All of them determine what `Machine.run` yields once it has
enough fuel. `Machine.step_of_instrAt` is the only place
where a step is opened: a step makes the machine ready and executes one instruction.
-/

namespace ClosureLisp

/-- What a step comes to, given the effect of the instruction at an offset. -/
def Progress.ofEffect (pc : Nat) (instr : Instr) : Effect → Progress
  | .next machine => .running machine
  | .fault cause machine => .halted (.error (.fault pc instr.opcode cause)) machine
  | .overrun machine => .halted .overrun machine

namespace Machine

/-! ## One step -/

/-- A machine about to execute an instruction: collected if need be, the instruction traced, and
the program counter behind it. -/
def ready (machine : Machine) (instr : Instr) (size : Nat) : Machine :=
  { machine.collectIfNeeded.traceInstr instr with pc := machine.pc + size }

section Ready

variable (machine : Machine) (instr : Instr) (size : Nat)

@[simp]
theorem collectIfNeeded_pc : machine.collectIfNeeded.pc = machine.pc := by
  unfold collectIfNeeded
  split <;> rfl

@[simp]
theorem collectIfNeeded_code : machine.collectIfNeeded.code = machine.code := by
  unfold collectIfNeeded
  split <;> rfl

@[simp]
theorem ready_code : (machine.ready instr size).code = machine.code := by
  unfold ready traceInstr collectIfNeeded
  split <;> split <;> rfl

@[simp]
theorem ready_stack : (machine.ready instr size).stack = machine.stack := by
  unfold ready traceInstr collectIfNeeded
  split <;> split <;> rfl

@[simp]
theorem ready_activations : (machine.ready instr size).activations = machine.activations := by
  unfold ready traceInstr collectIfNeeded
  split <;> split <;> rfl

@[simp]
theorem ready_globals : (machine.ready instr size).globals = machine.globals := by
  unfold ready traceInstr collectIfNeeded
  split <;> split <;> rfl

@[simp]
theorem ready_result : (machine.ready instr size).result = machine.result := by
  unfold ready traceInstr collectIfNeeded
  split <;> split <;> rfl

@[simp]
theorem ready_trace : (machine.ready instr size).trace = machine.trace := by
  unfold ready traceInstr collectIfNeeded
  split <;> split <;> rfl

@[simp]
theorem ready_heap : (machine.ready instr size).heap = machine.collectIfNeeded.heap := by
  unfold ready traceInstr
  split <;> rfl

@[simp]
theorem collectIfNeeded_next : machine.collectIfNeeded.heap.next = machine.heap.next := by
  unfold collectIfNeeded
  split
  · exact machine.heap.next_collect machine.roots
  · rfl

/-- What is traced is no displayed value. -/
theorem ready_events :
    (machine.ready instr size).events = machine.events ∨
      machine.trace = true ∧ ∃ event, (∀ value, event ≠ .displayed value) ∧
        (machine.ready instr size).events = event :: machine.events := by
  have same : machine.collectIfNeeded.events = machine.events := by
    unfold collectIfNeeded
    split <;> rfl
  have trace : machine.collectIfNeeded.trace = machine.trace := by
    unfold collectIfNeeded
    split <;> rfl
  unfold ready traceInstr
  split
  · next traced => exact .inr ⟨trace ▸ traced, _, fun _ => Event.noConfusion, by rw [same]⟩
  · exact .inl same

end Ready

/-- A step on an instruction executes it on the ready machine. -/
theorem step_of_instrAt {machine : Machine} {instr : Instr} {size : Nat}
    (decoded : machine.code.instrAt machine.pc = .ok (instr, size)) :
    machine.step =
      Progress.ofEffect machine.pc instr ((machine.ready instr size).execute instr) := by
  rw [step, if_pos (Code.instrAt_offset_lt decoded)]
  simp only [collectIfNeeded_code, collectIfNeeded_pc, decoded]
  unfold Progress.ofEffect ready
  cases Machine.execute _ instr <;> rfl

/-! ## Closures made -/

/-- The number of handles. -/
def handleRange : Nat := 4294967296

/-- The number of closures that a step makes: a step makes at most one, and it does so exactly if
it moves the counter of handles. -/
def made (before after : Machine) : Nat :=
  if after.heap.next = before.heap.next then 0 else 1

/-- The number of closures made by a run with the given fuel. -/
def closuresMade : (fuel : Nat) → Machine → Nat
  | 0, _ => 0
  | fuel + 1, machine =>
      match machine.step with
      | .halted _ after => machine.made after
      | .running after => machine.made after + closuresMade fuel after

/-- The handles that a step gives out: the next one if it makes a closure, and else none. -/
def givenOut (before after : Machine) : List UInt32 :=
  if after.heap.next = before.heap.next then [] else [before.heap.next]

/-- The handles given out by a run with the given fuel, the first one first. -/
def handlesMade : (fuel : Nat) → Machine → List UInt32
  | 0, _ => []
  | fuel + 1, machine =>
      match machine.step with
      | .halted _ after => machine.givenOut after
      | .running after => machine.givenOut after ++ handlesMade fuel after

/-! ## Many steps -/

/-- A machine comes to a later state, making the given number of closures. -/
inductive Runs : Machine → Nat → Machine → Prop where
  | refl (machine : Machine) : Runs machine 0 machine
  | step {machine next last : Machine} {count : Nat} (stepped : machine.step = .running next)
      (rest : Runs next count last) : Runs machine (machine.made next + count) last

/-- A run of a machine halts, making the given number of closures. -/
def Ends (machine : Machine) (count : Nat) (halt : Halt) (last : Machine) : Prop :=
  ∃ middle before, machine.Runs before middle ∧ middle.step = .halted halt last ∧
    count = before + middle.made last

namespace Runs

theorem single {machine next : Machine} (stepped : machine.step = .running next) :
    machine.Runs (machine.made next) next :=
  .step stepped (.refl next)

theorem trans {first middle last : Machine} {count more : Nat} (left : first.Runs count middle)
    (right : middle.Runs more last) : first.Runs (count + more) last := by
  induction left with
  | refl => rwa [Nat.zero_add]
  | step stepped _ ih =>
      rw [Nat.add_assoc]
      exact .step stepped (ih right)

theorem ends {first middle last : Machine} {count more : Nat} {halt : Halt}
    (left : first.Runs count middle) (right : middle.Ends more halt last) :
    first.Ends (count + more) halt last := by
  obtain ⟨final, before, runs, halted, rfl⟩ := right
  exact ⟨final, count + before, left.trans runs, halted, (Nat.add_assoc _ _ _).symm⟩

/-- With enough fuel a run makes the closures made on the way to a later state. -/
theorem exists_le_closuresMade {first last : Machine} {count : Nat}
    (runs : first.Runs count last) : ∃ fuel, count ≤ closuresMade fuel first := by
  induction runs with
  | refl => exact ⟨0, Nat.le_refl _⟩
  | step stepped _ ih =>
      obtain ⟨fuel, made⟩ := ih
      refine ⟨fuel + 1, ?_⟩
      rw [closuresMade, stepped]
      exact Nat.add_le_add_left made _

/-- Within any fuel, a run uses it up or makes the closures made on the way to a later state. -/
theorem outOfFuel_or_le {first last : Machine} {count : Nat} (runs : first.Runs count last)
    (fuel : Nat) : (run fuel first).1 = .outOfFuel ∨ count ≤ closuresMade fuel first := by
  induction runs generalizing fuel with
  | refl => exact .inr (Nat.zero_le _)
  | step stepped _ ih =>
      cases fuel with
      | zero => exact .inl rfl
      | succ fuel =>
          rw [run, closuresMade, stepped]
          exact (ih fuel).imp_right (Nat.add_le_add_left · _)

end Runs

namespace Ends

theorem of_step {machine last : Machine} {halt : Halt} (halted : machine.step = .halted halt last) :
    machine.Ends (machine.made last) halt last :=
  ⟨machine, 0, .refl machine, halted, (Nat.zero_add _).symm⟩

/-- With enough fuel a run that ends comes to its end. -/
theorem exists_fuel {machine last : Machine} {count : Nat} {halt : Halt}
    (ends : machine.Ends count halt last) :
    ∃ enough, ∀ fuel, enough ≤ fuel → run fuel machine = (halt, last) := by
  obtain ⟨middle, before, runs, halted, -⟩ := ends
  induction runs with
  | refl =>
      refine ⟨1, fun fuel enough => ?_⟩
      obtain ⟨rest, rfl⟩ := Nat.exists_eq_add_of_le' enough
      rw [run, halted]
  | step stepped _ ih =>
      obtain ⟨enough, reached⟩ := ih halted
      refine ⟨enough + 1, fun fuel within => ?_⟩
      obtain ⟨rest, rfl⟩ := Nat.exists_eq_add_of_le' within
      rw [← Nat.add_assoc, run, stepped]
      exact reached _ (Nat.le_add_left _ _)

/-- Within any fuel, a run that ends makes no more closures than up to its end. -/
theorem closuresMade_le {machine last : Machine} {count : Nat} {halt : Halt}
    (ends : machine.Ends count halt last) (fuel : Nat) : closuresMade fuel machine ≤ count := by
  obtain ⟨middle, before, runs, halted, rfl⟩ := ends
  induction runs generalizing fuel with
  | refl =>
      cases fuel with
      | zero => exact Nat.zero_le _
      | succ fuel =>
          rw [closuresMade, halted]
          exact Nat.le_add_left _ _
  | step stepped _ ih =>
      cases fuel with
      | zero => exact Nat.zero_le _
      | succ fuel =>
          rw [closuresMade, stepped, Nat.add_assoc]
          exact Nat.add_le_add_left (ih fuel halted) _

/-- Within any fuel, a run that ends uses the fuel up or comes to its end. -/
theorem outOfFuel_or_eq {machine last : Machine} {count : Nat} {halt : Halt}
    (ends : machine.Ends count halt last) (fuel : Nat) :
    (run fuel machine).1 = .outOfFuel ∨
      run fuel machine = (halt, last) ∧ closuresMade fuel machine = count := by
  obtain ⟨middle, before, runs, halted, rfl⟩ := ends
  induction runs generalizing fuel with
  | refl =>
      cases fuel with
      | zero => exact .inl rfl
      | succ fuel =>
          exact .inr ⟨by rw [run, halted], by rw [closuresMade, halted, Nat.zero_add]⟩
  | step stepped _ ih =>
      cases fuel with
      | zero => exact .inl rfl
      | succ fuel =>
          rw [run, closuresMade, stepped]
          rcases ih fuel halted with used | ⟨reached, closures⟩
          · exact .inl used
          · exact .inr ⟨reached, by rw [Nat.add_assoc, ← closures]⟩

end Ends

/-! ## Runs with their handles -/

/-- A machine comes to a later state, giving out the given handles. -/
inductive Gives : Machine → List UInt32 → Machine → Prop where
  | refl (machine : Machine) : Gives machine [] machine
  | step {machine next last : Machine} {handles : List UInt32}
      (stepped : machine.step = .running next) (rest : Gives next handles last) :
      Gives machine (machine.givenOut next ++ handles) last

namespace Gives

variable {first middle last : Machine} {handles more : List UInt32}

theorem single (stepped : first.step = .running last) :
    first.Gives (first.givenOut last ++ []) last :=
  .step stepped (.refl last)

theorem trans (left : first.Gives handles middle) (right : middle.Gives more last) :
    first.Gives (handles ++ more) last := by
  induction left with
  | refl => exact right
  | step stepped _ ih =>
      rw [List.append_assoc]
      exact .step stepped (ih right)

/-- A run passes through every later state. -/
theorem exists_steps (gives : first.Gives handles last) :
    ∃ steps, ∀ fuel, run (fuel + steps) first = run fuel last ∧
      handlesMade (fuel + steps) first = handles ++ handlesMade fuel last := by
  induction gives with
  | refl => exact ⟨0, fun fuel => ⟨rfl, rfl⟩⟩
  | step stepped _ ih =>
      obtain ⟨steps, reached⟩ := ih
      refine ⟨steps + 1, fun fuel => ?_⟩
      obtain ⟨ran, given⟩ := reached fuel
      rw [← Nat.add_assoc, run, handlesMade, stepped]
      dsimp only
      rw [ran, given, List.append_assoc]
      exact ⟨rfl, rfl⟩

end Gives

/-- Once a run has halted, more fuel changes nothing. -/
theorem run_of_halted {machine last : Machine} {halt : Halt} {fuel : Nat}
    (ran : run fuel machine = (halt, last)) (halted : halt ≠ .outOfFuel) (more : Nat) :
    run (fuel + more) machine = (halt, last) ∧
      handlesMade (fuel + more) machine = handlesMade fuel machine := by
  induction fuel generalizing machine with
  | zero =>
      cases ran
      exact absurd rfl halted
  | succ fuel ih =>
      rw [Nat.add_right_comm, run, handlesMade, handlesMade]
      rw [run] at ran
      cases stepped : machine.step with
      | halted outcome final =>
          rw [stepped] at ran
          exact ⟨ran, rfl⟩
      | running next =>
          rw [stepped] at ran
          obtain ⟨reached, given⟩ := ih ran
          exact ⟨reached, congrArg (machine.givenOut next ++ ·) given⟩

/-- Only a run runs out of fuel. -/
theorem step_ne_outOfFuel {machine last : Machine} : machine.step ≠ .halted .outOfFuel last := by
  intro stepped
  unfold step at stepped
  split at stepped
  · dsimp only at stepped
    split at stepped
    · cases stepped
    · split at stepped <;> cases stepped
  · cases stepped

/-- A run that has used up its fuel can go on from where it has come to. -/
theorem run_of_outOfFuel {machine last : Machine} {fuel : Nat}
    (ran : run fuel machine = (.outOfFuel, last)) (more : Nat) :
    run (fuel + more) machine = run more last := by
  induction fuel generalizing machine with
  | zero =>
      cases ran
      rw [Nat.zero_add]
  | succ fuel ih =>
      rw [Nat.add_right_comm, run]
      rw [run] at ran
      cases stepped : machine.step with
      | halted halt final =>
          rw [stepped] at ran
          cases ran
          exact absurd stepped step_ne_outOfFuel
      | running next =>
          rw [stepped] at ran
          exact ih ran

/-- A run that comes to a state where it halts. -/
theorem Gives.run_eq {first last final : Machine} {handles : List UInt32} {halt outcome : Halt}
    {fuel : Nat} (gives : first.Gives handles last) (halted : last.step = .halted halt last)
    (ran : run fuel first = (outcome, final)) (finished : outcome ≠ .outOfFuel) :
    outcome = halt ∧ final = last ∧ handlesMade fuel first = handles := by
  obtain ⟨steps, reached⟩ := gives.exists_steps
  obtain ⟨arrived, given⟩ := reached (fuel + 1)
  obtain ⟨same, made⟩ := run_of_halted ran finished (1 + steps)
  rw [← Nat.add_assoc] at same made
  rw [same, run, halted] at arrived
  rw [made, handlesMade, halted] at given
  cases arrived
  refine ⟨rfl, rfl, ?_⟩
  rw [given]
  simp [givenOut]

/-- A run that halts within its fuel ends. -/
theorem ends_of_run {machine last : Machine} {halt : Halt} {fuel : Nat}
    (ran : run fuel machine = (halt, last)) (halted : halt ≠ .outOfFuel) :
    machine.Ends (closuresMade fuel machine) halt last := by
  induction fuel generalizing machine with
  | zero =>
      cases ran
      exact absurd rfl halted
  | succ fuel ih =>
      cases stepped : machine.step with
      | halted outcome final =>
          simp only [run, stepped] at ran
          cases ran
          simp only [closuresMade, stepped]
          exact .of_step stepped
      | running next =>
          simp only [run, stepped] at ran
          simp only [closuresMade, stepped]
          exact (Runs.single stepped).ends (ih ran)

/-- A run from an offset inside the code is not refused. -/
theorem runFrom_of_le {code : Code} {start : Nat} (inside : start ≤ code.size) (fuel : Nat)
    (machine : Machine) :
    machine.runFrom fuel code start = run fuel (machine.prepare code start) := by
  rw [runFrom]
  exact if_neg (by omega)

theorem runFrom_zero (fuel : Nat) (machine : Machine) (code : Code) :
    machine.runFrom fuel code 0 = run fuel (machine.prepare code 0) :=
  runFrom_of_le (Nat.zero_le _) fuel machine

end Machine

end ClosureLisp
