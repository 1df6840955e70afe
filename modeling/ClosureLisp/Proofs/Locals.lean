import ClosureLisp.Proofs.Transfers

/-!
# Locals on the stack

A closure is entered with all its locals on the stack, but nothing keeps its body from taking them
off again, and a load of a local that is gone overruns the stack. `Bundle.run_overrun_iff_of_verify`
says that verified code gets outside the stack in no other way. The invariant behind it is
`Machine.Accounted`: as long as an activation is open, each of its locals is on the stack, or a
step of the run has taken it off meanwhile.
-/

namespace ClosureLisp

namespace Machine

/-! ## Locals that are gone -/

/-- A run loses a position of the stack while the given activations are open: some step shrinks the
stack to below the position, and they are open before this step and ever since. -/
inductive Loses (first : Machine) (frames : List Activation) (position : Nat) :
    Machine → Prop where
  | here {count : Nat} {before after : Machine} (runs : first.Runs count before)
      (stepped : before.step = .running after) (opened : frames <:+ before.activations)
      (held : position < before.stack.size) (gone : after.stack.size ≤ position)
      (still : frames <:+ after.activations) : Loses first frames position after
  | later {before after : Machine} (lost : Loses first frames position before)
      (stepped : before.step = .running after) (still : frames <:+ after.activations) :
      Loses first frames position after

theorem Loses.exists_runs {first machine : Machine} {frames : List Activation} {position : Nat}
    (lost : first.Loses frames position machine) : ∃ count, first.Runs count machine := by
  induction lost with
  | here runs stepped _ _ _ _ => exact ⟨_, runs.trans (.single stepped)⟩
  | later _ stepped _ ih =>
      obtain ⟨count, runs⟩ := ih
      exact ⟨_, runs.trans (.single stepped)⟩

section Steps

variable {code : Code} {first machine next : Machine} {instr : Instr}

/-- An activation that is open after an instruction has been open before, or it has just been
opened, with its locals on top of the stack. -/
theorem Moves.opened {frames : List Activation} (moves : machine.Moves instr next)
    (opened : frames <:+ next.activations) :
    frames <:+ machine.activations ∨ ∃ activation,
      frames = activation :: machine.activations ∧
        next.stack.size = activation.base + activation.locals := by
  cases moves with
  | stays keeps => exact .inl (keeps.activations ▸ opened)
  | jumps _ keeps => exact .inl (keeps.activations ▸ opened)
  | enters _ _ filled keeps =>
      rcases List.suffix_cons_iff.mp (keeps.activations ▸ opened) with entered | outer
      · exact .inr ⟨_, entered, filled⟩
      · exact .inl outer
  | leaves current keeps =>
      refine .inl ((keeps.activations ▸ opened).trans ?_)
      rw [current]
      exact List.suffix_cons _ _
  | makes _ _ keeps => exact .inl (keeps.activations ▸ opened)

theorem supplies_ready {size : Nat} {other : Instr} :
    (machine.ready instr size).Supplies other ↔ machine.Supplies other := by
  cases other <;> simp only [Supplies, ready_stack, ready_activations]

theorem Lacks.of_ready {size : Nat} {activation : Activation} {outer : List Activation}
    {slot : Int32} (lacks : (machine.ready instr size).Lacks activation outer slot) :
    machine.Lacks activation outer slot := by
  refine ⟨?_, lacks.nonnegative, lacks.counted, ?_⟩
  · rw [← lacks.current, ready_activations]
  · rw [← machine.ready_stack instr size]
    exact lacks.missing

/-- A step that goes on has found on the stack all that its instruction takes from it. -/
theorem OnBoundaries.of_running (bounded : machine.OnBoundaries code)
    (stepped : machine.step = .running next) :
    ∃ located ∈ code.decodeAll.1, located.offset = machine.pc ∧
      machine.Supplies located.instr ∧
      (machine.ready located.instr located.size).Moves located.instr next := by
  rcases bounded.step_cases with ended | ⟨instr, size, effect, listed, yields, executed⟩
  · cases ended.symm.trans stepped
  · cases yields with
    | next supplied moves =>
        cases executed.symm.trans stepped
        exact ⟨⟨machine.pc, size, instr⟩, listed, rfl, supplies_ready.mp supplied, moves⟩
    | fault _ _ => cases executed.symm.trans stepped
    | overrun _ _ => cases executed.symm.trans stepped

/-- A step that overruns loads a local that the stack lacks. -/
theorem OnBoundaries.of_overrun {last : Machine} (bounded : machine.OnBoundaries code)
    (halted : machine.step = .halted .overrun last) :
    ∃ located ∈ code.decodeAll.1, located.offset = machine.pc ∧
      ∃ slot activation outer, located.instr = .get slot ∧
        machine.Lacks activation outer slot := by
  rcases bounded.step_cases with ended | ⟨instr, size, effect, listed, yields, executed⟩
  · cases ended.symm.trans halted
  · cases yields with
    | next _ _ => cases executed.symm.trans halted
    | fault _ _ => cases executed.symm.trans halted
    | overrun load lacks =>
        exact ⟨⟨machine.pc, size, instr⟩, listed, rfl, _, _, _, load, lacks.of_ready⟩

/-- A load of a local that the stack lacks overruns. -/
theorem step_of_lacks {located : Code.Located} {activation : Activation}
    {outer : List Activation} {slot : Int32} (listed : located ∈ machine.code.decodeAll.1)
    (start : located.offset = machine.pc) (load : located.instr = .get slot)
    (lacks : machine.Lacks activation outer slot) :
    ∃ last, machine.step = .halted .overrun last := by
  have decoded := Code.instrAt_of_mem_decodeFrom listed
  rw [start, load] at decoded
  have counted : ¬ (slot.toInt < 0 ∨ (activation.locals : Int) ≤ slot.toInt) := by
    have low := lacks.nonnegative
    have high := lacks.counted
    omega
  refine ⟨machine.ready (.get slot) located.size, ?_⟩
  rw [step_of_instrAt decoded, execute, Machine.load, ready_activations, lacks.current]
  dsimp only
  rw [if_neg counted, ready_stack, Array.getElem?_eq_none lacks.missing]
  rfl

/-! ## The invariant of locals -/

/-- A machine that a run of the code has come to, with an account of the locals: as long as an
activation is open, each of its locals is on the stack, or the run has lost it. -/
structure Accounted (code : Code) (first machine : Machine) : Prop where
  reached : ∃ count, first.Runs count machine
  bounded : machine.OnBoundaries code
  locals : ∀ {activation : Activation} {outer : List Activation},
    activation :: outer <:+ machine.activations →
      ∀ position < activation.base + activation.locals,
        position < machine.stack.size ∨ first.Loses (activation :: outer) position machine

namespace Accounted

theorem step (checked : code.Checked) (accounted : Accounted code first machine)
    (stepped : machine.step = .running next) : Accounted code first next := by
  obtain ⟨count, runs⟩ := accounted.reached
  obtain ⟨located, -, -, -, moves⟩ := accounted.bounded.of_running stepped
  have bounded := accounted.bounded.step checked
  rw [stepped] at bounded
  refine ⟨⟨_, runs.trans (.single stepped)⟩, bounded, fun {activation outer} still => ?_⟩
  intro position below
  rcases moves.opened still with opened | ⟨entered, same, filled⟩
  · rw [ready_activations] at opened
    rcases accounted.locals opened position below with held | lost
    · rcases Nat.lt_or_ge position next.stack.size with kept | gone
      · exact .inl kept
      · exact .inr (.here runs stepped opened held gone still)
    · exact .inr (.later lost stepped still)
  · obtain ⟨rfl, -⟩ := List.cons.inj same
    exact .inl (filled ▸ below)

theorem runs (checked : code.Checked) {last : Machine} {count : Nat}
    (accounted : Accounted code first machine) (runs : machine.Runs count last) :
    Accounted code first last := by
  induction runs with
  | refl => exact accounted
  | step stepped _ ih => exact ih (accounted.step checked stepped)

/-- A local that the stack lacks has been on it. -/
theorem loses {activation : Activation} {outer : List Activation} {slot : Int32}
    (accounted : Accounted code first machine) (lacks : machine.Lacks activation outer slot) :
    first.Loses (activation :: outer) (activation.base + slot.toInt.toNat) machine := by
  have opened : activation :: outer <:+ machine.activations :=
    lacks.current ▸ List.suffix_rfl
  have below : activation.base + slot.toInt.toNat < activation.base + activation.locals := by
    have low := lacks.nonnegative
    have high := lacks.counted
    omega
  exact (accounted.locals opened _ below).resolve_left (Nat.not_lt.mpr lacks.missing)

end Accounted

theorem accounted_new (checked : code.Checked) (options : MachineOptions) :
    Accounted code ((new options).prepare code 0) ((new options).prepare code 0) := by
  refine ⟨⟨0, .refl _⟩, onBoundaries_new checked options, fun opened => ?_⟩
  cases List.suffix_nil.mp opened

end Steps

end Machine

/-! ## Runs of verified bundles -/

/-- The exact condition for a run of a verified bundle to get outside the stack: it comes to a load
of a local that counts among those of the current activation, but that the run has taken off the
stack since the activation was opened. All that any other instruction takes from the stack stands on
it. -/
theorem Bundle.run_overrun_iff_of_verify (bundle : Bundle) (verified : bundle.verify = .ok ())
    (options : MachineOptions) :
    ((∃ fuel, ((Machine.new options).runFrom fuel bundle.code 0).1 = .overrun) ↔
      ∃ machine activation outer slot,
        ((Machine.new options).prepare bundle.code 0).Loses (activation :: outer)
          (activation.base + slot.toInt.toNat) machine ∧
        (∃ located ∈ bundle.code.decodeAll.1,
          located.offset = machine.pc ∧ located.instr = .get slot) ∧
        machine.Lacks activation outer slot) ∧
    ∀ count machine next,
      ((Machine.new options).prepare bundle.code 0).Runs count machine →
      machine.step = .running next →
      ∃ located ∈ bundle.code.decodeAll.1,
        located.offset = machine.pc ∧ machine.Supplies located.instr := by
  have checked := code_checked verified
  have accounted := Machine.accounted_new checked options
  refine ⟨⟨?_, ?_⟩, ?_⟩
  · rintro ⟨fuel, overran⟩
    rw [Machine.runFrom_zero] at overran
    obtain ⟨machine, count, runs, halted, -⟩ :=
      Machine.ends_of_run (Prod.ext overran rfl) Halt.noConfusion
    have reached := accounted.runs checked runs
    obtain ⟨located, listed, start, slot, activation, outer, load, lacks⟩ :=
      reached.bounded.of_overrun halted
    exact ⟨machine, activation, outer, slot, reached.loses lacks, ⟨located, listed, start, load⟩,
      lacks⟩
  · rintro ⟨machine, activation, outer, slot, lost, ⟨located, listed, start, load⟩, lacks⟩
    obtain ⟨count, runs⟩ := lost.exists_runs
    have reached := accounted.runs checked runs
    rw [← reached.bounded.runs] at listed
    obtain ⟨last, halted⟩ := Machine.step_of_lacks listed start load lacks
    obtain ⟨enough, ran⟩ := (runs.ends (.of_step halted)).exists_fuel
    refine ⟨enough, ?_⟩
    rw [Machine.runFrom_zero, ran enough (Nat.le_refl _)]
  · intro count machine next runs stepped
    obtain ⟨located, listed, start, supplied, -⟩ :=
      (accounted.runs checked runs).bounded.of_running stepped
    exact ⟨located, listed, start, supplied⟩

/-- The code of a call of a function without parameters that takes itself off the stack and then
loads itself. -/
def droppedCode : Code :=
  (Instr.encodeAll
    [.jump 12, .pop, .get 0, .ret, .makeLambda 5 0 0, .call 0, .pop]).toArray

/-- That code packed without a source. -/
def droppedBundle : Bundle :=
  Bundle.new [] droppedCode predefinedNames

theorem droppedBundle_verify : droppedBundle.verify = .ok () := by
  have targets : Bundle.targetFault? droppedCode = none := by decide +kernel
  exact Bundle.verify_new (by decide) targets

theorem droppedBundle_overrun :
    ((Machine.new {}).runFrom 5 droppedBundle.code 0).1 = .overrun := by
  rw [droppedBundle, Bundle.code_new]
  decide +kernel

theorem Bundle.run_overrun_iff_of_verify_dropped :
    droppedBundle.verify = .ok () ∧
      ∃ machine activation outer slot,
        ((Machine.new {}).prepare droppedBundle.code 0).Loses (activation :: outer)
          (activation.base + slot.toInt.toNat) machine ∧
        machine.Lacks activation outer slot := by
  obtain ⟨condition, -⟩ := run_overrun_iff_of_verify droppedBundle droppedBundle_verify {}
  obtain ⟨machine, activation, outer, slot, lost, -, lacks⟩ :=
    condition.mp ⟨5, droppedBundle_overrun⟩
  exact ⟨droppedBundle_verify, machine, activation, outer, slot, lost, lacks⟩

/-- Verification does not keep a run inside the stack. -/
theorem Bundle.verify_not_safe :
    ¬ ∀ bundle : Bundle, bundle.verify = .ok () → ∀ options fuel,
      ((Machine.new options).runFrom fuel bundle.code 0).1 ≠ .overrun := by
  intro safe
  exact safe droppedBundle droppedBundle_verify {} 5 droppedBundle_overrun

end ClosureLisp
