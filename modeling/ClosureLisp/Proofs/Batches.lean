import ClosureLisp.Proofs.Compilation
import ClosureLisp.Proofs.Simulation

/-!
# Compiled programs

The code of a batch of top-level expressions follows their evaluation one after the other.
Between two of them the stack is empty, the last result is in its place, and the evaluator may
collect its functions, while the machine collects between any two instructions.
-/

namespace ClosureLisp

open Evaluator

/-- A machine about to run the code that a compiler is to add next, in agreement with an
evaluator. What never changes is as it was at the start. -/
structure AtForm (start : Machine) (depth : Nat) (older : List Event) (compiler : Compiler)
    (result : Value) (count : Nat) (evaluator : Evaluator) (machine : Machine) : Prop where
  agrees : Agrees count older evaluator machine
  names : evaluator.names = compiler.globals
  depth : evaluator.maxDepth = depth
  code : machine.code = start.code
  stackLimit : machine.stackLimit = start.stackLimit
  trace : machine.trace = start.trace
  pc : machine.pc = compiler.buffer.used
  stack : machine.stack = #[]
  activations : machine.activations = []
  result : machine.result = some result.onMachine

section Forms

variable {start machine : Machine} {depth count : Nat} {older : List Event}
  {compiler later : Compiler} {result : Value} {evaluator : Evaluator}

/-- The code of an expression at top level follows its evaluation. -/
theorem AtForm.evalTop {expr : Expr} {instrs : List Instr} {last : Instr}
    (standing : AtForm start depth older compiler result count evaluator machine)
    (generated : expr.generate compiler.slot? compiler.buffer.used [] = .ok (instrs, []))
    (fits : expr.Fits compiler.slot? compiler.buffer.used [])
    (grown : (compiler.write (instrs ++ [last])).buffer.code.toList <+: start.code.toList) :
    Follows (depth < start.stackLimit) older evaluator.failures
      (fun value => Arrived machine (compiler.buffer.used + Instr.sizeAll instrs) older
        evaluator [value]) count machine (Evaluator.evalTop expr evaluator) := by
  have placed := (Compiler.places_of_write grown).left
  rw [← standing.pc] at generated fits placed ⊢
  rw [← standing.code] at placed
  have situated : Situated compiler.globals [] [] [] instrs evaluator machine := by
    refine ⟨?_, True.intro, .nil, ?_, placed⟩
    · exact standing.names ▸ List.prefix_refl _
    · intro name slot found
      cases found
  have follows := exprFollows (applyWithin_appliesAlong evaluator.maxDepth) expr generated fits
    situated standing.agrees
  refine follows.deepen ?_
  rw [standing.depth, standing.stackLimit, standing.stack]
  exact id

/-- A value at the top of the stack is linked. -/
theorem Agrees.linked_top {pc : Nat} {value : Value} {heap : Heap} {events : List Event}
    (agrees : Agrees count older evaluator (machine.advance pc [value] heap events)) :
    LinkedValue evaluator (machine.advance pc [] heap events) value.onMachine := by
  refine agrees.linked_of_stack _ ?_
  rw [Machine.advance_stack, Array.toList_append]
  exact List.mem_append_right _ List.mem_cons_self

/-- The value of a define fills the next global slot. -/
theorem AtForm.defGlobal {pc : Nat} {value : Value} {heap : Heap} {events : List Event}
    {name : Name} {instrs : List Instr} {former : Evaluator}
    (standing : AtForm start depth older compiler result count former machine)
    (decoded : machine.code.instrAt pc = .ok (.defGlobal, 1))
    (stop : pc + 1 = compiler.buffer.used + Instr.sizeAll instrs)
    (setting : evaluator.setting = former.setting)
    {more : Nat} (agrees : Agrees more older evaluator (machine.advance pc [value] heap events)) :
    Follows (depth < start.stackLimit) older evaluator.failures
      (AtForm start depth older ((compiler.write instrs).declare name)) more
      (machine.advance pc [value] heap events)
      (.ok result { evaluator with globals := evaluator.globals ++ [(name, value)] }) := by
  obtain ⟨laterHeap, laterEvents, stepped, prepared, same⟩ := agrees.step decoded
  rw [Machine.execute, Machine.pop_advance_single] at stepped
  refine .of_step stepped same (.value (.refl _) rfl ?_)
  refine ⟨(prepared.bare (pc + 1)).define name prepared.linked_top, ?_, ?_, standing.code,
    standing.stackLimit, standing.trace, ?_, ?_, standing.activations, standing.result⟩
  · have globals : evaluator.globals = former.globals := congrArg Prod.fst setting
    rw [Evaluator.names, List.map_append, globals]
    exact congrArg (· ++ [name]) standing.names
  · exact (congrArg Prod.snd setting).trans standing.depth
  · change pc + 1 = (compiler.buffer.emitAll instrs).used
    rw [CodeBuffer.used_emitAll, stop]
  · simp [standing.stack]

/-- The value of any other expression becomes the last result. -/
theorem AtForm.pop {pc : Nat} {value : Value} {heap : Heap} {events : List Event}
    {instrs : List Instr} {former : Evaluator}
    (standing : AtForm start depth older compiler result count former machine)
    (decoded : machine.code.instrAt pc = .ok (.pop, 1))
    (stop : pc + 1 = compiler.buffer.used + Instr.sizeAll instrs)
    (setting : evaluator.setting = former.setting)
    {more : Nat} (agrees : Agrees more older evaluator (machine.advance pc [value] heap events)) :
    Follows (depth < start.stackLimit) older evaluator.failures
      (AtForm start depth older (compiler.write instrs)) more
      (machine.advance pc [value] heap events) (.ok value evaluator) := by
  obtain ⟨laterHeap, laterEvents, stepped, prepared, same⟩ := agrees.step decoded
  rw [Machine.execute, Machine.pop_advance_single] at stepped
  simp only [Machine.advance_activations, standing.activations] at stepped
  have bare := prepared.bare (pc + 1)
  refine .of_step stepped same (.value (.refl _) rfl ?_)
  refine ⟨?_, ?_, ?_, standing.code, standing.stackLimit, standing.trace, ?_, ?_,
    rfl, rfl⟩
  · refine bare.restack rfl rfl rfl rfl rfl bare.linked_of_stack ?_
    intro other listed
    obtain rfl : other = value.onMachine := by simpa using listed
    exact prepared.linked_top
  · have globals : evaluator.globals = former.globals := congrArg Prod.fst setting
    rw [Evaluator.names, globals]
    exact standing.names
  · exact (congrArg Prod.snd setting).trans standing.depth
  · change pc + 1 = (compiler.buffer.emitAll instrs).used
    rw [CodeBuffer.used_emitAll, stop]
  · simp [standing.stack]

/-- The code of a top-level expression follows its evaluation. -/
theorem AtForm.evalForm {expr : Expr} (added : compiler.Adds expr later)
    (fits : ∀ number ∈ compiler.formOperands expr, number < Expr.operandRange)
    (grown : later.buffer.code.toList <+: start.code.toList)
    (standing : AtForm start depth older compiler result count evaluator machine) :
    Follows (depth < start.stackLimit) older evaluator.failures
      (AtForm start depth older later) count machine
      (Evaluator.evalForm result expr evaluator) := by
  cases added with
  | @define span name value instrs free generated =>
      have placed := (Compiler.places_of_write grown).right
      rw [← standing.code] at placed
      rw [evalForm_define (lookup_of_slotIn_eq_none (standing.names ▸ free))]
      refine (standing.evalTop generated fits grown).andThen (fun _ _ => Nat.le_refl _) ?_
      rintro value made later _ counted ⟨⟨heap, events, rfl⟩, same, reached⟩
      rw [← counted]
      refine AtForm.defGlobal standing placed.instrAt ?_ same reached
      rw [Instr.sizeAll_append, Instr.sizeAll_singleton, ← Nat.add_assoc]
      rfl
  | @value _ instrs generated =>
      have placed := (Compiler.places_of_write grown).right
      rw [← standing.code] at placed
      rw [Compiler.formOperands_of_generate generated] at fits
      rw [evalForm_of_generate generated]
      refine (standing.evalTop generated fits grown).onward ?_
      rintro value made later _ counted ⟨⟨heap, events, rfl⟩, same, reached⟩
      rw [← counted]
      refine AtForm.pop standing placed.instrAt ?_ same reached
      rw [Instr.sizeAll_append, Instr.sizeAll_singleton, ← Nat.add_assoc]
      rfl

end Forms

/-! ## Batches -/

section Batches

variable {start machine : Machine} {depth count : Nat} {older : List Event}
  {compiler later : Compiler} {result : Value} {evaluator : Evaluator} {exprs : List Expr}

/-- The evaluator may collect its functions between two top-level expressions. -/
theorem AtForm.collect
    (standing : AtForm start depth older compiler result count evaluator machine) :
    AtForm start depth older compiler result count (evaluator.collectIfNeeded result) machine := by
  refine ⟨standing.agrees.collect standing.stack standing.result, ?_, ?_, standing.code,
    standing.stackLimit, standing.trace, standing.pc, standing.stack, standing.activations,
    standing.result⟩
  · rw [← standing.names]
    unfold Evaluator.collectIfNeeded
    split <;> rfl
  · rw [← standing.depth]
    unfold Evaluator.collectIfNeeded
    split <;> rfl

/-- The code of a batch follows its evaluation. -/
theorem AtForm.evalForms (added : compiler.addForms exprs = (none, later))
    (fits : compiler.Fits exprs) (grown : later.buffer.code.toList <+: start.code.toList)
    (standing : AtForm start depth older compiler result count evaluator machine) :
    Follows (depth < start.stackLimit) older evaluator.failures
      (AtForm start depth older later) count machine
      (Evaluator.evalForms result exprs evaluator) := by
  induction exprs generalizing compiler result count evaluator machine with
  | nil =>
      rw [Compiler.addForms] at added
      cases added
      exact .value (.refl _) rfl standing
  | cons expr rest ih =>
      obtain ⟨middle, first, rested⟩ := Compiler.addForms_cons added
      obtain ⟨firstFits, restFits⟩ := fits.cons first
      have extended := Compiler.addForms_extends middle rest
      rw [rested] at extended
      rw [evalForms_cons]
      refine (standing.evalForm (Compiler.adds_of_addForm first) firstFits
        (extended.code.trans grown)).andThen ?_ ?_
      · intro value next
        rw [← failures_collectIfNeeded next value]
        exact failures_le_evalForms value rest _
      · intro value made next reached counted standing
        rw [← counted, ← failures_collectIfNeeded next value]
        exact ih rested restFits standing.collect

end Batches

end ClosureLisp
