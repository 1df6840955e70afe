import ClosureLisp.Proofs.Balance
import ClosureLisp.Proofs.Compilation
import ClosureLisp.Proofs.Lockstep

/-!
# Programs in batches

A program may be compiled and run as a whole or cut into consecutive batches at will. Compiling
comes to the same code and the same names, since a batch is compiled where the one before it has
ended. Running comes to the same globals, output and handles: within a batch the two machines are
in lockstep, and between two batches the stack is empty, so that the reset of the machine there
only concerns its last result.
-/

namespace ClosureLisp

/-- Whether an expression is a define. -/
def Expr.isDefine : Expr → Bool
  | .define _ _ _ => true
  | _ => false

namespace Compiler

/-! ## Compiling batches -/

variable {compiler middle later : Compiler} {exprs : List Expr} {batches : List (List Expr)}
  {programs : List Program}

theorem addForms_append (compiler : Compiler) (first second : List Expr) :
    compiler.addForms (first ++ second) =
      match compiler.addForms first with
      | (some error, later) => (some error, later)
      | (none, later) => later.addForms second := by
  induction first generalizing compiler with
  | nil => rfl
  | cons expr rest ih =>
      rw [List.cons_append, addForms, addForms]
      cases compiler.addForm expr with
      | mk error middle =>
          cases error with
          | some error => rfl
          | none => exact ih middle

theorem compile_of_addForms (added : compiler.addForms exprs = (none, later)) :
    compiler.compile exprs =
      (.ok ⟨later.buffer.code, later.globals, compiler.buffer.used⟩, later) := by
  rw [compile, added]
  rfl

/-- Compiles batches one after the other, up to the first one that fails. -/
def compileAll (compiler : Compiler) : List (List Expr) → Except SourceError (List Program)
  | [] => .ok []
  | exprs :: rest =>
      match compiler.compile exprs with
      | (.error error, _) => .error error
      | (.ok program, later) => (later.compileAll rest).map (program :: ·)

/-- Batches that compile one after the other, with the programs that they come to. -/
inductive Batched : Compiler → List (List Expr) → List Program → Compiler → Prop where
  | nil (compiler : Compiler) : Batched compiler [] [] compiler
  | cons {compiler middle later : Compiler} {exprs : List Expr} {batches : List (List Expr)}
      {programs : List Program} (added : compiler.addForms exprs = (none, middle))
      (rest : Batched middle batches programs later) :
      Batched compiler (exprs :: batches)
        (⟨middle.buffer.code, middle.globals, compiler.buffer.used⟩ :: programs) later

/-- Batches compile if and only if their expressions do as a whole, and else both fail for the same
reason. -/
theorem compileAll_cases (compiler : Compiler) (batches : List (List Expr)) :
    (∃ programs later, compiler.compileAll batches = .ok programs ∧
      Batched compiler batches programs later ∧
      compiler.addForms batches.flatten = (none, later)) ∨
    ∃ error later, compiler.compileAll batches = .error error ∧
      compiler.addForms batches.flatten = (some error, later) := by
  induction batches generalizing compiler with
  | nil => exact .inl ⟨[], compiler, rfl, .nil compiler, rfl⟩
  | cons exprs rest ih =>
      rw [List.flatten_cons, addForms_append, compileAll]
      cases added : compiler.addForms exprs with
      | mk error middle =>
          cases error with
          | some error =>
              refine .inr ⟨error, middle, ?_, rfl⟩
              rw [compile, added]
          | none =>
              rw [compile_of_addForms added]
              rcases ih middle with
                ⟨programs, later, compiled, batched, whole⟩ | ⟨error, later, failed, whole⟩
              · refine .inl ⟨_, later, ?_, .cons added batched, whole⟩
                dsimp only
                rw [compiled]
                rfl
              · refine .inr ⟨error, later, ?_, whole⟩
                dsimp only
                rw [failed]
                rfl

theorem Batched.extends (batched : Batched compiler batches programs later) :
    compiler.Extends later := by
  induction batched with
  | nil => exact .refl _
  | @cons compiler middle later exprs batches programs added _ ih =>
      have extended := addForms_extends compiler exprs
      rw [added] at extended
      exact extended.trans ih

end Compiler

/-- Each of some programs starts where the code of the one before it ends, and the first one at the
given offset. -/
def Program.Successive : Nat → List Program → Prop
  | _, [] => True
  | offset, program :: rest => program.start = offset ∧ Successive program.code.size rest

/-- Programs that a whole one is cut into. -/
structure Program.Splits (whole : Program) (parts : List Program) : Prop where
  last : ∀ part ∈ parts.getLast?, part.code = whole.code ∧ part.globals = whole.globals
  fronts : ∀ part ∈ parts, part.code.toList <+: whole.code.toList
  starts : Program.Successive 0 parts

namespace Compiler.Batched

variable {compiler later : Compiler} {batches : List (List Expr)} {programs : List Program}

theorem last (batched : Batched compiler batches programs later) :
    ∀ part ∈ programs.getLast?, part.code = later.buffer.code ∧ part.globals = later.globals := by
  induction batched with
  | nil =>
      intro part listed
      cases listed
  | cons added rest ih =>
      intro part listed
      cases rest with
      | nil =>
          cases listed
          exact ⟨rfl, rfl⟩
      | cons => exact ih part listed

theorem fronts (batched : Batched compiler batches programs later) :
    ∀ part ∈ programs, part.code.toList <+: later.buffer.code.toList := by
  induction batched with
  | nil =>
      intro part listed
      cases listed
  | cons added rest ih => exact List.forall_mem_cons.mpr ⟨rest.extends.code, ih⟩

theorem successive (batched : Batched compiler batches programs later) :
    Program.Successive compiler.buffer.used programs := by
  induction batched with
  | nil => exact True.intro
  | cons added rest ih =>
      refine ⟨rfl, ?_⟩
      rw [CodeBuffer.size_code]
      exact ih

end Compiler.Batched

/-! ## Operands of batches -/

namespace Compiler

variable {compiler middle : Compiler} {exprs more : List Expr}

theorem batchOperands_append (added : compiler.addForms exprs = (none, middle)) :
    compiler.batchOperands (exprs ++ more) =
      compiler.batchOperands exprs ++ middle.batchOperands more := by
  induction exprs generalizing compiler with
  | nil =>
      cases added
      rfl
  | cons expr rest ih =>
      obtain ⟨next, first, rested⟩ := addForms_cons added
      rw [List.cons_append, batchOperands, batchOperands, first, ih rested, List.append_assoc]

theorem Fits.append (fits : compiler.Fits (exprs ++ more))
    (added : compiler.addForms exprs = (none, middle)) :
    compiler.Fits exprs ∧ middle.Fits more := by
  rw [Fits, batchOperands_append added, List.forall_mem_append] at fits
  exact fits

end Compiler

namespace Machine

/-! ## One batch on two machines -/

/-- A machine between two top-level expressions, the code of the next one being at an offset. -/
structure AtRest (offset : Nat) (machine : Machine) : Prop where
  pc : machine.pc = offset
  stack : machine.stack = #[]
  activations : machine.activations = []

/-- Two machines come to the same offset in lockstep, and are between two top-level expressions
there. -/
inductive Together (fuel : Nat) (short long : Code) (settled : Prop) (offset : Nat)
    (left right : Machine) : Prop where
  | intro {handles : List UInt32} {leftLast rightLast : Machine}
      (leftGives : left.Gives handles leftLast) (rightGives : right.Gives handles rightLast)
      (alike : leftLast.Alike short long settled rightLast) (resting : leftLast.AtRest offset)
      (underway : leftLast.Underway fuel) : Together fuel short long settled offset left right

section Forms

variable {fuel : Nat} {short long : Code} {settled : Prop} {left right : Machine}
  {compiler later : Compiler} {expr : Expr} {exprs : List Expr} {instrs : List Instr}

/-- The code of an expression takes both machines to the instruction behind it. -/
theorem Alike.deliver {last : Instr} (extended : short.toList <+: long.toList)
    (alike : left.Alike short long settled right)
    (generated : expr.generate compiler.slot? compiler.buffer.used [] = .ok (instrs, []))
    (fits : expr.Fits compiler.slot? compiler.buffer.used [])
    (grown : (compiler.write (instrs ++ [last])).buffer.code.toList <+: short.toList)
    (resting : left.AtRest compiler.buffer.used) (underway : left.Underway fuel) :
    ∃ value heap events handles after,
      left.Gives handles (left.advance (compiler.buffer.used + Instr.sizeAll instrs) [value] heap
        events) ∧
      right.Gives handles after ∧
      (left.advance (compiler.buffer.used + Instr.sizeAll instrs) [value] heap events).Alike
        short long settled after ∧
      (left.advance (compiler.buffer.used + Instr.sizeAll instrs) [value] heap events).Underway
        fuel ∧
      left.code.instrAt (compiler.buffer.used + Instr.sizeAll instrs) = .ok (last, last.size) := by
  have placed := Compiler.places_of_write grown
  rw [← alike.code_eq.1] at placed
  rw [← resting.pc] at generated fits placed ⊢
  obtain ⟨counted, gives, underway⟩ := exprDelivers fuel expr generated fits placed.left underway
  obtain ⟨value, rfl⟩ := List.length_eq_one_iff.mp counted
  obtain ⟨after, again, stillAlike⟩ := alike.gives extended gives
  exact ⟨value, _, _, _, after, gives, again, stillAlike, underway, placed.right.instrAt⟩

/-- The code of a top-level expression takes both machines to the next one, and the last result is
settled unless the expression is a define. -/
theorem Alike.form (extended : short.toList <+: long.toList)
    (alike : left.Alike short long settled right) (added : compiler.Adds expr later)
    (fits : ∀ number ∈ compiler.formOperands expr, number < Expr.operandRange)
    (grown : later.buffer.code.toList <+: short.toList)
    (resting : left.AtRest compiler.buffer.used) (underway : left.Underway fuel) :
    Together fuel short long (settled ∨ expr.isDefine = false) later.buffer.used left right := by
  cases added with
  | @define span name value instrs free generated =>
      obtain ⟨result, heap, events, handles, after, gives, again, alike, underway, decoded⟩ :=
        alike.deliver extended generated fits grown resting underway
      obtain ⟨rest, laterHeap, laterEvents, next, rfl, sound, executed, stepped, completes⟩ :=
        underway.step decoded
      rw [Machine.execute, pop_advance_single] at executed
      cases executed
      obtain ⟨final, onward, settling⟩ := alike.gives extended (.single stepped)
      refine .intro (gives.trans (.single stepped)) (again.trans onward) (settling.imp ?_)
        ⟨?_, ?_, ?_⟩ ⟨sound, completes.succ⟩
      · rintro (done | other)
        · exact done
        · cases other
      · exact (compiler.used_write instrs .defGlobal).symm
      · simp [resting.stack]
      · exact resting.activations
  | @value _ instrs generated =>
      rw [Compiler.formOperands_of_generate generated] at fits
      obtain ⟨result, heap, events, handles, after, gives, again, alike, underway, decoded⟩ :=
        alike.deliver extended generated fits grown resting underway
      obtain ⟨rest, laterHeap, laterEvents, next, rfl, sound, executed, stepped, completes⟩ :=
        underway.step decoded
      obtain ⟨final, onward, settled⟩ :=
        alike.gives_pop extended decoded resting.activations stepped
      rw [Machine.execute, pop_advance_single] at executed
      split at executed
      · cases executed
        refine .intro (gives.trans (.single stepped)) (again.trans onward)
          (settled.imp fun _ => True.intro) ⟨?_, ?_, ?_⟩ ⟨sound, completes.succ⟩
        · exact (compiler.used_write instrs .pop).symm
        · simp [resting.stack]
        · exact resting.activations
      · next active =>
          rw [advance_activations, resting.activations] at active
          cases active

/-- The code of a batch takes both machines to its end. The last result is settled if one of its
expressions is no define. -/
theorem Alike.forms (extended : short.toList <+: long.toList)
    (alike : left.Alike short long settled right) (added : compiler.addForms exprs = (none, later))
    (fits : compiler.Fits exprs) (grown : later.buffer.code.toList <+: short.toList)
    (resting : left.AtRest compiler.buffer.used) (underway : left.Underway fuel) :
    Together fuel short long (settled ∨ ∃ expr ∈ exprs, expr.isDefine = false)
      later.buffer.used left right := by
  induction exprs generalizing compiler left right settled with
  | nil =>
      cases added
      refine .intro (.refl left) (.refl right) (alike.imp ?_) resting underway
      rintro (done | ⟨expr, listed, -⟩)
      · exact done
      · cases listed
  | cons expr rest ih =>
      obtain ⟨middle, first, rested⟩ := Compiler.addForms_cons added
      obtain ⟨firstFits, restFits⟩ := fits.cons first
      have behind := Compiler.addForms_extends middle rest
      rw [rested] at behind
      obtain ⟨gives, again, alike, resting, underway⟩ := alike.form extended
        (Compiler.adds_of_addForm first) firstFits (behind.code.trans grown) resting underway
      obtain ⟨onward, further, alike, resting, underway⟩ :=
        ih alike rested restFits resting underway
      refine .intro (gives.trans onward) (again.trans further) (alike.imp ?_) resting underway
      rw [List.exists_mem_cons_iff, or_assoc]
      exact id

end Forms

theorem step_of_end {machine : Machine} (ended : machine.pc = machine.code.size) :
    machine.step = .halted (.value machine.finalValue) machine := by
  rw [step, if_neg (Nat.not_lt_of_le (Nat.le_of_eq ended.symm))]

/-- A batch that has run to a value has taken the machine of the whole program along. -/
theorem Alike.batch {long : Code} {compiler middle : Compiler} {exprs : List Expr}
    {machine right last : Machine} {fuel : Nat} {value : Value}
    (added : compiler.addForms exprs = (none, middle)) (fits : compiler.Fits exprs)
    (extended : middle.buffer.code.toList <+: long.toList)
    (alike : (machine.prepare middle.buffer.code compiler.buffer.used).Alike middle.buffer.code
      long False right)
    (sound : machine.heap.Sound compiler.buffer.code)
    (ran : Machine.run fuel (machine.prepare middle.buffer.code compiler.buffer.used) =
      (.value value, last)) :
    ∃ after,
      right.Gives (handlesMade fuel (machine.prepare middle.buffer.code compiler.buffer.used))
        after ∧
      last.Alike middle.buffer.code long (∃ expr ∈ exprs, expr.isDefine = false) after ∧
      last.AtRest middle.buffer.used ∧ last.heap.Sound middle.buffer.code ∧
      value = last.finalValue := by
  have behind := Compiler.addForms_extends compiler exprs
  rw [added] at behind
  have underway : (machine.prepare middle.buffer.code compiler.buffer.used).Underway fuel :=
    ⟨sound.extend behind.code, value, last, ran⟩
  obtain ⟨gives, again, alike, resting, underway⟩ := alike.forms extended added fits
    (List.prefix_refl _) ⟨rfl, rfl, rfl⟩ underway
  have ended := step_of_end (by
    rw [alike.code_eq.1, CodeBuffer.size_code]
    exact resting.pc)
  obtain ⟨halted, rfl, made⟩ := gives.run_eq ended ran (by simp)
  rw [made]
  refine ⟨_, again, alike.imp .inr, resting, ?_, Halt.value.inj halted⟩
  rw [← alike.code_eq.1]
  exact underway.sound

end Machine

/-! ## All batches -/

/-- What programs have come to that were run one after the other on one machine: their values, the
handles given out on the way, and the machine in the end. -/
structure ProgramRuns where
  values : List Value
  handles : List UInt32
  machine : Machine

/-- Runs programs one after the other on one machine, each with the given fuel, if all of them come
to a value. -/
def Machine.runAll? (fuel : Nat) (machine : Machine) : List Program → Option ProgramRuns
  | [] => some ⟨[], [], machine⟩
  | program :: rest =>
      match machine.runFrom fuel program.code program.start with
      | (.value value, last) =>
          (last.runAll? fuel rest).map fun runs =>
            ⟨value :: runs.values,
              handlesMade fuel (machine.prepare program.code program.start) ++ runs.handles,
              runs.machine⟩
      | _ => none

namespace Machine

theorem runAll?_cons {fuel : Nat} {machine : Machine} {program : Program} {rest : List Program}
    {runs : ProgramRuns} (inside : program.start ≤ program.code.size)
    (ran : machine.runAll? fuel (program :: rest) = some runs) :
    ∃ value last later,
      run fuel (machine.prepare program.code program.start) = (.value value, last) ∧
      last.runAll? fuel rest = some later ∧
      runs = ⟨value :: later.values,
        handlesMade fuel (machine.prepare program.code program.start) ++ later.handles,
        later.machine⟩ := by
  rw [runAll?, runFrom_of_le inside] at ran
  split at ran
  · next value last first =>
      obtain ⟨later, rested, rfl⟩ := Option.map_eq_some_iff.mp ran
      exact ⟨value, last, later, first, rested, rfl⟩
  · cases ran

end Machine

open Machine in
/-- Batches that have run to values have taken the machine of the whole program along, from where
the first one starts to where the last one ends. -/
theorem Compiler.Batched.together {long : Code} {fuel : Nat} {compiler later : Compiler}
    {batches : List (List Expr)} {programs : List Program} {machine right : Machine}
    {runs : ProgramRuns} (batched : Batched compiler batches programs later)
    (fits : compiler.Fits batches.flatten)
    (extended : later.buffer.code.toList <+: long.toList)
    (alike : ∀ short, (machine.prepare short compiler.buffer.used).Alike short long False right)
    (sound : machine.heap.Sound compiler.buffer.code)
    (ran : machine.runAll? fuel programs = some runs) :
    ∃ after, right.Gives runs.handles after ∧
      (∀ short, (runs.machine.prepare short later.buffer.used).Alike short long False after) ∧
      ∀ batch ∈ batches.getLast?, (∃ expr ∈ batch, expr.isDefine = false) →
        runs.values.getLast? = some after.finalValue := by
  induction batched generalizing machine right runs with
  | nil =>
      cases ran
      refine ⟨right, .refl right, alike, ?_⟩
      intro batch listed
      cases listed
  | @cons compiler middle later exprs batches programs added rest ih =>
      have behind := addForms_extends compiler exprs
      rw [added] at behind
      rw [List.flatten_cons] at fits
      obtain ⟨firstFits, restFits⟩ := fits.append added
      have inside : compiler.buffer.used ≤ middle.buffer.code.size := by
        rw [← CodeBuffer.length_code, ← Array.length_toList]
        exact behind.code.length_le
      obtain ⟨value, last, onward, first, rested, rfl⟩ := runAll?_cons inside ran
      obtain ⟨after, gives, settled, resting, stillSound, same⟩ :=
        Alike.batch added firstFits (rest.extends.code.trans extended) (alike _) sound first
      have renewed : ∀ short,
          (last.prepare short middle.buffer.used).Alike short long False after := by
        intro short
        rw [← resting.pc]
        exact settled.prepare resting.stack resting.activations short
      cases rest with
      | nil =>
          cases rested
          refine ⟨after, ?_, renewed, ?_⟩
          · rw [List.append_nil]
            exact gives
          · intro batch listed someValue
            cases listed
            rw [same, ← (settled.imp fun _ => someValue).finalValue_eq]
            rfl
      | cons more behind =>
          obtain ⟨final, further, ended, valued⟩ :=
            ih restFits extended renewed stillSound rested
          refine ⟨final, gives.trans further, ended, ?_⟩
          intro batch listed someValue
          rw [List.getLast?_cons_cons] at listed
          rw [List.getLast?_cons, valued batch listed someValue]
          rfl

/-- A machine has the globals, the closures behind them, the output and the next handle that the
last one of some runs has. -/
structure Machine.SameEffects (runs : ProgramRuns) (last : Machine) : Prop where
  globals : last.globals = runs.machine.globals
  closures : ∀ value ∈ last.globals.toList, runs.machine.heap.SameFrom last.heap value
  events : last.events = runs.machine.events
  next : last.heap.next = runs.machine.heap.next

theorem Machine.Alike.sameEffects {runs : ProgramRuns} {short long : Code} {offset : Nat}
    {last : Machine}
    (alike : (runs.machine.prepare short offset).Alike short long False last) :
    last.SameEffects runs := by
  cases alike with
  | intro _ next _ globals _ => exact ⟨rfl, globals, rfl, next⟩

/-- With enough fuel, running code from its start comes to a value, gives out the given handles and
leaves the given machine. -/
def Machine.RunsTo (machine : Machine) (code : Code) (value : Value) (handles : List UInt32)
    (last : Machine) : Prop :=
  ∃ enough, ∀ fuel, enough ≤ fuel → machine.runFrom fuel code 0 = (.value value, last) ∧
    handlesMade fuel (machine.prepare code 0) = handles

theorem Machine.Gives.runsTo {machine last : Machine} {code : Code} {handles : List UInt32}
    (gives : (machine.prepare code 0).Gives handles last) (ended : last.pc = last.code.size) :
    machine.RunsTo code last.finalValue handles last := by
  obtain ⟨steps, reached⟩ := gives.exists_steps
  refine ⟨1 + steps, fun fuel enough => ?_⟩
  obtain ⟨rest, rfl⟩ := Nat.exists_eq_add_of_le' enough
  obtain ⟨ran, made⟩ := reached (rest + 1)
  rw [run, step_of_end ended, Nat.add_assoc] at ran
  rw [handlesMade, step_of_end ended, Nat.add_assoc] at made
  rw [runFrom_zero, ran, made]
  simp [givenOut]

theorem Heap.sound_new (threshold : Int) (code : Code) : (Heap.new threshold).Sound code := by
  intro handle closure stored
  simp [Heap.new] at stored

/-- Cutting top-level expressions into batches cannot be observed. A fresh compiler compiles the
batches one after the other if and only if it compiles all expressions at once. The code and the
names after the last batch are then those of the whole, the code of each batch is a front of the
whole code, and each batch starts where the one before it ends. If operands fit signed words and
the batches run to values one after the other on a fresh machine, then so does the whole, with the
same globals, output and handles, and with the value of the last batch if that has an expression
which is no define. -/
theorem Program.batching_invisible (batches : List (List Expr)) :
    ((∃ parts, Compiler.new.compileAll batches = .ok parts) ↔
        ∃ whole, Program.ofExprs batches.flatten = .ok whole) ∧
      ∀ parts whole, Compiler.new.compileAll batches = .ok parts →
        Program.ofExprs batches.flatten = .ok whole →
        whole.Splits parts ∧
          (Compiler.new.Fits batches.flatten →
            ∀ options fuel runs, (Machine.new options).runAll? fuel parts = some runs →
              ∃ value last, (Machine.new options).RunsTo whole.code value runs.handles last ∧
                last.SameEffects runs ∧
                ∀ batch ∈ batches.getLast?, (∃ expr ∈ batch, expr.isDefine = false) →
                  runs.values.getLast? = some value) := by
  rcases Compiler.new.compileAll_cases batches with
    ⟨programs, later, compiled, batched, added⟩ | ⟨error, later, failed, added⟩
  · have built : Program.ofExprs batches.flatten =
        .ok ⟨later.buffer.code, later.globals, 0⟩ := by
      rw [Program.ofExprs, Compiler.compile_of_addForms added]
      rfl
    rw [compiled, built]
    refine ⟨⟨fun _ => ⟨_, rfl⟩, fun _ => ⟨_, rfl⟩⟩, ?_⟩
    rintro parts whole ⟨⟩ ⟨⟩
    refine ⟨⟨batched.last, batched.fronts, batched.successive⟩, ?_⟩
    intro fits options fuel runs ran
    have alike : ∀ short, ((Machine.new options).prepare short Compiler.new.buffer.used).Alike
        short later.buffer.code False ((Machine.new options).prepare later.buffer.code 0) := by
      intro short
      refine .intro rfl rfl ?_ (fun value _ => .refl _ value) False.elim
      exact fun _ listed => absurd listed List.not_mem_nil
    obtain ⟨last, gives, alike, valued⟩ := batched.together fits (List.prefix_refl _) alike
      (Heap.sound_new _ _) ran
    have same := alike later.buffer.code
    have ended : last.pc = last.code.size := by
      rw [same.pc_eq, same.code_eq.2, CodeBuffer.size_code]
      rfl
    exact ⟨last.finalValue, last, gives.runsTo ended, same.sameEffects, valued⟩
  · have refused : Program.ofExprs batches.flatten = .error error := by
      rw [Program.ofExprs, Compiler.compile, added]
    rw [failed, refused]
    refine ⟨⟨?_, ?_⟩, ?_⟩
    · rintro ⟨parts, ⟨⟩⟩
    · rintro ⟨whole, ⟨⟩⟩
    · rintro parts whole ⟨⟩

/-- A function that makes closures, one that it has made, and a call of that. -/
def keeperBatches : List (List Expr) :=
  [[.define default [107]
      (.lambda default (some [107]) [[120]] (.lambda default none [] (.var default [120])))],
    [],
    [.define default [102] (.call default (.var default [107]) [.int default 5]),
      .call default (.var default [102]) []]]

/-- The programs of `keeperBatches`. -/
def keeperParts : List Program :=
  (Compiler.new.compileAll keeperBatches).toOption.getD []

/-- What the programs of `keeperBatches` come to. -/
def keeperRuns : ProgramRuns :=
  ((Machine.new {}).runAll? 20 keeperParts).getD ⟨[], [], Machine.new {}⟩

/-- The code of `keeperBatches`. -/
def keeperCode : Code :=
  #[5, 0, 0, 0, 35, 5, 0, 0, 0, 16, 2, 0, 0, 0, 1, 8, 2, 0, 0, 0, 0, 9, 0, 0, 0, 10, 0, 0, 0, 0, 0,
    0, 0, 1, 8, 9, 0, 0, 0, 5, 0, 0, 0, 1, 0, 0, 0, 0, 3, 0, 1, 0, 0, 0, 5, 4, 0, 0, 0, 9, 7, 0, 0,
    0, 1, 3, 4, 0, 0, 0, 10, 7, 0, 0, 0, 0, 1]

theorem Program.batching_invisible_keeper :
    Program.Splits ⟨keeperCode, predefinedNames ++ [[107], [102]], 0⟩ keeperParts ∧
      keeperRuns.values.getLast? = some (.int 5) ∧ keeperRuns.handles = [1, 2] ∧
      ∃ last, (Machine.new {}).RunsTo keeperCode (.int 5) [1, 2] last ∧
        last.SameEffects keeperRuns := by
  have compiled : Compiler.new.compileAll keeperBatches = .ok keeperParts := by decide +kernel
  have built : Program.ofExprs keeperBatches.flatten =
      .ok ⟨keeperCode, predefinedNames ++ [[107], [102]], 0⟩ := by decide +kernel
  have fits : Compiler.new.Fits keeperBatches.flatten := by
    unfold Compiler.Fits
    decide +kernel
  have ran : (Machine.new {}).runAll? 20 keeperParts = some keeperRuns := by
    have done : ((Machine.new {}).runAll? 20 keeperParts).isSome = true := by decide +kernel
    obtain ⟨runs, ran⟩ := Option.isSome_iff_exists.mp done
    rw [keeperRuns, ran]
    rfl
  have valued : keeperRuns.values.getLast? = some (.int 5) := by decide +kernel
  have given : keeperRuns.handles = [1, 2] := by decide +kernel
  obtain ⟨splits, runsAlike⟩ := (batching_invisible keeperBatches).2 _ _ compiled built
  obtain ⟨value, last, reached, same, result⟩ := runsAlike fits {} 20 _ ran
  cases valued.symm.trans (result _ rfl ⟨_, List.mem_cons_of_mem _ List.mem_cons_self, rfl⟩)
  rw [given] at reached
  exact ⟨splits, valued, given, last, reached, same⟩

end ClosureLisp
