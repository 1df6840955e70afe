import ClosureLisp.Proofs.Batches
import ClosureLisp.Proofs.Retention
import ClosureLisp.Proofs.Scoping

/-!
# Compiled programs run as they are evaluated

A program that compiles ends on a fresh machine as it ends in a fresh evaluator, apart from the
numbering of closures. The machine follows the evaluation from its first instruction on, so what
is left here is the start, the end, and what more fuel than needed does not change.
-/

namespace ClosureLisp

open Evaluator

/-- The kind of the fault that a run ends with. -/
def Halt.faultKind? : Halt → Option Fault.Kind
  | .error (.fault _ _ cause) => some cause.kind
  | _ => none

/-- The kind of the fault that an evaluation ends with. -/
def Evaluator.faultKind? : EStateM.Result EvalError Evaluator Value → Option Fault.Kind
  | .error (.fault cause) _ => some cause.kind
  | _ => none

/-- A run and an evaluation end alike: with the same value or with faults of the same ordinary
kind, and with the same values displayed, all in the machine's form. -/
inductive SameOutcome :
    Halt × Machine → EStateM.Result EvalError Evaluator Value → Prop where
  | value {result : Value} {machine : Machine} {evaluator : Evaluator}
      (printed : machine.events = evaluator.displayed.map fun value => .displayed value.onMachine) :
      SameOutcome (.value result.onMachine, machine) (.ok result evaluator)
  | fault {pc : Int} {opcode : Opcode} {stopped cause : Fault} {machine : Machine}
      {evaluator : Evaluator} (ordinary : cause.kind.IsOrdinary) (same : stopped.kind = cause.kind)
      (printed : machine.events = evaluator.displayed.map fun value => .displayed value.onMachine) :
      SameOutcome (.error (.fault pc opcode stopped), machine) (.error (.fault cause) evaluator)

section Start

variable (options : MachineOptions) (code : Code) (maxDepth : Int)

theorem predefined_not_closure (handle : UInt32) (arity : Int) :
    .closure handle arity ∉ predefinedValues := by
  have plain : ∀ value ∈ predefinedValues, value.tag ≠ .closure := by decide
  exact fun listed => plain _ listed rfl

/-- A fresh machine agrees with a fresh evaluator. -/
theorem agrees_new :
    Agrees 0 [] (Evaluator.new maxDepth) ((Machine.new options).prepare code 0) := by
  refine ⟨rfl, rfl, ?_, ?_, rfl, ?_, fun _ => rfl⟩
  · intro handle function found
    simp [Evaluator.new] at found
  · intro handle closure found
    simp [Machine.prepare, Machine.new, Heap.new] at found
  · refine Machine.forall_mem_roots.mpr ⟨?_, ?_, ?_⟩
    · exact fun value listed => absurd listed List.not_mem_nil
    · rintro value listed handle arity rfl
      exact absurd listed (predefined_not_closure handle arity)
    · intro value listed
      obtain rfl : value = .nil := by simpa [Machine.prepare] using listed
      exact linkedValue_constant _ _ .nil

theorem atForm_new :
    AtForm ((Machine.new options).prepare code 0) (Evaluator.new maxDepth).maxDepth []
      Compiler.new .nil 0 (Evaluator.new maxDepth) ((Machine.new options).prepare code 0) :=
  ⟨agrees_new options code maxDepth, rfl, rfl, rfl, rfl, rfl, rfl, rfl, rfl, rfl⟩

end Start

/-- At the end of the code a run ends with the last result. -/
theorem AtForm.ends {start machine : Machine} {depth count : Nat} {older : List Event}
    {compiler : Compiler} {result : Value} {evaluator : Evaluator}
    (standing : AtForm start depth older compiler result count evaluator machine)
    (whole : start.code = compiler.buffer.code) :
    machine.step = .halted (.value result.onMachine) machine := by
  have done : ¬ machine.pc < machine.code.size := by
    rw [standing.pc, standing.code, whole, CodeBuffer.size_code]
    exact Nat.lt_irrefl _
  have final : machine.finalValue = result.onMachine := by
    rw [Machine.finalValue, standing.stack, standing.result]
    rfl
  rw [Machine.step, if_neg done, final]

theorem Agrees.numbered {count : Nat} {older : List Event} {evaluator : Evaluator}
    {machine : Machine} (agrees : Agrees count older evaluator machine) :
    machine.Numbered count := by
  refine ⟨?_, agrees.objectsBelow⟩
  rw [agrees.machineNext, ← agrees.next, UInt32.ofNat_toNat]

/-- A run with handles enough whose stack never becomes full does not stray. -/
theorem Machine.not_strays {machine : Machine}
    (handles : ∀ fuel, machine.closuresMade fuel < handleRange)
    (stack : ∀ fuel, (run fuel machine).1.faultKind? ≠ some .stackOverflow) :
    ¬ machine.Strays 0 := by
  rintro (⟨more, last, runs, exhausted⟩ | ⟨limit, last, count, pc, opcode, ends⟩)
  · obtain ⟨fuel, made⟩ := runs.exists_le_closuresMade
    have few := handles fuel
    omega
  · obtain ⟨enough, reached⟩ := ends.exists_fuel
    apply stack enough
    rw [reached enough (Nat.le_refl _)]
    rfl

/-- A program that compiles runs as it is evaluated. If every offset, slot and count fits a signed
word, handles and stack suffice and no assertion is false, then with enough fuel the run on a
fresh machine ends as the evaluation by a fresh evaluator does. Whatever happens, the evaluation
fails with a run-time fault only, and with one that the program itself is the cause of. -/
theorem run_sameOutcome_evalProgram (exprs : List Expr) (program : Program)
    (options : MachineOptions) (maxDepth : Int)
    (compiled : Program.ofExprs exprs = .ok program) :
    (Compiler.new.Fits exprs → options.trace = false →
      (∀ fuel, ((Machine.new options).prepare program.code 0).closuresMade fuel <
        Machine.handleRange) →
      (∀ fuel, ((Machine.new options).runFrom fuel program.code 0).1.faultKind? ≠
        some .stackOverflow) →
      Evaluator.faultKind? (evalProgram exprs (Evaluator.new maxDepth)) ≠ some .stackOverflow →
      (after (evalProgram exprs (Evaluator.new maxDepth))).failures = 0 →
      ∃ enough, ∀ fuel, enough ≤ fuel →
        SameOutcome ((Machine.new options).runFrom fuel program.code 0)
          (evalProgram exprs (Evaluator.new maxDepth))) ∧
    ∀ error evaluator, evalProgram exprs (Evaluator.new maxDepth) = .error error evaluator →
      ∃ cause, error = .fault cause ∧ cause.kind.IsExpected := by
  obtain ⟨later, added, shape⟩ := Compiler.ofExprs_eq_ok compiled
  have whole : program.code = later.buffer.code := congrArg Program.code shape
  constructor
  · intro fits untraced handles stack shallow holds
    simp only [Machine.runFrom_zero] at stack ⊢
    have follows := (atForm_new options program.code maxDepth).evalForms added fits
      (by rw [← whole]; exact List.prefix_refl _)
    rw [evalProgram] at shallow holds ⊢
    have kept := Machine.Retains.refl (agrees_new options program.code maxDepth).numbered
    generalize evalForms .nil exprs (Evaluator.new maxDepth) = outcome at *
    cases follows with
    | strays strayed => exact absurd strayed (Machine.not_strays handles stack)
    | asserted counted failed =>
        rw [holds] at counted
        exact absurd counted (Nat.not_lt_zero _)
    | value runs counted reached =>
        obtain ⟨enough, ended⟩ := (runs.ends (.of_step (reached.ends whole))).exists_fuel
        refine ⟨enough, fun fuel within => ?_⟩
        rw [ended fuel within]
        have printed := reached.agrees.prints (reached.trace.trans untraced)
        rw [List.append_nil] at printed
        exact .value printed
    | fault ordinary same failed counted printed =>
        obtain ⟨made, pc, opcode, ends⟩ := failed
        obtain ⟨enough, ended⟩ := ends.exists_fuel
        refine ⟨enough, fun fuel within => ?_⟩
        have kept := kept.run (by rw [Nat.zero_add]; exact handles fuel)
        rw [ended fuel within] at kept ⊢
        have printed := printed (kept.trace.trans untraced)
        rw [List.append_nil] at printed
        exact .fault ordinary same printed
    | tooDeep room => exact absurd rfl shallow
  · intro error evaluator failed
    have behaves := evalForms_behaves added (standing_new maxDepth)
    rw [evalProgram] at failed
    rw [failed] at behaves
    cases behaves with
    | fault expected => exact ⟨_, rfl, expected⟩

/-- A call whose value is a closure over its argument. -/
def captureProgram : List Expr :=
  [.call default (.lambda default none [[120]] (.lambda default none [] (.var default [120])))
    [.int default 5]]

/-- The code of `captureProgram`. -/
def captureCode : Code :=
  #[0, 1, 0, 0, 0, 5, 5, 0, 0, 0, 41, 5, 0, 0, 0, 22, 2, 0, 0, 0, 1, 8, 2, 0, 0, 0, 0, 9, 0, 0, 0,
    16, 0, 0, 0, 0, 0, 0, 0, 1, 8, 9, 0, 0, 0, 11, 0, 0, 0, 1, 0, 0, 0, 0, 7, 0, 0, 0, 1, 1]

theorem run_sameOutcome_captureProgram :
    Program.ofExprs captureProgram = .ok ⟨captureCode, predefinedNames, 0⟩ ∧
      ∃ enough, ∀ fuel, enough ≤ fuel →
        SameOutcome ((Machine.new {}).runFrom fuel captureCode 0)
          (evalProgram captureProgram (Evaluator.new 3)) := by
  have compiled : Program.ofExprs captureProgram = .ok ⟨captureCode, predefinedNames, 0⟩ := by
    decide +kernel
  let start := (Machine.new {}).prepare captureCode 0
  have ran : Machine.run 20 start = (.value (.closure 2 0), (Machine.run 20 start).2) :=
    Prod.ext (by decide +kernel) rfl
  have ends := Machine.ends_of_run ran (by decide)
  refine ⟨compiled, (run_sameOutcome_evalProgram captureProgram _ {} 3
    compiled).1 ?_ rfl ?_ ?_ ?_ ?_⟩
  · unfold Compiler.Fits
    decide +kernel
  · intro fuel
    have few : start.closuresMade 20 < Machine.handleRange := by decide +kernel
    exact Nat.lt_of_le_of_lt (ends.closuresMade_le fuel) few
  · intro fuel
    rw [Machine.runFrom_zero]
    rcases ends.outOfFuel_or_eq fuel with used | ⟨reached, -⟩
    · rw [used]
      decide
    · rw [reached]
      decide
  · decide +kernel
  · decide +kernel

end ClosureLisp
