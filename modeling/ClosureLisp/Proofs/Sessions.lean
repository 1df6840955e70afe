import ClosureLisp.Proofs.Correctness
import ClosureLisp.Session
import Mathlib

/-!
# Sessions keep compiler and machine aligned

Over any sequence of inputs, whether they fail to compile, fail to run or succeed, the closures
that the globals of the machine lead to stay linked to functions compiled earlier. The functions
are those of an evaluator that is only thought of. A run that goes wrong is undone, and what it
kept of the closures is what the globals led to before it.
-/

namespace ClosureLisp

open Evaluator

namespace CompiledSession

/-- Every offset, slot and count of the code of an input that compiles fits a signed word. -/
def Fits (session : CompiledSession) (input : Bytes) : Prop :=
  ∀ exprs program, Reader.parse input = .ok exprs →
    (session.compiler.compile exprs).1 = .ok program → session.compiler.Fits exprs

/-- The number of closures that an input makes. -/
def closuresMade (fuel : Nat) (session : CompiledSession) (input : Bytes) : Nat :=
  match session.compiler.compileText input with
  | (.error _, _) => 0
  | (.ok program, _) =>
      Machine.closuresMade fuel (session.machine.prepare program.code program.start)

/-- The sessions that a sequence of inputs leads to, with the number of closures made in all. -/
inductive History (options : MachineOptions) : CompiledSession → Nat → Prop where
  | start : History options (new options) 0
  | eval {session : CompiledSession} {made : Nat} (earlier : History options session made)
      (fuel : Nat) (input : Bytes) (fits : session.Fits input) :
      History options (session.eval fuel input).2 (made + session.closuresMade fuel input)

/-- The outcome of an input that has met no structural fault: a value, with stack and activations
empty and both tables of globals of the same size; or an input that does not compile; or a run
that goes on, or that ends with a fault which the program itself is the cause of. -/
def Safe : Except SessionError Value × CompiledSession → Prop
  | (.ok _, session) =>
      session.machine.stack = #[] ∧ session.machine.activations = [] ∧
        session.machine.globals.size = session.compiler.globals.length
  | (.error (.source _), _) => True
  | (.error (.run (.fault _ _ cause)), _) => cause.kind.IsExpected ∨ cause.kind = .assertion
  | (.error (.run (.malformed _)), _) => False
  | (.error (.eval _), _) => False
  | (.error .overrun, _) => False
  | (.error .unfinished, _) => True

/-- A session whose globals are those of an evaluator. -/
structure Aligned (session : CompiledSession) (made : Nat) (older : List Event)
    (evaluator : Evaluator) : Prop where
  names : evaluator.names = session.compiler.globals
  predefined : predefinedValues.length ≤ session.compiler.globals.length
  agrees : Agrees made older evaluator (session.machine.prepare session.compiler.buffer.code 0)

theorem aligned_new (options : MachineOptions) :
    Aligned (new options) 0 [] (Evaluator.new 0) :=
  ⟨rfl, Nat.le_refl _, agrees_new options _ 0⟩

end CompiledSession

/-- How a run that follows an evaluation ends within a given fuel, if handles suffice: it uses the
fuel up, it comes to the value of the evaluation, or it ends with a fault. -/
theorem Follows.halts {start : Machine} {older : List Event} {failures made fuel depth : Nat}
    {later : Compiler} {outcome : EStateM.Result EvalError Evaluator Value} {deep : Prop}
    (follows : Follows deep older failures (AtForm start depth older later) made start outcome)
    (shallow : ¬ deep) (whole : start.code = later.buffer.code)
    (room : made + start.closuresMade fuel < Machine.handleRange) :
    (Machine.run fuel start).1 = .outOfFuel ∨
      (∃ result evaluator last, Machine.run fuel start = (.value result.onMachine, last) ∧
        AtForm start depth older later result (made + start.closuresMade fuel) evaluator last) ∨
      ∃ pc opcode cause, (Machine.run fuel start).1 = .error (.fault pc opcode cause) ∧
        (cause.kind.IsExpected ∨ cause.kind = .assertion) := by
  have failing : ∀ {cause : Fault} {last : Machine}, start.Fails cause last →
      cause.kind.IsExpected ∨ cause.kind = .assertion →
      (Machine.run fuel start).1 = .outOfFuel ∨
        ∃ pc opcode cause, (Machine.run fuel start).1 = .error (.fault pc opcode cause) ∧
          (cause.kind.IsExpected ∨ cause.kind = .assertion) := by
    rintro cause last ⟨count, pc, opcode, ends⟩ caused
    refine (ends.outOfFuel_or_eq fuel).imp_right ?_
    rintro ⟨reached, -⟩
    exact ⟨pc, opcode, cause, by rw [reached], caused⟩
  cases follows with
  | strays strayed =>
      rcases strayed with ⟨more, last, runs, exhausted⟩ | ⟨limit, last, failed⟩
      · rcases runs.outOfFuel_or_le fuel with used | enough
        · exact .inl used
        · omega
      · exact (failing failed (.inl (.inr rfl))).imp_right .inr
  | asserted counted failed => exact (failing failed (.inr rfl)).imp_right .inr
  | @value result evaluator more last runs counted reached =>
      have ends := runs.ends (.of_step (reached.ends whole))
      rw [Machine.made, if_pos rfl, Nat.add_zero] at ends
      rcases ends.outOfFuel_or_eq fuel with used | ⟨ended, closures⟩
      · exact .inl used
      · rw [closures]
        exact .inr (.inl ⟨result, evaluator, last, ended, reached⟩)
  | fault ordinary same failed counted printed =>
      exact (failing failed (.inl (.inl (same ▸ ordinary)))).imp_right .inr
  | tooDeep room => exact absurd room shallow

namespace CompiledSession

variable {session : CompiledSession} {made : Nat} {older : List Event} {evaluator : Evaluator}
  {later : Compiler} {program : Program} {input : Bytes} {fuel : Nat}

/-! ## One input -/

theorem eval_of_error {error : SourceError}
    (failed : session.compiler.compileText input = (.error error, later)) :
    session.eval fuel input = (.error (.source error), { session with compiler := later }) := by
  rw [eval, failed]

/-- The machine at the start of the run of a program. -/
def startOf (session : CompiledSession) (program : Program) : Machine :=
  session.machine.prepare program.code program.start

theorem eval_of_ok (compiled : session.compiler.compileText input = (.ok program, later))
    (inside : program.start ≤ program.code.size) :
    session.eval fuel input =
      match (Machine.run fuel (session.startOf program)).1.outcome with
      | .ok value =>
          (.ok value, ⟨later, (Machine.run fuel (session.startOf program)).2, program.code⟩)
      | .error error =>
          (.error error,
            session.undo session.compiler.mark later
              (Machine.run fuel (session.startOf program)).2) := by
  rw [eval, compiled]
  simp only [Machine.runFrom_of_le inside]
  rfl

theorem Aligned.size_globals (aligned : Aligned session made older evaluator) :
    session.machine.globals.size = session.compiler.globals.length := by
  have counted := congrArg List.length aligned.agrees.globals
  rw [Array.length_toList, List.length_map] at counted
  rw [← aligned.names, Evaluator.names, List.length_map]
  exact counted

/-- A compiler with the same code and names is as good. -/
theorem Aligned.recompile (aligned : Aligned session made older evaluator)
    (code : later.buffer.code = session.compiler.buffer.code)
    (globals : later.globals = session.compiler.globals) :
    Aligned { session with compiler := later } made older evaluator := by
  refine ⟨aligned.names.trans globals.symm, ?_, ?_⟩
  · rw [globals]
    exact aligned.predefined
  · rw [code]
    exact aligned.agrees

/-- A run starts in agreement with an evaluator that nests calls at most as deeply as the stack is
high. -/
theorem Aligned.atForm (aligned : Aligned session made older evaluator)
    (extended : session.compiler.Extends later) (code : program.code = later.buffer.code)
    (start : program.start = session.compiler.buffer.used) :
    AtForm (session.startOf program) session.machine.stackLimit older session.compiler .nil made
      { evaluator with maxDepth := session.machine.stackLimit } (session.startOf program) := by
  have agrees := aligned.agrees
  refine ⟨⟨agrees.next, agrees.machineNext, agrees.functionsBelow, agrees.objectsBelow,
    agrees.globals, ?_, agrees.prints⟩, aligned.names, rfl, rfl, rfl, rfl, start, rfl, rfl, rfl⟩
  intro value listed handle arity same
  refine (agrees.linked value listed handle arity same).mono id id ?_ (List.prefix_refl _)
  change _ <+: program.code.toList
  rw [code]
  exact extended.code

/-- A run that has come to a value leaves compiler and machine aligned. -/
theorem Aligned.of_value (code : Code) {start last : Machine} {depth : Nat} {result : Value}
    (reached : AtForm start depth older later result made evaluator last)
    (whole : start.code = later.buffer.code)
    (predefined : predefinedValues.length ≤ later.globals.length) :
    Aligned ⟨later, last, code⟩ made older evaluator := by
  refine ⟨reached.names, predefined, ?_⟩
  refine reached.agrees.restack rfl (whole.symm.trans reached.code.symm) rfl rfl rfl ?_ ?_
  · exact fun value listed => absurd listed List.not_mem_nil
  · intro value listed
    obtain rfl : value = .nil := by simpa [Machine.prepare] using listed
    exact linkedValue_constant _ _ .nil

/-- A machine that forgets the globals of a run has those from before it again. -/
theorem Aligned.truncateGlobals (aligned : Aligned session made older evaluator) {count : Nat}
    {last : Machine} (retains : (session.startOf program).Retains count last) :
    (last.truncateGlobals session.compiler.mark.globals).globals = session.machine.globals := by
  apply Array.toList_inj.mp
  have count : max session.compiler.globals.length predefinedValues.length =
      session.machine.globals.toList.length := by
    rw [Nat.max_eq_left aligned.predefined, Array.length_toList, aligned.size_globals]
  rw [Machine.truncateGlobals, Array.toList_shrink]
  change last.globals.toList.take (max session.compiler.globals.length _) = _
  rw [count]
  exact (List.prefix_iff_eq_take.mp retains.globals).symm

/-- A run that is undone leaves compiler and machine aligned: the globals are those from before,
and what they lead to has been kept. -/
theorem Aligned.undo (aligned : Aligned session made older evaluator)
    (extended : session.compiler.Extends later) {count : Nat} {last : Machine}
    (retains : (session.startOf program).Retains count last) (more : made ≤ count)
    (room : count < Machine.handleRange) :
    Aligned (session.undo session.compiler.mark later last) count last.events
      { evaluator with next := UInt32.ofNat count, displayed := [] } := by
  obtain ⟨code, globals⟩ := Compiler.reset_mark extended
  have restored := aligned.truncateGlobals retains
  have agrees := aligned.agrees
  refine ⟨aligned.names.trans globals.symm, ?_, ?_, ?_, ?_, ?_, ?_, ?_, fun _ => rfl⟩
  · rw [CompiledSession.undo, globals]
    exact aligned.predefined
  · exact UInt32.toNat_ofNat_of_lt room
  · exact retains.numbered.next
  · exact fun found => Nat.lt_of_lt_of_le (agrees.functionsBelow found) more
  · exact retains.numbered.below
  · exact (congrArg Array.toList restored).trans agrees.globals
  · refine Machine.forall_mem_roots.mpr ⟨?_, ?_, ?_⟩
    · exact fun value listed => absurd listed List.not_mem_nil
    · rintro value listed handle arity rfl
      have known : .closure handle arity ∈ session.machine.globals.toList := restored ▸ listed
      -- Whatever the globals led to before the run is alive, and was kept.
      refine Linked.transfer (session.machine.heap.Reaches session.machine.globals.toList)
        (fun reached _ stored _ referred => Table.Reaches.step reached stored referred)
        (fun _ defined => defined) retains.kept ?_ (List.prefix_refl _)
        (Table.Reaches.root (Value.mem_handlesOf.mpr ⟨arity, known⟩))
        (agrees.linked_of_globals _ known handle arity rfl)
      change session.compiler.buffer.code.toList <+: (later.reset _).2.buffer.code.toList
      exact code ▸ List.prefix_refl _
    · intro value listed
      obtain rfl : value = .nil := by simpa [Machine.prepare] using listed
      exact linkedValue_constant _ _ .nil

theorem Aligned.eval_of_ok (aligned : Aligned session made older evaluator)
    (compiled : session.compiler.compileText input = (.ok program, later))
    (fits : session.Fits input)
    (room : made + (session.startOf program).closuresMade fuel < Machine.handleRange) :
    Safe (session.eval fuel input) ∧
      ∃ older evaluator, Aligned (session.eval fuel input).2
        (made + (session.startOf program).closuresMade fuel) older evaluator := by
  obtain ⟨exprs, parsed, batch⟩ := Compiler.compileText_eq_ok compiled
  have fits := fits exprs program parsed (by rw [batch])
  obtain ⟨added, -⟩ := Compiler.compile_eq_ok batch
  obtain ⟨extended, code, start, inside⟩ := Compiler.compile_extends batch
  have standing := aligned.atForm extended code start
  have follows := standing.evalForms added fits (code ▸ List.prefix_refl _)
  have retains := (Machine.Retains.refl standing.agrees.numbered).run room
  have undone := aligned.undo extended retains (Nat.le_add_right _ _) room
  rw [CompiledSession.eval_of_ok compiled inside]
  rcases follows.halts (Nat.lt_irrefl _) code room with
    used | ⟨result, ghost, last, ended, reached⟩ | ⟨pc, opcode, cause, failed, caused⟩
  · rw [used]
    exact ⟨True.intro, _, _, undone⟩
  · rw [ended]
    have aligned := Aligned.of_value program.code reached code
      (Nat.le_trans aligned.predefined extended.globals.length_le)
    exact ⟨⟨reached.stack, reached.activations, aligned.size_globals⟩, older, ghost, aligned⟩
  · rw [failed]
    exact ⟨caused, _, _, undone⟩

/-- What one input does: its outcome is safe, and compiler and machine stay aligned. -/
theorem Aligned.eval (aligned : Aligned session made older evaluator)
    (fits : session.Fits input)
    (room : made + session.closuresMade fuel input < Machine.handleRange) :
    Safe (session.eval fuel input) ∧
      ∃ older evaluator, Aligned (session.eval fuel input).2
        (made + session.closuresMade fuel input) older evaluator := by
  rw [closuresMade] at room ⊢
  cases compiled : session.compiler.compileText input with
  | mk outcome later =>
      rw [compiled] at room
      cases outcome with
      | ok program => exact aligned.eval_of_ok compiled fits room
      | error error =>
          obtain ⟨code, globals⟩ := Compiler.compileText_eq_error compiled
          rw [eval_of_error compiled]
          exact ⟨True.intro, older, evaluator, aligned.recompile code globals⟩

/-! ## Sequences of inputs -/

theorem History.aligned {options : MachineOptions} (history : History options session made)
    (room : made < Machine.handleRange) :
    ∃ older evaluator, Aligned session made older evaluator := by
  induction history with
  | start => exact ⟨[], _, aligned_new options⟩
  | eval earlier fuel input fits ih =>
      obtain ⟨older, evaluator, aligned⟩ := ih (Nat.lt_of_le_of_lt (Nat.le_add_right _ _) room)
      exact (aligned.eval fits room).2

/-- Whatever inputs a session has been given, successful or not, the next one meets no structural
fault, as long as operands fit signed words and handles suffice for the whole session. -/
theorem eval_safe_of_history (options : MachineOptions) (session : CompiledSession) (made : Nat)
    (history : History options session made) (fuel : Nat) (input : Bytes)
    (fits : session.Fits input)
    (room : made + session.closuresMade fuel input < Machine.handleRange) :
    Safe (session.eval fuel input) := by
  obtain ⟨older, evaluator, aligned⟩ :=
    history.aligned (Nat.lt_of_le_of_lt (Nat.le_add_right _ _) room)
  exact (aligned.eval fits room).1

theorem eval_safe_of_history_capture :
    Safe (((new {}).eval 9 (utf8 "(define k (lambda (x) (lambda () x)))")).2.eval 20
      (utf8 "(k 5)")) := by
  have first : Reader.parse (utf8 "(define k (lambda (x) (lambda () x)))") =
      .ok [.define ⟨⟨0, 1, 1⟩, ⟨36, 1, 37⟩⟩ [107]
        (.lambda ⟨⟨10, 1, 11⟩, ⟨35, 1, 36⟩⟩ (some [107]) [[120]]
          (.lambda ⟨⟨22, 1, 23⟩, ⟨34, 1, 35⟩⟩ none []
            (.var ⟨⟨33, 1, 34⟩, ⟨34, 1, 35⟩⟩ [120])))] := by cbv
  have second : Reader.parse (utf8 "(k 5)") =
      .ok [.call ⟨⟨0, 1, 1⟩, ⟨4, 1, 5⟩⟩ (.var ⟨⟨1, 1, 2⟩, ⟨2, 1, 3⟩⟩ [107])
        [.int ⟨⟨3, 1, 4⟩, ⟨4, 1, 5⟩⟩ 5]] := by cbv
  refine eval_safe_of_history {} _ _ (.eval .start 9 _ ?_) 20 _ ?_ ?_
  · intro exprs program parsed _
    rw [first] at parsed
    cases parsed
    unfold Compiler.Fits
    decide +kernel
  · intro exprs program parsed _
    rw [second] at parsed
    cases parsed
    unfold Compiler.Fits
    rw [eval, Compiler.compileText, first]
    decide +kernel
  · rw [closuresMade, closuresMade, eval, Compiler.compileText, Compiler.compileText, first,
      second]
    decide +kernel

end CompiledSession

end ClosureLisp
