import ClosureLisp.Proofs.Sessions

/-!
# Undone inputs

An input that has no value, because it cannot be read, does not compile or does not run to its
end, leaves a session as it was. Code, names and globals are those from before, and from the
globals on the heap holds what it held, each closure with its whole body in the code that is kept.
So the code of the input can be written over: no closure that was made by it is in reach.
-/

namespace ClosureLisp

namespace Compiler

/-! ## Compilers that hold the same -/

/-- Two compilers with the same code and the same names. They may differ in the spare room of
their buffers. -/
structure Same (left right : Compiler) : Prop where
  code : left.buffer.code = right.buffer.code
  globals : left.globals = right.globals

/-- Two compilers have come to the same error or to none, and hold the same. -/
inductive SameAdded (first second : Option SourceError × Compiler) : Prop where
  | intro {error : Option SourceError} {left right : Compiler} (first_eq : first = (error, left))
      (second_eq : second = (error, right)) (same : left.Same right) : SameAdded first second

namespace Same

variable {left right : Compiler}

theorem used (same : left.Same right) : left.buffer.used = right.buffer.used := by
  rw [← CodeBuffer.size_code, same.code, CodeBuffer.size_code]

theorem slot? (same : left.Same right) : left.slot? = right.slot? := by
  funext name
  rw [Compiler.slot?, same.globals]
  rfl

theorem write (same : left.Same right) (instrs : List Instr) :
    (left.write instrs).Same (right.write instrs) := by
  constructor
  · apply Array.toList_inj.mp
    simp only [Compiler.write, CodeBuffer.toList_code_emitAll, same.code]
  · exact same.globals

theorem declare (same : left.Same right) (name : Name) :
    (left.declare name).Same (right.declare name) :=
  ⟨same.code, congrArg (· ++ [name]) same.globals⟩

theorem addCode (same : left.Same right) (expr : Expr) (last : Instr) :
    SameAdded (left.addCode expr last) (right.addCode expr last) := by
  unfold Compiler.addCode
  rw [same.slot?, same.used]
  split
  · exact .intro rfl rfl (same.write _)
  · exact .intro rfl rfl (same.write _)

theorem addForm (same : left.Same right) (expr : Expr) :
    SameAdded (left.addForm expr) (right.addForm expr) := by
  unfold Compiler.addForm
  split
  · next span name value =>
      rw [same.slot?]
      split
      · exact .intro rfl rfl same
      · obtain @⟨error, _, _, leftAdded, rightAdded, kept⟩ := same.addCode value .defGlobal
        rw [leftAdded, rightAdded]
        cases error with
        | some error => exact .intro rfl rfl kept
        | none => exact .intro rfl rfl (kept.declare name)
  · exact same.addCode _ .pop

theorem addForms (same : left.Same right) (exprs : List Expr) :
    SameAdded (left.addForms exprs) (right.addForms exprs) := by
  induction exprs generalizing left right with
  | nil => exact .intro rfl rfl same
  | cons expr rest ih =>
      obtain @⟨error, _, _, leftAdded, rightAdded, kept⟩ := same.addForm expr
      rw [Compiler.addForms, Compiler.addForms, leftAdded, rightAdded]
      cases error with
      | some error => exact .intro rfl rfl kept
      | none => exact ih kept

/-- Compilers that hold the same compile every batch alike. -/
theorem compile (same : left.Same right) (exprs : List Expr) :
    (left.compile exprs).1 = (right.compile exprs).1 := by
  obtain @⟨error, leftLater, rightLater, leftAdded, rightAdded, kept⟩ := same.addForms exprs
  rw [Compiler.compile, Compiler.compile, leftAdded, rightAdded]
  cases error with
  | some error => rfl
  | none =>
      dsimp only [Compiler.mark]
      rw [kept.code, kept.globals, same.used]

end Same

end Compiler

/-! ## Handles of a run -/

namespace Machine

theorem step_next (machine : Machine) :
    machine.step.machine.heap.next = machine.heap.next ∨
      machine.step.machine.heap.next = machine.heap.next + 1 := by
  rcases machine.step_evolves with same | evolves
  · exact .inl (by rw [same])
  · rcases evolves.heap with same | ⟨closure, made⟩
    · exact .inl (by rw [same, collectIfNeeded_next])
    · exact .inr (by rw [made, Heap.alloc, collectIfNeeded_next])

theorem lt_of_mem_givenOut {machine : Machine} {count : Nat} {handle : UInt32}
    (next : machine.heap.next = UInt32.ofNat count + 1)
    (room : count + machine.made machine.step.machine < handleRange)
    (given : handle ∈ machine.givenOut machine.step.machine) : count < handle.toNat := by
  unfold givenOut at given
  unfold made at room
  split at given
  · cases given
  · next moved =>
      rw [if_neg moved] at room
      have counted : (UInt32.ofNat (count + 1)).toNat = count + 1 :=
        UInt32.toNat_ofNat_of_lt room
      rw [List.mem_singleton.mp given, next, ← UInt32.ofNat_one, ← UInt32.ofNat_add, counted]
      exact Nat.lt_succ_self _

theorem next_of_step {machine : Machine} {count : Nat}
    (next : machine.heap.next = UInt32.ofNat count + 1) :
    machine.step.machine.heap.next =
      UInt32.ofNat (count + machine.made machine.step.machine) + 1 := by
  unfold made
  split
  · next same => rw [same, next, Nat.add_zero]
  · next moved =>
      rw [machine.step_next.resolve_left moved, next, UInt32.ofNat_add]
      rfl

/-- A run gives out handles that come behind all handles given out before it. -/
theorem lt_of_mem_handlesMade {machine : Machine} {count fuel : Nat} {handle : UInt32}
    (next : machine.heap.next = UInt32.ofNat count + 1)
    (room : count + closuresMade fuel machine < handleRange)
    (given : handle ∈ handlesMade fuel machine) : count < handle.toNat := by
  induction fuel generalizing machine count with
  | zero => cases given
  | succ fuel ih =>
      have first := @lt_of_mem_givenOut machine count handle next
      have onward := next_of_step next
      rw [closuresMade] at room
      rw [handlesMade] at given
      cases stepped : machine.step with
      | halted halt last =>
          rw [stepped] at room given first
          exact first room given
      | running after =>
          rw [stepped] at room given first onward
          simp only [← Nat.add_assoc] at room
          rcases List.mem_append.mp given with now | later
          · exact first (Nat.lt_of_le_of_lt (Nat.le_add_right _ _) room) now
          · exact Nat.lt_of_le_of_lt (Nat.le_add_right _ _) (ih onward room later)

end Machine

namespace CompiledSession

/-! ## What is left of an input that fails -/

/-- The handles given out while an input is evaluated. -/
def handlesMade (fuel : Nat) (session : CompiledSession) (input : Bytes) : List UInt32 :=
  match session.compiler.compileText input with
  | (.error _, _) => []
  | (.ok program, _) => Machine.handlesMade fuel (session.startOf program)

/-- A session has not changed, except for what the machine has printed, for closures on its heap
that the globals do not lead to, and for the next handle. Lambdas are compiled inside frames; that
none is left open shows in later batches, which are compiled as they would have been before. -/
structure Unchanged (before after : CompiledSession) : Prop where
  code : after.compiler.buffer.code = before.compiler.buffer.code
  names : after.compiler.globals = before.compiler.globals
  slots : after.compiler.slot? = before.compiler.slot?
  batches : ∀ exprs, (after.compiler.compile exprs).1 = (before.compiler.compile exprs).1
  last : after.code = before.code
  globals : after.machine.globals = before.machine.globals
  reached : ∀ handle, after.machine.heap.Reaches after.machine.globals.toList handle ↔
    before.machine.heap.Reaches before.machine.globals.toList handle
  closures : ∀ handle, after.machine.heap.Reaches after.machine.globals.toList handle →
    ∃ closure, before.machine.heap.objects[handle]? = some closure ∧
      after.machine.heap.objects[handle]? = some closure ∧
      after.compiler.buffer.code.HoldsBody closure.entry.toNat closure.arity.toNat

variable {session after : CompiledSession} {made fuel : Nat} {older : List Event}
  {evaluator : Evaluator} {input : Bytes} {program : Program} {later : Compiler} {handle : UInt32}

/-- Whatever the globals lead to is linked. -/
theorem Aligned.linked_of_reaches (aligned : Aligned session made older evaluator)
    (reached : session.machine.heap.Reaches session.machine.globals.toList handle) :
    Linked evaluator.functions session.machine.heap.objects session.compiler.buffer.code
      evaluator.names handle := by
  induction reached with
  | root listed =>
      obtain ⟨arity, member⟩ := Value.mem_handlesOf.mp listed
      exact aligned.agrees.linked_of_globals _ member _ arity rfl
  | step _ found referred ih =>
      cases ih with
      | intro defined stored body arity captured bound linked =>
          cases found.symm.trans stored
          rw [Closure.handles, captured] at referred
          obtain ⟨inner, innerArity, rfl, listed⟩ := Value.mem_handlesOf_onMachine referred
          exact linked inner innerArity listed

/-- Whatever the globals lead to is a closure whose body stands in the code. -/
theorem Aligned.closure_of_reaches (aligned : Aligned session made older evaluator)
    (reached : session.machine.heap.Reaches session.machine.globals.toList handle) :
    ∃ closure, session.machine.heap.objects[handle]? = some closure ∧
      session.compiler.buffer.code.HoldsBody closure.entry.toNat closure.arity.toNat := by
  cases aligned.linked_of_reaches reached with
  | intro defined stored body arity captured bound linked =>
      obtain ⟨known, threaded, scopes, generated, fits, placed, small⟩ := body
      exact ⟨_, stored, .intro arity generated fits placed small⟩

/-- A session has not changed if its compiler holds the same and the machine has kept its globals
and what they lead to. -/
theorem Aligned.unchanged (aligned : Aligned session made older evaluator)
    (same : after.compiler.Same session.compiler) (last : after.code = session.code)
    (globals : after.machine.globals = session.machine.globals)
    (kept : ∀ {handle : UInt32} {closure : Closure},
      session.machine.heap.Reaches session.machine.globals.toList handle →
      session.machine.heap.objects[handle]? = some closure →
      after.machine.heap.objects[handle]? = some closure) :
    Unchanged session after := by
  have agreed : ∀ value ∈ session.machine.globals.toList,
      session.machine.heap.SameFrom after.machine.heap value := by
    intro value listed handle reached
    have reached := reached.of_mem listed
    obtain ⟨closure, stored, -⟩ := aligned.closure_of_reaches reached
    rw [stored, kept reached stored]
  have leads : ∀ handle, after.machine.heap.Reaches after.machine.globals.toList handle ↔
      session.machine.heap.Reaches session.machine.globals.toList handle := by
    intro handle
    rw [globals]
    exact (Heap.reaches_iff_of_sameFrom agreed).symm
  refine ⟨same.code, same.globals, same.slot?, same.compile, last, globals, leads, ?_⟩
  intro handle reached
  have reached := (leads handle).mp reached
  obtain ⟨closure, stored, body⟩ := aligned.closure_of_reaches reached
  exact ⟨closure, stored, kept reached stored, same.code ▸ body⟩

/-- What the run of an input that compiles has kept when it fails. -/
theorem Aligned.unchanged_of_undo (aligned : Aligned session made older evaluator)
    (compiled : session.compiler.compileText input = (.ok program, later))
    (room : made + (session.startOf program).closuresMade fuel < Machine.handleRange) :
    Unchanged session (session.undo session.compiler.mark later
      (Machine.run fuel (session.startOf program)).2) := by
  obtain ⟨exprs, parsed, batch⟩ := Compiler.compileText_eq_ok compiled
  obtain ⟨extended, -⟩ := Compiler.compile_extends batch
  have numbered : (session.startOf program).Numbered made :=
    ⟨aligned.agrees.numbered.next, aligned.agrees.numbered.below⟩
  have retains := (Machine.Retains.refl numbered).run room
  obtain ⟨code, globals⟩ := Compiler.reset_mark extended
  exact aligned.unchanged ⟨code, globals⟩ rfl (aligned.truncateGlobals retains) retains.kept

/-- The handles of an input come behind all handles that were given out before it. -/
theorem Aligned.lt_of_mem_handlesMade (aligned : Aligned session made older evaluator)
    (room : made + session.closuresMade fuel input < Machine.handleRange)
    (given : handle ∈ session.handlesMade fuel input) : made < handle.toNat := by
  rw [closuresMade] at room
  rw [handlesMade] at given
  split at given
  · cases given
  · next program later compiled =>
      rw [compiled] at room
      have next : (session.startOf program).heap.next = UInt32.ofNat made + 1 :=
        aligned.agrees.numbered.next
      exact Machine.lt_of_mem_handlesMade next room given

/-- An input that fails leaves an aligned session unchanged. -/
theorem Aligned.unchanged_of_error (aligned : Aligned session made older evaluator)
    (room : made + session.closuresMade fuel input < Machine.handleRange) {error : SessionError}
    (failed : (session.eval fuel input).1 = .error error) :
    Unchanged session (session.eval fuel input).2 := by
  rw [closuresMade] at room
  cases compiled : session.compiler.compileText input with
  | mk outcome later =>
      rw [compiled] at room
      cases outcome with
      | error refused =>
          obtain ⟨code, globals⟩ := Compiler.compileText_eq_error compiled
          rw [CompiledSession.eval_of_error compiled]
          exact aligned.unchanged ⟨code, globals⟩ rfl rfl fun _ => id
      | ok program =>
          obtain ⟨exprs, parsed, batch⟩ := Compiler.compileText_eq_ok compiled
          obtain ⟨-, -, -, inside⟩ := Compiler.compile_extends batch
          rw [CompiledSession.eval_of_ok compiled inside] at failed ⊢
          split at failed
          · cases failed
          · exact aligned.unchanged_of_undo compiled room

/-- Whatever inputs a session has been given, an input that fails leaves it unchanged, and the
globals lead to none of the closures that it made, as long as the operands of the earlier inputs
fit signed words and handles suffice for the whole session. -/
theorem eval_unchanged_of_error (options : MachineOptions) (session : CompiledSession) (made : Nat)
    (history : History options session made) (fuel : Nat) (input : Bytes)
    (room : made + session.closuresMade fuel input < Machine.handleRange) (error : SessionError)
    (failed : (session.eval fuel input).1 = .error error) :
    Unchanged session (session.eval fuel input).2 ∧
      ∀ handle ∈ session.handlesMade fuel input,
        ¬ (session.eval fuel input).2.machine.heap.Reaches
          (session.eval fuel input).2.machine.globals.toList handle := by
  obtain ⟨older, evaluator, aligned⟩ :=
    history.aligned (Nat.lt_of_le_of_lt (Nat.le_add_right _ _) room)
  have unchanged := aligned.unchanged_of_error room failed
  refine ⟨unchanged, fun handle given reached => ?_⟩
  have new := aligned.lt_of_mem_handlesMade room given
  obtain ⟨closure, stored, -⟩ := unchanged.closures handle reached
  exact absurd (aligned.agrees.objectsBelow stored) (Nat.not_le_of_lt new)

/-- A session with a function that makes closures. -/
def captured : CompiledSession :=
  ((new {}).eval 9 (utf8 "(define k (lambda (x) (lambda () x)))")).2

theorem eval_unchanged_of_error_captured :
    Unchanged captured (captured.eval 20 (utf8 "(define f (k 5)) (f 1)")).2 ∧
      ∀ handle ∈ captured.handlesMade 20 (utf8 "(define f (k 5)) (f 1)"),
        ¬ (captured.eval 20 (utf8 "(define f (k 5)) (f 1)")).2.machine.heap.Reaches
          (captured.eval 20 (utf8 "(define f (k 5)) (f 1)")).2.machine.globals.toList handle := by
  have first : Reader.parse (utf8 "(define k (lambda (x) (lambda () x)))") =
      .ok [.define ⟨⟨0, 1, 1⟩, ⟨36, 1, 37⟩⟩ [107]
        (.lambda ⟨⟨10, 1, 11⟩, ⟨35, 1, 36⟩⟩ (some [107]) [[120]]
          (.lambda ⟨⟨22, 1, 23⟩, ⟨34, 1, 35⟩⟩ none []
            (.var ⟨⟨33, 1, 34⟩, ⟨34, 1, 35⟩⟩ [120])))] := by cbv
  have second : Reader.parse (utf8 "(define f (k 5)) (f 1)") =
      .ok [.define ⟨⟨0, 1, 1⟩, ⟨15, 1, 16⟩⟩ [102]
          (.call ⟨⟨10, 1, 11⟩, ⟨14, 1, 15⟩⟩ (.var ⟨⟨11, 1, 12⟩, ⟨12, 1, 13⟩⟩ [107])
            [.int ⟨⟨13, 1, 14⟩, ⟨14, 1, 15⟩⟩ 5]),
        .call ⟨⟨17, 1, 18⟩, ⟨21, 1, 22⟩⟩ (.var ⟨⟨18, 1, 19⟩, ⟨19, 1, 20⟩⟩ [102])
          [.int ⟨⟨20, 1, 21⟩, ⟨21, 1, 22⟩⟩ 1]] := by cbv
  refine eval_unchanged_of_error {} captured _ (.eval .start 9 _ ?_) 20 _ ?_
    (.run (.fault 77 .call (.closureArity 2 0 1))) ?_
  · intro exprs program parsed _
    rw [first] at parsed
    cases parsed
    unfold Compiler.Fits
    decide +kernel
  · rw [closuresMade, closuresMade, captured, eval, Compiler.compileText, Compiler.compileText,
      first, second]
    decide +kernel
  · rw [eval, captured, eval, Compiler.compileText, Compiler.compileText, first, second]
    decide +kernel

end CompiledSession

end ClosureLisp
