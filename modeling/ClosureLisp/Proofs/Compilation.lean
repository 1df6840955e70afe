import ClosureLisp.Compiler.Batch
import ClosureLisp.Proofs.Generation

/-!
# Compiled batches

What a compiler adds for each top-level expression. Code and names are only ever appended, so
what one expression adds still stands in the final stream, and setting a compiler back to a
mark restores both.
-/

namespace ClosureLisp.Compiler

/-- The compiler after one top-level expression that has compiled. -/
inductive Adds (compiler : Compiler) : Expr → Compiler → Prop where
  | define {span : Span} {name : Name} {value : Expr} {instrs : List Instr}
      (free : compiler.slot? name = none)
      (generated : value.generate compiler.slot? compiler.buffer.used [] = .ok (instrs, [])) :
      Adds compiler (.define span name value)
        ((compiler.write (instrs ++ [.defGlobal])).declare name)
  | value {expr : Expr} {instrs : List Instr}
      (generated : expr.generate compiler.slot? compiler.buffer.used [] = .ok (instrs, [])) :
      Adds compiler expr (compiler.write (instrs ++ [.pop]))

variable {compiler later : Compiler} {expr : Expr} {exprs : List Expr}

/-- Code at top level needs no frames. -/
theorem addCode_eq_none {last : Instr} (added : compiler.addCode expr last = (none, later)) :
    ∃ instrs, expr.generate compiler.slot? compiler.buffer.used [] = .ok (instrs, []) ∧
      later = compiler.write (instrs ++ [last]) := by
  unfold addCode at added
  split at added
  · cases added
  · next instrs frames generated =>
      cases added
      have threaded : Frame.Threaded [] := True.intro
      obtain ⟨-, grown⟩ := Expr.keepsFrames compiler.slot? expr threaded generated
      cases grown
      exact ⟨instrs, generated, rfl⟩

theorem adds_of_addForm (added : compiler.addForm expr = (none, later)) :
    Adds compiler expr later := by
  unfold addForm at added
  split at added
  · split at added
    · cases added
    · next free =>
        split at added
        · cases added
        · next written =>
            cases added
            obtain ⟨instrs, generated, rfl⟩ := addCode_eq_none written
            exact .define free generated
  · obtain ⟨instrs, generated, rfl⟩ := addCode_eq_none added
    exact .value generated

theorem addForms_cons (added : compiler.addForms (expr :: exprs) = (none, later)) :
    ∃ middle, compiler.addForm expr = (none, middle) ∧ middle.addForms exprs = (none, later) := by
  rw [addForms] at added
  split at added
  · cases added
  · next middle first => exact ⟨middle, first, added⟩

/-! ## Growth -/

/-- A later compiler: code and names have only been appended. -/
structure Extends (compiler later : Compiler) : Prop where
  code : compiler.buffer.code.toList <+: later.buffer.code.toList
  globals : compiler.globals <+: later.globals

namespace Extends

theorem refl (compiler : Compiler) : Extends compiler compiler :=
  ⟨List.prefix_refl _, List.prefix_refl _⟩

theorem trans {first second third : Compiler} (left : Extends first second)
    (right : Extends second third) : Extends first third :=
  ⟨left.code.trans right.code, left.globals.trans right.globals⟩

theorem write (compiler : Compiler) (instrs : List Instr) :
    Extends compiler (compiler.write instrs) := by
  refine ⟨?_, List.prefix_refl _⟩
  rw [Compiler.write, CodeBuffer.toList_code_emitAll]
  exact List.prefix_append _ _

end Extends

theorem addCode_extends (compiler : Compiler) (expr : Expr) (last : Instr) :
    Extends compiler (compiler.addCode expr last).2 := by
  unfold addCode
  split <;> exact .write compiler _

theorem addForm_extends (compiler : Compiler) (expr : Expr) :
    Extends compiler (compiler.addForm expr).2 := by
  unfold addForm
  split
  · next span name value =>
      split
      · exact .refl compiler
      · have added := addCode_extends compiler value .defGlobal
        split
        · next error written =>
            rw [written] at added
            exact added
        · next written =>
            rw [written] at added
            exact added.trans ⟨List.prefix_refl _, List.prefix_append _ _⟩
  · exact addCode_extends compiler _ .pop

theorem addForms_extends (compiler : Compiler) (exprs : List Expr) :
    Extends compiler (compiler.addForms exprs).2 := by
  induction exprs generalizing compiler with
  | nil => exact .refl compiler
  | cons expr rest ih =>
      have added := addForm_extends compiler expr
      rw [addForms]
      split
      · next first =>
          rw [first] at added
          exact added
      · next first =>
          rw [first] at added
          exact added.trans (ih _)

/-- What was written last stands in all later streams. -/
theorem places_of_write {instrs : List Instr} {code : Code}
    (grown : (compiler.write instrs).buffer.code.toList <+: code.toList) :
    code.Places compiler.buffer.used instrs := by
  obtain ⟨rest, whole⟩ := grown
  refine ⟨compiler.buffer.code.toList, rest, ?_, CodeBuffer.length_code _⟩
  rw [← whole, Compiler.write, CodeBuffer.toList_code_emitAll, List.append_assoc]

theorem used_write (compiler : Compiler) (instrs : List Instr) (last : Instr) :
    (compiler.write (instrs ++ [last])).buffer.used =
      compiler.buffer.used + Instr.sizeAll instrs + last.size := by
  rw [Compiler.write, CodeBuffer.used_emitAll, Instr.sizeAll_append, Instr.sizeAll_singleton,
    Nat.add_assoc]

/-! ## Whole batches -/

theorem compile_eq_ok {program : Program}
    (compiled : compiler.compile exprs = (.ok program, later)) :
    compiler.addForms exprs = (none, later) ∧
      program = ⟨later.buffer.code, later.globals, compiler.buffer.used⟩ := by
  unfold compile at compiled
  split at compiled
  · cases compiled
  · next added =>
      cases compiled
      exact ⟨added, rfl⟩

/-- The code of a batch is appended, and its program starts where it begins. -/
theorem compile_extends {program : Program}
    (compiled : compiler.compile exprs = (.ok program, later)) :
    Extends compiler later ∧ program.code = later.buffer.code ∧
      program.start = compiler.buffer.used ∧ program.start ≤ program.code.size := by
  obtain ⟨added, rfl⟩ := compile_eq_ok compiled
  have extended := addForms_extends compiler exprs
  rw [added] at extended
  refine ⟨extended, rfl, rfl, ?_⟩
  rw [← CodeBuffer.length_code, ← Array.length_toList]
  exact extended.code.length_le

/-- A program that compiles is what a fresh compiler holds after adding its forms. -/
theorem ofExprs_eq_ok {program : Program} (compiled : Program.ofExprs exprs = .ok program) :
    ∃ later, new.addForms exprs = (none, later) ∧
      program = ⟨later.buffer.code, later.globals, 0⟩ :=
  ⟨_, compile_eq_ok (Prod.ext compiled rfl)⟩

/-- A later compiler can be set back to a mark. -/
theorem reset_of_extends (extended : Extends compiler later) :
    ∃ restored, later.reset compiler.mark = (true, restored) ∧
      restored.buffer.code = compiler.buffer.code ∧ restored.globals = compiler.globals := by
  have inside : compiler.buffer.used ≤ later.buffer.used := by
    rw [← CodeBuffer.length_code, ← CodeBuffer.length_code]
    exact extended.code.length_le
  obtain ⟨cut, truncated, -, code⟩ := CodeBuffer.truncate?_of_le later.buffer inside
  refine ⟨⟨cut, later.globals.take compiler.globals.length⟩, ?_, ?_, ?_⟩
  · unfold reset
    change later.buffer.truncate? compiler.mark.length = some cut at truncated
    rw [truncated]
    exact if_pos extended.globals.length_le
  · apply Array.toList_inj.mp
    rw [code, ← CodeBuffer.length_code]
    exact (List.prefix_iff_eq_take.mp extended.code).symm
  · exact (List.prefix_iff_eq_take.mp extended.globals).symm

/-- A later compiler that is set back to a mark has the code and the names of the mark again. -/
theorem reset_mark (extended : Extends compiler later) :
    (later.reset compiler.mark).2.buffer.code = compiler.buffer.code ∧
      (later.reset compiler.mark).2.globals = compiler.globals := by
  obtain ⟨restored, done, code, globals⟩ := reset_of_extends extended
  rw [done]
  exact ⟨code, globals⟩

/-- A batch that does not compile leaves neither code nor names behind. -/
theorem compile_eq_error {error : SourceError}
    (failed : compiler.compile exprs = (.error error, later)) :
    later.buffer.code = compiler.buffer.code ∧ later.globals = compiler.globals := by
  have extended := addForms_extends compiler exprs
  unfold compile at failed
  split at failed
  · next added =>
      rw [added] at extended
      cases failed
      exact reset_mark extended
  · cases failed

theorem compileText_eq_ok {text : Bytes} {program : Program}
    (compiled : compiler.compileText text = (.ok program, later)) :
    ∃ exprs, Reader.parse text = .ok exprs ∧ compiler.compile exprs = (.ok program, later) := by
  unfold compileText at compiled
  split at compiled
  · cases compiled
  · next exprs parsed => exact ⟨exprs, parsed, compiled⟩

/-- A text that does not compile leaves neither code nor names behind. -/
theorem compileText_eq_error {text : Bytes} {error : SourceError}
    (failed : compiler.compileText text = (.error error, later)) :
    later.buffer.code = compiler.buffer.code ∧ later.globals = compiler.globals := by
  unfold compileText at failed
  split at failed
  · cases failed
    exact ⟨rfl, rfl⟩
  · exact compile_eq_error failed

/-! ## Operands -/

/-- The offsets, slots and counts that the code of a top-level expression is written with. -/
def formOperands (compiler : Compiler) : Expr → List Nat
  | .define _ _ value => value.operands compiler.slot? compiler.buffer.used []
  | expr => expr.operands compiler.slot? compiler.buffer.used []

theorem formOperands_of_generate {globals : Name → Option Nat} {offset : Nat}
    {frames after : List Frame} {code : List Instr}
    (generated : expr.generate globals offset frames = .ok (code, after)) :
    compiler.formOperands expr = expr.operands compiler.slot? compiler.buffer.used [] := by
  cases expr with
  | define span name value => exact absurd generated Expr.generate_define
  | _ => rfl

/-- The same for a batch of them. -/
def batchOperands (compiler : Compiler) : List Expr → List Nat
  | [] => []
  | expr :: rest =>
      compiler.formOperands expr ++ batchOperands (compiler.addForm expr).2 rest

/-- Every offset, slot and count of the code of a batch fits a signed word. -/
def Fits (compiler : Compiler) (exprs : List Expr) : Prop :=
  ∀ number ∈ compiler.batchOperands exprs, number < Expr.operandRange

theorem Fits.cons {middle : Compiler} (fits : compiler.Fits (expr :: exprs))
    (first : compiler.addForm expr = (none, middle)) :
    (∀ number ∈ compiler.formOperands expr, number < Expr.operandRange) ∧ middle.Fits exprs := by
  rw [Fits, batchOperands, first, List.forall_mem_append] at fits
  exact fits

end ClosureLisp.Compiler
