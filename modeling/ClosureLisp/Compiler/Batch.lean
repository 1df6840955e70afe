import ClosureLisp.Bytecode.Buffer
import ClosureLisp.Bytecode.Listing
import ClosureLisp.Compiler.Generate
import ClosureLisp.Primitive
import ClosureLisp.Source.Reader

/-!
# Compiling batches

A compiler appends the code of one batch of top-level expressions after another to one
stream and keeps the table of global names. A batch that fails leaves neither code nor
names behind, and a mark can undo batches that compiled.
-/

namespace ClosureLisp

/-- A stream of code, the names of its global slots, and where its latest batch starts. -/
structure Program where
  code : Code
  globals : List Name
  start : Nat
  deriving DecidableEq, Repr

/-- The listing of a program. -/
def Program.listing (program : Program) : Bytes :=
  program.code.fullListing program.globals

/-- A compiler between two batches. -/
structure Compiler where
  buffer : CodeBuffer
  globals : List Name

namespace Compiler

/-- A compiler that knows the predefined names only. -/
def new : Compiler :=
  ⟨CodeBuffer.empty, predefinedNames⟩

/-- The slot of a global name. -/
def slot? (compiler : Compiler) (name : Name) : Option Nat :=
  compiler.globals.idxOf? name

/-- A point that a compiler can be set back to. -/
structure Mark where
  length : Nat
  globals : Nat
  deriving DecidableEq, Repr

/-- Marks the present point. -/
def mark (compiler : Compiler) : Mark :=
  ⟨compiler.buffer.used, compiler.globals.length⟩

/-- Sets a compiler back to a mark. The code is cut first; this fails if the mark lies behind
the storage, and the names are left alone if the mark counts more of them than there are. -/
def reset (compiler : Compiler) (mark : Mark) : Bool × Compiler :=
  match compiler.buffer.truncate? mark.length with
  | none => (false, compiler)
  | some buffer =>
      if mark.globals ≤ compiler.globals.length then
        (true, ⟨buffer, compiler.globals.take mark.globals⟩)
      else (false, { compiler with buffer := buffer })

/-- A compiler with further code written. -/
def write (compiler : Compiler) (instrs : List Instr) : Compiler :=
  { compiler with buffer := compiler.buffer.emitAll instrs }

/-- A compiler with one more global name. -/
def declare (compiler : Compiler) (name : Name) : Compiler :=
  { compiler with globals := compiler.globals ++ [name] }

/-- Generates code at the end of the stream, followed by a last instruction. -/
def addCode (compiler : Compiler) (expr : Expr) (last : Instr) : Option SourceError × Compiler :=
  match expr.generate compiler.slot? compiler.buffer.used [] with
  | .error failure => (some failure.error, compiler.write failure.written)
  | .ok (instrs, _) => (none, compiler.write (instrs ++ [last]))

/-- Compiles one top-level expression: a define fills the next global slot, the value of any
other expression is popped. -/
def addForm (compiler : Compiler) : Expr → Option SourceError × Compiler
  | .define span name value =>
      match compiler.slot? name with
      | some _ => (some ⟨span.start, .redefined name⟩, compiler)
      | none =>
          match compiler.addCode value .defGlobal with
          | (some error, compiler) => (some error, compiler)
          | (none, compiler) => (none, compiler.declare name)
  | expr => compiler.addCode expr .pop

/-- Compiles top-level expressions up to the first error. -/
def addForms (compiler : Compiler) : List Expr → Option SourceError × Compiler
  | [] => (none, compiler)
  | expr :: rest =>
      match compiler.addForm expr with
      | (some error, compiler) => (some error, compiler)
      | (none, compiler) => compiler.addForms rest

/-- Compiles a batch; a batch that fails is undone. -/
def compile (compiler : Compiler) (exprs : List Expr) : Except SourceError Program × Compiler :=
  let mark := compiler.mark
  match compiler.addForms exprs with
  | (some error, compiler) => (.error error, (compiler.reset mark).2)
  | (none, compiler) =>
      (.ok ⟨compiler.buffer.code, compiler.globals, mark.length⟩, compiler)

/-- Reads and compiles a batch. -/
def compileText (compiler : Compiler) (text : Bytes) : Except SourceError Program × Compiler :=
  match Reader.parse text with
  | .error error => (.error error, compiler)
  | .ok exprs => compiler.compile exprs

end Compiler

namespace Program

/-- Compiles expressions with a fresh compiler. -/
def ofExprs (exprs : List Expr) : Except SourceError Program :=
  (Compiler.new.compile exprs).1

/-- Reads and compiles a text with a fresh compiler. -/
def ofText (text : Bytes) : Except SourceError Program :=
  (Compiler.new.compileText text).1

end Program

end ClosureLisp
