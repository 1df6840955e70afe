import ClosureLisp.Bundle.Basic
import ClosureLisp.Compiler.Batch

/-!
# Compiling to bundles

A whole program, compiled with a fresh compiler and packed.
-/

namespace ClosureLisp.Bundle

/-- Compiles expressions read from a source. -/
def ofExprs (source : Bytes) (exprs : List Expr) : Except SourceError Bundle :=
  match Program.ofExprs exprs with
  | .error error => .error error
  | .ok program => .ok (new source program.code program.globals)

/-- Reads and compiles a source. -/
def ofText (source : Bytes) : Except SourceError Bundle :=
  match Reader.parse source with
  | .error error => .error error
  | .ok exprs => ofExprs source exprs

end ClosureLisp.Bundle
