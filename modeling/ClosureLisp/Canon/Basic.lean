import ClosureLisp.Source.Binder
import ClosureLisp.Source.Expr

/-!
# Canonical form

A program without spans and without the names of parameters and functions: a bound name is
a pair of coordinates, a free one keeps its name, because global names decide which slot a
define fills. Programs that differ in layout, comments or the names of locals have one
canonical form.
-/

namespace ClosureLisp

/-- A program or an expression in canonical form. Coordinates are cut to sixteen bits. -/
inductive Canon where
  | int (value : Int32)
  | bool (value : Bool)
  | bound (depth slot : UInt16)
  | free (name : Name)
  | ifThen (test consequent : Canon)
  | ifElse (test consequent alternative : Canon)
  | lambda (arity : Nat) (body : Canon)
  | call (callee : Canon) (arguments : List Canon)
  | define (name : Name) (value : Canon)
  | program (forms : List Canon)
  deriving Repr, Inhabited

namespace Canon

/-- The canonical form of a name inside the given lambdas, innermost first. -/
def ofName (binders : List Binder) (name : Name) : Canon :=
  match Binder.resolve? name binders with
  | some (depth, slot) => .bound depth.toUInt16 slot.toUInt16
  | none => .free name

mutual

/-- The canonical form of an expression inside the given lambdas, innermost first. -/
def ofExpr (binders : List Binder) : Expr → Canon
  | .int _ value => .int value
  | .bool _ value => .bool value
  | .var _ name => ofName binders name
  | .ifThen _ test consequent => .ifThen (ofExpr binders test) (ofExpr binders consequent)
  | .ifElse _ test consequent alternative =>
      .ifElse (ofExpr binders test) (ofExpr binders consequent) (ofExpr binders alternative)
  | .define _ name value => .define name (ofExpr binders value)
  | .lambda _ self parameters body =>
      .lambda parameters.length (ofExpr (⟨self, parameters⟩ :: binders) body)
  | .call _ callee arguments => .call (ofExpr binders callee) (ofExprs binders arguments)

/-- The canonical forms of expressions inside the given lambdas. -/
def ofExprs (binders : List Binder) : List Expr → List Canon
  | [] => []
  | expr :: rest => ofExpr binders expr :: ofExprs binders rest

end

/-- The canonical form of a program. -/
def ofProgram (exprs : List Expr) : Canon :=
  .program (ofExprs [] exprs)

end Canon

end ClosureLisp
