import ClosureLisp.Primitive
import ClosureLisp.Source.Binder
import ClosureLisp.Source.Expr

/-!
# Lint

Warnings about programs that compile and are probably wrong: a branch that is never taken,
a call that always fails, a parameter that hides another name or is never read. One walk
over an expression collects its warnings and the names it reads without binding them, and
a parameter is unused exactly if the body of its lambda does not read it.
-/

namespace ClosureLisp

/-- What is suspicious about a piece of a program. -/
inductive Suspicion where
  | thenNeverTaken
  | elseNeverTaken
  | literalCall
  | primitiveArity (name : Name) (expected given : Nat)
  | hidesSelf (parameter : Name)
  | shadowsLocal (parameter : Name)
  | shadowsGlobal (parameter : Name)
  | unusedParameter (parameter : Name)
  deriving DecidableEq, Repr

/-- The wording of a suspicion. -/
def Suspicion.text : Suspicion → Bytes
  | .thenNeverTaken => utf8 "then branch is never taken"
  | .elseNeverTaken => utf8 "else branch is never taken"
  | .literalCall => utf8 "calling a literal always fails"
  | .primitiveArity name expected given =>
      name ++ utf8 " expects " ++ Bytes.decimalNat expected ++ utf8 " arguments, got " ++
        Bytes.decimalNat given
  | .hidesSelf parameter =>
      utf8 "parameter " ++ parameter ++ utf8 " hides the function's own name"
  | .shadowsLocal parameter =>
      utf8 "parameter " ++ parameter ++ utf8 " shadows an enclosing binding"
  | .shadowsGlobal parameter =>
      utf8 "parameter " ++ parameter ++ utf8 " shadows global " ++ parameter
  | .unusedParameter parameter => utf8 "unused parameter " ++ parameter

/-- A suspicion and its place. -/
structure Warning where
  place : Position
  suspicion : Suspicion
  deriving DecidableEq, Repr

/-- The full wording of a warning. -/
def Warning.text (warning : Warning) : Bytes :=
  warning.place.text ++ utf8 ": warning: " ++ warning.suspicion.text

/-- What a walk over an expression finds: warnings in source order, and the names read but
not bound in it. -/
structure LintReport where
  warnings : List Warning
  reads : List Name

namespace LintReport

/-- The report of an expression in which there is nothing to find. -/
def empty : LintReport :=
  ⟨[], []⟩

/-- The report of two expressions in a row. -/
def append (first second : LintReport) : LintReport :=
  ⟨first.warnings ++ second.warnings, first.reads ++ second.reads⟩

instance : Append LintReport := ⟨append⟩

/-- A report with further warnings behind it. -/
def warn (report : LintReport) (warnings : List Warning) : LintReport :=
  { report with warnings := report.warnings ++ warnings }

end LintReport

namespace Lint

/-- The warning about the then branch under a test. -/
def thenWarnings (consequent : Expr) : (test : Expr) → List Warning
  | .bool _ false => [⟨consequent.start, .thenNeverTaken⟩]
  | _ => []

/-- The warning about one of two branches under a test. -/
def branchWarnings (consequent alternative : Expr) : (test : Expr) → List Warning
  | .bool _ true => [⟨alternative.start, .elseNeverTaken⟩]
  | .bool _ false => [⟨consequent.start, .thenNeverTaken⟩]
  | _ => []

/-- The warning about a call that always fails: of a literal, or of a primitive that no
enclosing lambda hides with the wrong number of arguments. -/
def callWarnings (binders : List Binder) (place : Position) (callee : Expr) (count : Nat) :
    List Warning :=
  match callee with
  | .int span _ => [⟨span.start, .literalCall⟩]
  | .bool span _ => [⟨span.start, .literalCall⟩]
  | .var _ name =>
      if binders.any (·.binds name) then []
      else
        match Primitive.ofName? name with
        | none => []
        | some primitive =>
            if count = primitive.arity then []
            else [⟨place, .primitiveArity name primitive.arity count⟩]
  | _ => []

/-- What a parameter hides, if anything: the own name of its lambda, then a name of an
enclosing one, then a global. -/
def hiding? (globals : List Name) (binders : List Binder) (self : Option Name)
    (parameter : Name) : Option Suspicion :=
  if self = some parameter then some (.hidesSelf parameter)
  else if binders.any (·.binds parameter) then some (.shadowsLocal parameter)
  else if globals.contains parameter then some (.shadowsGlobal parameter)
  else none

/-- The warnings in front of a lambda's body. -/
def hidingWarnings (globals : List Name) (binders : List Binder) (place : Position)
    (binder : Binder) : List Warning :=
  (binder.parameters.filterMap (hiding? globals binders binder.self)).map (⟨place, ·⟩)

/-- The warnings behind a lambda's body, which reads the given names. -/
def unusedWarnings (place : Position) (parameters reads : List Name) : List Warning :=
  (parameters.filter fun parameter => !reads.contains parameter).map fun parameter =>
    ⟨place, .unusedParameter parameter⟩

mutual

/-- Walks over an expression inside the given lambdas, innermost first. -/
def walk (globals : List Name) (binders : List Binder) : Expr → LintReport
  | .int _ _ => .empty
  | .bool _ _ => .empty
  | .var _ name => ⟨[], [name]⟩
  | .ifThen _ test consequent =>
      (walk globals binders test ++ walk globals binders consequent).warn
        (thenWarnings consequent test)
  | .ifElse _ test consequent alternative =>
      (walk globals binders test ++ walk globals binders consequent ++
        walk globals binders alternative).warn (branchWarnings consequent alternative test)
  | .define _ _ value => walk globals binders value
  | .lambda span self parameters body =>
      let binder := ⟨self, parameters⟩
      let inner := walk globals (binder :: binders) body
      ⟨hidingWarnings globals binders span.start binder ++ inner.warnings ++
          unusedWarnings span.start parameters inner.reads,
        inner.reads.filter fun name => !binder.binds name⟩
  | .call span callee arguments =>
      (walk globals binders callee ++ walkAll globals binders arguments).warn
        (callWarnings binders span.start callee arguments.length)

/-- Walks over expressions in order. -/
def walkAll (globals : List Name) (binders : List Binder) : List Expr → LintReport
  | [] => .empty
  | expr :: rest => walk globals binders expr ++ walkAll globals binders rest

end

end Lint

/-- A linter between two batches: the global names it knows and all warnings so far. -/
structure Linter where
  globals : List Name
  warnings : List Warning

namespace Linter

/-- A linter that knows the predefined names only. -/
def new : Linter :=
  ⟨predefinedNames, []⟩

/-- A linter that knows one more global name. -/
def know (linter : Linter) (name : Name) : Linter :=
  { linter with globals := name :: linter.globals }

/-- Checks an expression on its own. -/
def check (linter : Linter) (expr : Expr) : Linter :=
  { linter with warnings := linter.warnings ++ (Lint.walk linter.globals [] expr).warnings }

/-- Checks a top-level expression. A name is known behind its define, not inside it. -/
def addForm (linter : Linter) : Expr → Linter
  | .define _ name value => (linter.check value).know name
  | expr => linter.check expr

/-- Checks a batch of top-level expressions. -/
def addForms (linter : Linter) (exprs : List Expr) : Linter :=
  exprs.foldl addForm linter

end Linter

/-- The warnings about a whole program. -/
def Lint.ofExprs (exprs : List Expr) : List Warning :=
  (Linter.new.addForms exprs).warnings

end ClosureLisp
