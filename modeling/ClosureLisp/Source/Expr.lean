import ClosureLisp.Source.Token

/-!
# Expressions

The syntax trees of the language. Every node carries the span it was read from. A
lambda that is the direct value of a define carries the defined name, by which its
body can refer to the function itself.
-/

namespace ClosureLisp

/-- An expression. -/
inductive Expr where
  | int (span : Span) (value : Int32)
  | bool (span : Span) (value : Bool)
  | var (span : Span) (name : Name)
  | ifThen (span : Span) (test consequent : Expr)
  | ifElse (span : Span) (test consequent alternative : Expr)
  | define (span : Span) (name : Name) (value : Expr)
  | lambda (span : Span) (self : Option Name) (parameters : List Name) (body : Expr)
  | call (span : Span) (callee : Expr) (arguments : List Expr)
  deriving Repr, Inhabited

namespace Expr

/-- The span of an expression. -/
def span : Expr → Span
  | .int span _ => span
  | .bool span _ => span
  | .var span _ => span
  | .ifThen span _ _ => span
  | .ifElse span _ _ _ => span
  | .define span _ _ => span
  | .lambda span _ _ _ => span
  | .call span _ _ => span

/-- The place where an expression starts. -/
def start (expr : Expr) : Position :=
  expr.span.start

/-- Gives an anonymous lambda a name; all else stays as it is. -/
def named (name : Name) : Expr → Expr
  | .lambda span none parameters body => .lambda span (some name) parameters body
  | other => other

end Expr

end ClosureLisp
