import ClosureLisp.Heap.Reach
import ClosureLisp.Primitive
import ClosureLisp.Source.Error
import ClosureLisp.Source.Expr

/-!
# The evaluator's state

The evaluator walks expressions directly. A function value is a handle into a table of
functions, each a lambda with the environment it was made in. An environment is a list of
scopes, the innermost first, and never changes once it is made.
-/

namespace ClosureLisp

/-- The bindings of one call. -/
abbrev Scope := List (Name × Value)

/-- Nested scopes, the innermost first. -/
abbrev Environment := List Scope

namespace Environment

/-- The value of a name in the innermost scope that binds it. -/
def lookup? (environment : Environment) (name : Name) : Option Value :=
  environment.findSome? fun scope => scope.lookup name

/-- The handles among the bound values. -/
def handles (environment : Environment) : List UInt32 :=
  environment.flatMap fun scope => scope.filterMap fun binding => binding.2.handle?

end Environment

/-- A lambda with the environment it was made in. -/
structure Function where
  self : Option Name
  parameters : List Name
  body : Expr
  environment : Environment

namespace Function

/-- The handles a function refers to. -/
def handles (function : Function) : List UInt32 :=
  function.environment.handles

/-- The scope of a call: the parameters and, unless one of them has its name, the function. -/
def scope (function : Function) (itself : Value) (arguments : List Value) : Scope :=
  function.parameters.zip arguments ++
    match function.self with
    | none => []
    | some name => if name ∈ function.parameters then [] else [(name, itself)]

end Function

/-- Why an evaluation fails. -/
inductive EvalError where
  | fault (cause : Fault)
  | source (error : SourceError)
  deriving DecidableEq, Repr

/-- The full wording of an evaluation error. -/
def EvalError.message : EvalError → Bytes
  | .fault cause => cause.message
  | .source error => error.message

/-- An evaluator between two top-level expressions. Displayed values and the places of failed
assertions are listed with the latest first. -/
structure Evaluator where
  maxDepth : Nat
  globals : List (Name × Value)
  functions : Table Function
  next : UInt32
  nextCollection : Nat
  displayed : List Value
  failedAt : List Position
  failures : Nat

namespace Evaluator

/-- The deepest nesting of calls, unless told otherwise. -/
def defaultMaxDepth : Nat := 10000

/-- The number of functions below which nothing is ever collected. -/
def leastCollection : Nat := 1024

/-- An evaluator with the predefined globals; a depth that is not positive stands for the
default. -/
def new (maxDepth : Int) : Evaluator where
  maxDepth := if maxDepth ≤ 0 then defaultMaxDepth else maxDepth.toNat
  globals := predefinedNames.zip predefinedValues
  functions := ∅
  next := 0
  nextCollection := leastCollection
  displayed := []
  failedAt := []
  failures := 0

/-- Stores a function under the next handle. -/
def alloc (evaluator : Evaluator) (function : Function) : UInt32 × Evaluator :=
  (evaluator.next,
    { evaluator with
      functions := evaluator.functions.insert evaluator.next function
      next := evaluator.next + 1 })

/-- Drops every function that is not reachable from the globals or the kept values, and counts
the dropped ones. -/
def collect (evaluator : Evaluator) (keep : List Value) : Nat × Evaluator :=
  let roots := evaluator.globals.map Prod.snd ++ keep
  let swept := evaluator.functions.unreached Function.handles (roots.filterMap Value.handle?)
  let kept := evaluator.functions.without swept
  (swept.size,
    { evaluator with
      functions := kept
      nextCollection := max (2 * kept.size) leastCollection })

/-- The text displayed so far. -/
def outputText (evaluator : Evaluator) : Bytes :=
  evaluator.displayed.reverse.flatMap fun value => value.text ++ utf8 "\n"

/-- The reports of failed assertions so far. -/
def diagnosticText (evaluator : Evaluator) : Bytes :=
  evaluator.failedAt.reverse.flatMap fun place => place.text ++ utf8 ": assertion failed\n"

/-- The evaluator with its output and its reports taken away. -/
def clearOutput (evaluator : Evaluator) : Evaluator :=
  { evaluator with displayed := [], failedAt := [] }

end Evaluator

end ClosureLisp
