import ClosureLisp.Evaluator.Basic
import ClosureLisp.Source.Reader

/-!
# Evaluation

Evaluation is by recursion on the expression, with the application of closures passed in;
the application of closures is by recursion on the number of calls that may still be
nested. So every evaluation ends. A failure keeps the evaluator as it then was.
-/

namespace ClosureLisp.Evaluator

/-- An evaluation: it changes the evaluator and yields a value or an error. -/
abbrev Action := EStateM EvalError Evaluator

/-- Stops with a run-time fault. -/
def fail {α : Type} (cause : Fault) : Action α :=
  throw (.fault cause)

/-- Stops with a source fault. -/
def reject {α : Type} (place : Position) (fault : SourceFault) : Action α :=
  throw (.source ⟨place, fault⟩)

/-- The first element of a list that occurs in it again. -/
def repeated? : (seen : List Name) → List Name → Option Name
  | _, [] => none
  | seen, name :: rest => if name ∈ seen then some name else repeated? (name :: seen) rest

/-- Makes a function value of a lambda. -/
def makeFunction (environment : Environment) (place : Position) (self : Option Name)
    (parameters : List Name) (body : Expr) : Action Value := fun evaluator =>
  match repeated? [] parameters with
  | some name => reject place (.repeatedParameter name) evaluator
  | none =>
      let (handle, evaluator) := evaluator.alloc ⟨self, parameters, body, environment⟩
      .ok (.closure handle parameters.length) evaluator

/-- The value of a name: in the environment, or else among the globals. -/
def lookup (environment : Environment) (place : Position) (name : Name) : Action Value :=
  fun evaluator =>
    match environment.lookup? name with
    | some value => .ok value evaluator
    | none =>
        match evaluator.globals.lookup name with
        | some value => .ok value evaluator
        | none => reject place (.undefined name) evaluator

/-- Checks an assertion: a false one is reported and counted, and evaluation goes on. -/
def assert (place : Position) : Value → Action Value
  | .bool true => pure .nil
  | .bool false => fun evaluator =>
      .ok .nil
        { evaluator with
          failures := evaluator.failures + 1
          failedAt := place :: evaluator.failedAt }
  | other => fail (.assertNotBool other.tag)

/-- Calls a primitive. -/
def callBuiltin (place : Position) (name : Name) (arguments : List Value) : Action Value :=
  match name == Primitive.assert.name, arguments with
  | true, [condition] => assert place condition
  | _, _ =>
      match Primitive.applyNamed name arguments with
      | .error cause => fail cause
      | .ok yielded => fun evaluator =>
          match yielded.shown with
          | none => .ok yielded.result evaluator
          | some value =>
              .ok yielded.result { evaluator with displayed := value :: evaluator.displayed }

/-- The application of a closure value to arguments. -/
abbrev Apply := (handle : UInt32) → (arity : Int) → (arguments : List Value) → Action Value

mutual

/-- Evaluates an expression in an environment. -/
def eval (apply : Apply) (environment : Environment) : Expr → Action Value
  | .int _ value => pure (.int value)
  | .bool _ value => pure (.bool value)
  | .var span name => lookup environment span.start name
  | .ifThen _ test consequent => do
      match ← eval apply environment test with
      | .bool true => eval apply environment consequent
      | .bool false => pure .nil
      | other => fail (.testNotBool other.tag)
  | .ifElse _ test consequent alternative => do
      match ← eval apply environment test with
      | .bool true => eval apply environment consequent
      | .bool false => eval apply environment alternative
      | other => fail (.testNotBool other.tag)
  | .define span name _ => reject span.start (.nestedDefine name)
  | .lambda span self parameters body =>
      makeFunction environment span.start self parameters body
  | .call span callee arguments => do
      let arguments ← evalAll apply environment arguments
      match ← eval apply environment callee with
      | .builtin name _ => callBuiltin span.start name arguments
      | .closure handle arity => apply handle arity arguments
      | other => fail (.notCallable other)

/-- Evaluates expressions from left to right. -/
def evalAll (apply : Apply) (environment : Environment) : List Expr → Action (List Value)
  | [] => pure []
  | expr :: rest => do
      let value ← eval apply environment expr
      let values ← evalAll apply environment rest
      pure (value :: values)

end

/-- Applies a closure value when the given number of further calls may be nested. -/
def applyWithin (depth : Nat) (handle : UInt32) (arity : Int) (arguments : List Value) :
    Action Value := fun evaluator =>
  match evaluator.functions[handle]? with
  | none => fail (.unknownHandle handle) evaluator
  | some function =>
      if arguments.length ≠ function.parameters.length then
        fail (.functionArity function.parameters.length arguments.length) evaluator
      else
        match depth with
        | 0 => fail (.callDepth evaluator.maxDepth) evaluator
        | depth + 1 =>
            let scope := function.scope (.closure handle arity) arguments
            eval (fun handle arity arguments => applyWithin depth handle arity arguments)
              (scope :: function.environment) function.body evaluator

/-- Evaluates an expression at top level. -/
def evalTop (expr : Expr) : Action Value := fun evaluator =>
  eval (applyWithin evaluator.maxDepth) [] expr evaluator

/-- Evaluates one top-level expression, given the result so far. A define binds a new global and
keeps the result. -/
def evalForm (result : Value) : Expr → Action Value
  | .define span name value => fun evaluator =>
      match evaluator.globals.lookup name with
      | some _ => reject span.start (.redefined name) evaluator
      | none =>
          match evalTop value evaluator with
          | .error error evaluator => .error error evaluator
          | .ok value evaluator =>
              .ok result { evaluator with globals := evaluator.globals ++ [(name, value)] }
  | expr => evalTop expr

/-- Collects once there are many functions, keeping a result. -/
def collectIfNeeded (result : Value) (evaluator : Evaluator) : Evaluator :=
  if evaluator.nextCollection ≤ evaluator.functions.size then (evaluator.collect [result]).2
  else evaluator

/-- Evaluates top-level expressions in order. -/
def evalForms (result : Value) : List Expr → Action Value
  | [] => pure result
  | expr :: rest => fun evaluator =>
      match evalForm result expr evaluator with
      | .error error evaluator => .error error evaluator
      | .ok result evaluator => evalForms result rest (evaluator.collectIfNeeded result)

/-- Evaluates a program; its value is that of the last expression that is no define. -/
def evalProgram (exprs : List Expr) : Action Value :=
  evalForms .nil exprs

/-- Reads and evaluates a text. -/
def evalText (text : Bytes) : Action Value :=
  match Reader.parse text with
  | .error error => throw (.source error)
  | .ok exprs => evalProgram exprs

end ClosureLisp.Evaluator
