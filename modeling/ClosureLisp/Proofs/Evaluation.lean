import ClosureLisp.Evaluator.Eval
import ClosureLisp.Proofs.Generation

/-!
# What evaluation does to the evaluator

The equations of evaluation on an evaluator, as plain case distinctions on outcomes, and one
induction for everything that evaluation can only add to: a relation that holds across each
of the three ways in which a state changes holds across every evaluation.
-/

namespace ClosureLisp.Evaluator

/-- The evaluator that an action leaves behind. -/
def after {α : Type} : EStateM.Result EvalError Evaluator α → Evaluator
  | .ok _ evaluator => evaluator
  | .error _ evaluator => evaluator

/-! ## Equations -/

/-- Goes on with a value, unless there is an error. -/
def andThen {α β : Type} (outcome : EStateM.Result EvalError Evaluator α)
    (further : α → Evaluator → EStateM.Result EvalError Evaluator β) :
    EStateM.Result EvalError Evaluator β :=
  match outcome with
  | .ok value evaluator => further value evaluator
  | .error error evaluator => .error error evaluator

theorem bind_apply {α β : Type} (action : Action α) (further : α → Action β)
    (evaluator : Evaluator) :
    (action >>= further) evaluator = andThen (action evaluator) further := by
  change EStateM.bind action further evaluator = _
  unfold EStateM.bind andThen
  cases action evaluator <;> rfl

/-- Where there is a value in the end, there was one before. -/
theorem andThen_eq_ok {α β : Type} {outcome : EStateM.Result EvalError Evaluator α}
    {further : α → Evaluator → EStateM.Result EvalError Evaluator β} {result : β}
    {later : Evaluator} (ended : andThen outcome further = .ok result later) :
    ∃ value next, outcome = .ok value next ∧ further value next = .ok result later := by
  cases outcome with
  | ok value next => exact ⟨value, next, rfl, ended⟩
  | error error next => cases ended

section Equations

variable (apply : Apply) (environment : Environment) (evaluator : Evaluator)

/-- Chooses a branch by the value of a test. -/
def choose (consequent alternative : Action Value) : Value → Action Value
  | .bool true => consequent
  | .bool false => alternative
  | other => fail (.testNotBool other.tag)

theorem eval_ifThen (span : Span) (test consequent : Expr) :
    eval apply environment (.ifThen span test consequent) evaluator =
      andThen (eval apply environment test evaluator)
        (choose (eval apply environment consequent) (pure .nil)) := by
  rw [eval, bind_apply]
  rfl

theorem eval_ifElse (span : Span) (test consequent alternative : Expr) :
    eval apply environment (.ifElse span test consequent alternative) evaluator =
      andThen (eval apply environment test evaluator)
        (choose (eval apply environment consequent) (eval apply environment alternative)) := by
  rw [eval, bind_apply]
  rfl

/-- Applies a callee to arguments. -/
def applyValue (place : Position) (arguments : List Value) : Value → Action Value
  | .builtin name _ => callBuiltin place name arguments
  | .closure handle arity => apply handle arity arguments
  | other => fail (.notCallable other)

theorem eval_call (span : Span) (callee : Expr) (arguments : List Expr) :
    eval apply environment (.call span callee arguments) evaluator =
      andThen (evalAll apply environment arguments evaluator) fun values next =>
        andThen (eval apply environment callee next) (applyValue apply span.start values) := by
  rw [eval, bind_apply]
  congr 1
  funext values next
  rw [bind_apply]
  rfl

theorem evalAll_cons (expr : Expr) (rest : List Expr) :
    evalAll apply environment (expr :: rest) evaluator =
      andThen (eval apply environment expr evaluator) fun value next =>
        andThen (evalAll apply environment rest next) fun values last =>
          .ok (value :: values) last := by
  rw [evalAll, bind_apply]
  congr 1
  funext value next
  rw [bind_apply]
  rfl

end Equations

/-- Applies the primitive with a given name, whatever it is. -/
def applyPrimitive (name : Name) (arguments : List Value) : Action Value := fun evaluator =>
  match Primitive.applyNamed name arguments with
  | .error cause => .error (.fault cause) evaluator
  | .ok yielded =>
      match yielded.shown with
      | none => .ok yielded.result evaluator
      | some value =>
          .ok yielded.result { evaluator with displayed := value :: evaluator.displayed }

/-- A call of a primitive is an assertion, or else the application of the primitive. -/
theorem callBuiltin_cases (place : Position) (name : Name) (arguments : List Value) :
    (∃ condition, name = Primitive.assert.name ∧ arguments = [condition] ∧
      callBuiltin place name arguments = assert place condition) ∨
    ((name = Primitive.assert.name → arguments.length ≠ 1) ∧
      callBuiltin place name arguments = applyPrimitive name arguments) := by
  have otherwise : (match Primitive.applyNamed name arguments with
      | .error cause => fail cause
      | .ok yielded => fun evaluator =>
          match yielded.shown with
          | none => .ok yielded.result evaluator
          | some value =>
              .ok yielded.result { evaluator with displayed := value :: evaluator.displayed }) =
      applyPrimitive name arguments := by
    funext evaluator
    unfold applyPrimitive
    cases Primitive.applyNamed name arguments <;> rfl
  unfold callBuiltin
  split
  · next condition named =>
      exact .inl ⟨condition, eq_of_beq named, rfl, rfl⟩
  · next unmatched =>
      refine .inr ⟨fun named single => ?_, otherwise⟩
      obtain ⟨condition, rfl⟩ := List.length_eq_one_iff.mp single
      exact unmatched condition (beq_iff_eq.mpr named) rfl

theorem repeated?_eq_none {names : List Name} (distinct : names.Nodup) {seen : List Name}
    (apart : ∀ name ∈ names, name ∉ seen) : repeated? seen names = none := by
  induction names generalizing seen with
  | nil => rfl
  | cons name rest ih =>
      obtain ⟨once, restDistinct⟩ := List.nodup_cons.mp distinct
      refine (if_neg (apart name List.mem_cons_self)).trans ?_
      refine ih restDistinct fun other listed => ?_
      rw [List.mem_cons, not_or]
      exact ⟨fun same => once (same ▸ listed), apart other (List.mem_cons_of_mem _ listed)⟩

/-- A lambda without repeated parameters makes a function. -/
theorem makeFunction_eq {environment : Environment} {place : Position} {self : Option Name}
    {parameters : List Name} {body : Expr} (distinct : parameters.Nodup)
    (evaluator : Evaluator) :
    makeFunction environment place self parameters body evaluator =
      .ok (.closure evaluator.next parameters.length)
        (evaluator.alloc ⟨self, parameters, body, environment⟩).2 := by
  have single : repeated? [] parameters = none :=
    repeated?_eq_none distinct fun _ _ => List.not_mem_nil
  rw [makeFunction, single]
  rfl

/-- Runs the body of a function, if a call may still be nested. -/
def enterWithin (depth : Nat) (handle : UInt32) (arity : Int) (arguments : List Value)
    (function : Function) : Action Value := fun evaluator =>
  match depth with
  | 0 => .error (.fault (.callDepth evaluator.maxDepth)) evaluator
  | depth + 1 =>
      eval (applyWithin depth)
        (function.scope (.closure handle arity) arguments :: function.environment)
        function.body evaluator

/-- A function is entered if it is given as many arguments as it has parameters. -/
theorem applyWithin_of_getElem? {depth : Nat} {handle : UInt32} {arity : Int}
    {arguments : List Value} {evaluator : Evaluator} {function : Function}
    (defined : evaluator.functions[handle]? = some function) :
    applyWithin depth handle arity arguments evaluator =
      if arguments.length ≠ function.parameters.length then
        .error (.fault (.functionArity function.parameters.length arguments.length)) evaluator
      else enterWithin depth handle arity arguments function evaluator := by
  cases depth with
  | zero =>
      rw [applyWithin, defined]
      rfl
  | succ depth =>
      rw [applyWithin, defined]
      rfl

/-! ## What evaluation can only add to -/

/-- A relation between evaluators that the three changes of an evaluation respect: a new
function, a displayed value and a failed assertion. -/
structure Growth (related : Evaluator → Evaluator → Prop) : Prop where
  refl : ∀ evaluator, related evaluator evaluator
  trans : ∀ {first second third}, related first second → related second third →
    related first third
  alloc : ∀ evaluator function, related evaluator (evaluator.alloc function).2
  display : ∀ evaluator value,
    related evaluator { evaluator with displayed := value :: evaluator.displayed }
  failure : ∀ evaluator place,
    related evaluator
      { evaluator with
        failures := evaluator.failures + 1
        failedAt := place :: evaluator.failedAt }

namespace Growth

variable {related : Evaluator → Evaluator → Prop} (growth : Growth related)

include growth

theorem andThen {α β : Type} {evaluator : Evaluator}
    {outcome : EStateM.Result EvalError Evaluator α}
    {further : α → Evaluator → EStateM.Result EvalError Evaluator β}
    (first : related evaluator (after outcome))
    (second : ∀ value next, related next (after (further value next))) :
    related evaluator (after (Evaluator.andThen outcome further)) := by
  cases outcome with
  | ok value next => exact growth.trans first (second value next)
  | error error next => exact first

theorem makeFunction (environment : Environment) (place : Position) (self : Option Name)
    (parameters : List Name) (body : Expr) (evaluator : Evaluator) :
    related evaluator
      (after (Evaluator.makeFunction environment place self parameters body evaluator)) := by
  unfold Evaluator.makeFunction
  split
  · exact growth.refl evaluator
  · exact growth.alloc evaluator _

theorem callBuiltin (place : Position) (name : Name) (arguments : List Value)
    (evaluator : Evaluator) :
    related evaluator (after (Evaluator.callBuiltin place name arguments evaluator)) := by
  rcases callBuiltin_cases place name arguments with ⟨condition, -, -, called⟩ | ⟨-, called⟩
  · rw [called]
    cases condition with
    | bool flag =>
        cases flag with
        | false => exact growth.failure evaluator place
        | true => exact growth.refl evaluator
    | _ => exact growth.refl evaluator
  · rw [called]
    unfold applyPrimitive
    split
    · exact growth.refl evaluator
    · split
      · exact growth.refl evaluator
      · exact growth.display evaluator _

theorem lookup (environment : Environment) (place : Position) (name : Name)
    (evaluator : Evaluator) :
    related evaluator (after (Evaluator.lookup environment place name evaluator)) := by
  unfold Evaluator.lookup
  split
  · exact growth.refl evaluator
  · split <;> exact growth.refl evaluator

theorem evalAll {apply : Apply} {environment : Environment} {exprs : List Expr}
    (each : ∀ expr ∈ exprs, ∀ evaluator,
      related evaluator (after (eval apply environment expr evaluator)))
    (evaluator : Evaluator) :
    related evaluator (after (Evaluator.evalAll apply environment exprs evaluator)) := by
  induction exprs generalizing evaluator with
  | nil => exact growth.refl evaluator
  | cons expr rest ih =>
      obtain ⟨head, tail⟩ := List.forall_mem_cons.mp each
      rw [evalAll_cons]
      refine growth.andThen (head evaluator) fun value next => ?_
      exact growth.andThen (ih tail next) fun values last => growth.refl last

theorem applyValue {apply : Apply}
    (applied : ∀ handle arity arguments evaluator,
      related evaluator (after (apply handle arity arguments evaluator)))
    (place : Position) (arguments : List Value) (callee : Value) (evaluator : Evaluator) :
    related evaluator
      (after (Evaluator.applyValue apply place arguments callee evaluator)) := by
  unfold Evaluator.applyValue
  split
  · exact growth.callBuiltin place _ arguments evaluator
  · exact applied _ _ arguments evaluator
  · exact growth.refl evaluator

theorem choose {consequent alternative : Action Value} {test : Value} {evaluator : Evaluator}
    (whenTrue : related evaluator (after (consequent evaluator)))
    (whenFalse : related evaluator (after (alternative evaluator))) :
    related evaluator (after (Evaluator.choose consequent alternative test evaluator)) := by
  unfold Evaluator.choose
  split
  · exact whenTrue
  · exact whenFalse
  · exact growth.refl evaluator

/-- What applications respect, evaluation respects. -/
theorem eval {apply : Apply}
    (applied : ∀ handle arity arguments evaluator,
      related evaluator (after (apply handle arity arguments evaluator)))
    (environment : Environment) (expr : Expr) (evaluator : Evaluator) :
    related evaluator (after (Evaluator.eval apply environment expr evaluator)) := by
  induction expr using Expr.induction generalizing evaluator with
  | int span value | bool span value | define span name value _ =>
      rw [Evaluator.eval]
      exact growth.refl evaluator
  | var span name =>
      rw [Evaluator.eval]
      exact growth.lookup environment span.start name evaluator
  | ifThen span test consequent testIh thenIh =>
      rw [eval_ifThen]
      exact growth.andThen (testIh evaluator) fun value next =>
        growth.choose (thenIh next) (growth.refl next)
  | ifElse span test consequent alternative testIh thenIh elseIh =>
      rw [eval_ifElse]
      exact growth.andThen (testIh evaluator) fun value next =>
        growth.choose (thenIh next) (elseIh next)
  | lambda span self parameters body _ =>
      rw [Evaluator.eval]
      exact growth.makeFunction environment span.start self parameters body evaluator
  | call span callee arguments calleeIh argumentsIh =>
      rw [eval_call]
      refine growth.andThen (growth.evalAll argumentsIh evaluator) fun values next => ?_
      exact growth.andThen (calleeIh next) fun value last =>
        growth.applyValue applied span.start values value last

theorem applyWithin (depth : Nat) (handle : UInt32) (arity : Int) (arguments : List Value)
    (evaluator : Evaluator) :
    related evaluator (after (Evaluator.applyWithin depth handle arity arguments evaluator)) := by
  induction depth generalizing handle arity arguments evaluator with
  | zero =>
      unfold Evaluator.applyWithin
      split
      · exact growth.refl evaluator
      · split <;> exact growth.refl evaluator
  | succ depth ih =>
      unfold Evaluator.applyWithin
      split
      · exact growth.refl evaluator
      · split
        · exact growth.refl evaluator
        · exact growth.eval ih _ _ evaluator

theorem evalTop (expr : Expr) (evaluator : Evaluator) :
    related evaluator (after (Evaluator.evalTop expr evaluator)) :=
  growth.eval (growth.applyWithin evaluator.maxDepth) [] expr evaluator

end Growth

/-- Failed assertions are only ever added. -/
theorem failures_growth : Growth fun first second => first.failures ≤ second.failures where
  refl _ := Nat.le_refl _
  trans := Nat.le_trans
  alloc _ _ := Nat.le_refl _
  display _ _ := Nat.le_refl _
  failure _ _ := Nat.le_succ _

/-! ## Top level -/

/-- What evaluating an expression leaves as it is: the globals and the limit on nested calls. -/
def setting (evaluator : Evaluator) : List (Name × Value) × Nat :=
  (evaluator.globals, evaluator.maxDepth)

theorem setting_growth : Growth fun first second => second.setting = first.setting where
  refl _ := rfl
  trans former latter := latter.trans former
  alloc _ _ := rfl
  display _ _ := rfl
  failure _ _ := rfl

section TopLevel

variable {result : Value} {evaluator : Evaluator}

theorem evalForm_define {span : Span} {name : Name} {value : Expr}
    (fresh : evaluator.globals.lookup name = none) :
    evalForm result (.define span name value) evaluator =
      andThen (evalTop value evaluator) fun value next =>
        .ok result { next with globals := next.globals ++ [(name, value)] } := by
  delta evalForm
  dsimp only
  rw [fresh]
  dsimp only
  cases evalTop value evaluator <;> rfl

theorem evalForm_of_generate {expr : Expr} {globals : Name → Option Nat} {offset : Nat}
    {frames after : List Frame} {code : List Instr}
    (generated : expr.generate globals offset frames = .ok (code, after)) (result : Value) :
    evalForm result expr = evalTop expr := by
  cases expr with
  | define span name value => exact absurd generated Expr.generate_define
  | _ => rfl

theorem evalForms_cons (expr : Expr) (exprs : List Expr) :
    evalForms result (expr :: exprs) evaluator =
      andThen (evalForm result expr evaluator) fun result next =>
        evalForms result exprs (next.collectIfNeeded result) := by
  rw [evalForms]
  unfold andThen
  cases evaluated : evalForm result expr evaluator <;> simp only [evaluated]

theorem failures_collectIfNeeded (evaluator : Evaluator) (result : Value) :
    (evaluator.collectIfNeeded result).failures = evaluator.failures := by
  unfold collectIfNeeded
  split <;> rfl

/-- What expressions and defines respect, forms respect. -/
theorem Growth.evalForm {related : Evaluator → Evaluator → Prop} (growth : Growth related)
    (define : ∀ evaluator binding,
      related evaluator { evaluator with globals := evaluator.globals ++ [binding] })
    (result : Value) (expr : Expr) (evaluator : Evaluator) :
    related evaluator (after (Evaluator.evalForm result expr evaluator)) := by
  cases expr with
  | define span name value =>
      cases fresh : evaluator.globals.lookup name with
      | none =>
          rw [evalForm_define fresh]
          exact growth.andThen (growth.evalTop value evaluator)
            fun bound next => define next (name, bound)
      | some known =>
          delta Evaluator.evalForm
          dsimp only
          rw [fresh]
          exact growth.refl evaluator
  | _ => exact growth.evalTop _ evaluator

theorem failures_le_evalForm (result : Value) (expr : Expr) (evaluator : Evaluator) :
    evaluator.failures ≤ (after (evalForm result expr evaluator)).failures :=
  failures_growth.evalForm (fun _ _ => Nat.le_refl _) result expr evaluator

theorem failures_le_evalForms (result : Value) (exprs : List Expr) (evaluator : Evaluator) :
    evaluator.failures ≤ (after (evalForms result exprs evaluator)).failures := by
  induction exprs generalizing result evaluator with
  | nil => exact Nat.le_refl _
  | cons expr rest ih =>
      rw [evalForms_cons]
      refine failures_growth.andThen (failures_le_evalForm result expr evaluator) ?_
      intro value next
      rw [← failures_collectIfNeeded next value]
      exact ih value _

end TopLevel

end ClosureLisp.Evaluator
