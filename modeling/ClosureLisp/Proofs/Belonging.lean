import ClosureLisp.Proofs.Scoping
import ClosureLisp.Proofs.Sites

/-!
# What belongs to a program

While a program that compiles is evaluated, all that it comes across is its own or predefined:
the functions under its handles are lambdas of it, in environments that bind exactly the names that
the lambdas around them bind, and the branches that a literal test rules out are not evaluated
(`Evaluator.exprYields`, `Evaluator.applyYields`). The evaluator may hold anything else besides,
since names and handles of an earlier program are out of reach.
-/

namespace ClosureLisp

open Evaluator

/-! ## Parts of a program -/

namespace Expr

/-- An expression stands inside the given lambdas in a program with the given parts: the parts of
it that are live are live there, and its names are bound or known. -/
structure Stands (parts : List Site) (known : List Name) (binders : List Binder) (expr : Expr) :
    Prop where
  live : expr.sites binders true ⊆ parts
  clean : expr.violations known binders = []

namespace Stands

variable {parts : List Site} {known more : List Name} {binders : List Binder} {span : Span}
  {name : Name} {expr test consequent alternative callee body : Expr} {exprs arguments : List Expr}

theorem mono (stands : expr.Stands parts known binders) (grown : known ⊆ more) :
    expr.Stands parts more binders := by
  refine ⟨stands.live, List.eq_nil_iff_forall_not_mem.mpr fun error listed => ?_⟩
  obtain ⟨part, inner, occurs, fault⟩ := mem_violations_iff.mp listed
  have still : Faulty known inner part error := by
    cases fault with
    | undefined unbound unknown => exact .undefined unbound fun listed => unknown (grown listed)
    | nestedDefine => exact .nestedDefine
    | repeatedParameters repeated => exact .repeatedParameters repeated
  exact List.eq_nil_iff_forall_not_mem.mp stands.clean error
    (mem_violations_iff.mpr ⟨part, inner, occurs, still⟩)

theorem testOfIfThen (stands : (ifThen span test consequent).Stands parts known binders) :
    test.Stands parts known binders :=
  ⟨List.Subset.trans test_sites_subset_ifThen stands.live,
    (List.append_eq_nil_iff.mp stands.clean).1⟩

theorem consequentOfIfThen (stands : (ifThen span test consequent).Stands parts known binders)
    (chosen : test.mayBe true = true) : consequent.Stands parts known binders := by
  refine ⟨fun site inside => stands.live (consequent_sites_subset_ifThen ?_),
    (List.append_eq_nil_iff.mp stands.clean).2⟩
  rwa [chosen]

theorem testOfIfElse
    (stands : (ifElse span test consequent alternative).Stands parts known binders) :
    test.Stands parts known binders :=
  ⟨List.Subset.trans test_sites_subset_ifElse stands.live,
    (List.append_eq_nil_iff.mp stands.clean).1⟩

theorem consequentOfIfElse
    (stands : (ifElse span test consequent alternative).Stands parts known binders)
    (chosen : test.mayBe true = true) : consequent.Stands parts known binders := by
  have clean := (List.append_eq_nil_iff.mp stands.clean).2
  refine ⟨fun site inside => stands.live (consequent_sites_subset_ifElse ?_),
    (List.append_eq_nil_iff.mp clean).2⟩
  rwa [chosen]

theorem alternativeOfIfElse
    (stands : (ifElse span test consequent alternative).Stands parts known binders)
    (chosen : test.mayBe false = true) : alternative.Stands parts known binders := by
  have clean := (List.append_eq_nil_iff.mp stands.clean).2
  refine ⟨fun site inside => stands.live (alternative_sites_subset_ifElse ?_),
    (List.append_eq_nil_iff.mp clean).1⟩
  rwa [chosen]

theorem bodyOfLambda {self : Option Name} {parameters : List Name}
    (stands : (lambda span self parameters body).Stands parts known binders) :
    body.Stands parts known (⟨self, parameters⟩ :: binders) :=
  ⟨List.Subset.trans body_sites_subset_lambda stands.live,
    (List.append_eq_nil_iff.mp stands.clean).2⟩

theorem calleeOfCall (stands : (call span callee arguments).Stands parts known binders) :
    callee.Stands parts known binders :=
  ⟨List.Subset.trans callee_sites_subset_call stands.live,
    (List.append_eq_nil_iff.mp stands.clean).2⟩

theorem argumentOfCall (stands : (call span callee arguments).Stands parts known binders) :
    ∀ argument ∈ arguments, argument.Stands parts known binders := by
  intro argument listed
  refine ⟨List.Subset.trans (List.Subset.trans (sites_subset_sitesAll listed)
    arguments_sites_subset_call) stands.live, ?_⟩
  have clean := List.eq_nil_iff_forall_not_mem.mp (List.append_eq_nil_iff.mp stands.clean).1
  exact List.eq_nil_iff_forall_not_mem.mpr fun error violated =>
    clean error (mem_violationsAll.mpr ⟨argument, listed, violated⟩)

theorem not_define (stands : expr.Stands parts known binders) (span : Span) (name : Name)
    (value : Expr) : expr ≠ .define span name value := by
  rintro rfl
  exact absurd stands.clean (List.cons_ne_nil _ _)

theorem known_of_unbound (stands : (var span name).Stands parts known binders)
    (unbound : ∀ binder ∈ binders, ¬ binder.binds name) : name ∈ known := by
  by_contra unknown
  have clean := stands.clean
  rw [violations, if_neg (by simpa [unknown] using unbound)] at clean
  cases clean

end Stands

end Expr

/-! ## What belongs to a program -/

/-- An environment binds exactly the names that the given lambdas bind. -/
def Environment.Binds (environment : Environment) (binders : List Binder) : Prop :=
  ∀ name, environment.lookup? name = none ↔ ∀ binder ∈ binders, ¬ binder.binds name

theorem Environment.binds_nil : Environment.Binds [] [] :=
  fun _ => ⟨fun _ _ listed => absurd listed List.not_mem_nil, fun _ => rfl⟩

/-- The environment of a call binds what the lambda binds and what is bound around it. -/
theorem Environment.Binds.enter {function : Function} {binders : List Binder} {itself : Value}
    {values : List Value} (binds : function.environment.Binds binders)
    (fits : values.length = function.parameters.length) :
    Environment.Binds (function.scope itself values :: function.environment)
      (⟨function.self, function.parameters⟩ :: binders) := by
  intro name
  have head : (function.scope itself values).lookup name = none ↔
      ¬ Binder.binds ⟨function.self, function.parameters⟩ name := by
    have same : (function.scope itself values).BindsAs ⟨function.parameters, function.self, []⟩ :=
      Function.scope_bindsAs rfl rfl fits
    rw [same name]
    simp [Binder.binds]
  rw [List.forall_mem_cons, ← head, ← binds name, lookup?, List.findSome?_cons]
  cases (function.scope itself values).lookup name with
  | none => simp [lookup?]
  | some value => simp

/-- A value holds no handle but a program's own. -/
def Value.Owned (own : UInt32 → Prop) (value : Value) : Prop :=
  ∀ handle arity, value = .closure handle arity → own handle

theorem Value.owned_constant (own : UInt32 → Prop) (constant : Constant) :
    constant.value.Owned own := by
  intro handle arity same
  cases constant <;> cases same

/-- A function is a lambda of a program, in an environment that the program has made. -/
structure Function.BelongsTo (parts : List Site) (known : List Name) (own : UInt32 → Prop)
    (function : Function) : Prop where
  stands : ∃ binders, function.environment.Binds binders ∧
    function.body.Stands parts known (⟨function.self, function.parameters⟩ :: binders)
  owned : ∀ handle ∈ function.handles, own handle

/-- What a program can come across in an evaluator is its own or predefined: functions under its
handles are lambdas of it, and the globals that it knows hold no other handles. -/
structure Evaluator.Keeps (parts : List Site) (known : List Name) (own : UInt32 → Prop)
    (evaluator : Evaluator) : Prop where
  predefined : predefinedNames.zip predefinedValues <+: evaluator.globals
  functions : ∀ {handle : UInt32} {function : Function}, own handle →
    evaluator.functions[handle]? = some function → function.BelongsTo parts known own
  globals : ∀ name ∈ known, ∀ value, evaluator.globals.lookup name = some value → value.Owned own

section Keeping

variable {parts : List Site} {known : List Name} {own more : UInt32 → Prop}
  {evaluator later : Evaluator}

theorem Value.Owned.mono {value : Value} (owned : value.Owned own)
    (grown : ∀ handle, own handle → more handle) : value.Owned more :=
  fun handle arity same => grown handle (owned handle arity same)

theorem Function.BelongsTo.mono {function : Function} (belongs : function.BelongsTo parts known own)
    (grown : ∀ handle, own handle → more handle) : function.BelongsTo parts known more :=
  ⟨belongs.stands, fun handle listed => grown handle (belongs.owned handle listed)⟩

namespace Evaluator

theorem Keeps.of_same (keeps : evaluator.Keeps parts known own)
    (globals : later.globals = evaluator.globals)
    (functions : later.functions = evaluator.functions) : later.Keeps parts known own := by
  refine ⟨?_, ?_, ?_⟩
  · rw [globals]
    exact keeps.predefined
  · rw [functions]
    exact keeps.functions
  · rw [globals]
    exact keeps.globals

/-- A new function of the program makes its handle one of the program's own. -/
theorem Keeps.alloc (keeps : evaluator.Keeps parts known own) {function : Function}
    (belongs : function.BelongsTo parts known own) :
    (evaluator.alloc function).2.Keeps parts known
      fun handle => own handle ∨ handle = evaluator.next := by
  refine ⟨keeps.predefined, ?_, fun name listed value found =>
    (keeps.globals name listed value found).mono fun _ => .inl⟩
  intro handle other owned found
  rw [Evaluator.alloc, Std.TreeMap.getElem?_insert] at found
  split at found
  · cases found
    exact belongs.mono fun _ => .inl
  · next differs =>
      have older : own handle := owned.resolve_right fun same =>
        differs (by rw [same]; exact Std.ReflCmp.compare_self)
      exact (keeps.functions older found).mono fun _ => .inl

/-- An evaluation that has a value leaves an evaluator as before, apart from new handles of the
program's own. -/
inductive Yields {α : Type} (parts : List Site) (known : List Name) (own : UInt32 → Prop)
    (good : α → (UInt32 → Prop) → Prop) : EStateM.Result EvalError Evaluator α → Prop where
  | value {value : α} {next : Evaluator} {more : UInt32 → Prop}
      (grown : ∀ handle, own handle → more handle) (keeps : next.Keeps parts known more)
      (held : good value more) : Yields parts known own good (.ok value next)
  | error {error : EvalError} {next : Evaluator} : Yields parts known own good (.error error next)

/-- The value holds no foreign handle. -/
abbrev YieldsOwned (parts : List Site) (known : List Name) (own : UInt32 → Prop) :
    EStateM.Result EvalError Evaluator Value → Prop :=
  Yields parts known own fun value more => value.Owned more

namespace Yields

variable {α β : Type} {good : α → (UInt32 → Prop) → Prop} {better : β → (UInt32 → Prop) → Prop}

theorem same (keeps : evaluator.Keeps parts known own) {value : α} (held : good value own) :
    Yields parts known own good (.ok value evaluator) :=
  .value (fun _ => id) keeps held

theorem of_ok {outcome : EStateM.Result EvalError Evaluator α} {value : α}
    (yields : Yields parts known own good outcome) (ended : outcome = .ok value later) :
    ∃ more, (∀ handle, own handle → more handle) ∧ later.Keeps parts known more ∧
      good value more := by
  subst ended
  cases yields with
  | value grown keeps held => exact ⟨_, grown, keeps, held⟩

theorem widen {outcome : EStateM.Result EvalError Evaluator α}
    (yields : Yields parts known more good outcome) (grown : ∀ handle, own handle → more handle) :
    Yields parts known own good outcome := by
  cases yields with
  | value further keeps held =>
      exact .value (fun handle owned => further handle (grown handle owned)) keeps held
  | error => exact .error

theorem andThen {outcome : EStateM.Result EvalError Evaluator α}
    {further : α → Evaluator → EStateM.Result EvalError Evaluator β}
    (first : Yields parts known own good outcome)
    (second : ∀ {value next more}, outcome = .ok value next →
      (∀ handle, own handle → more handle) → next.Keeps parts known more → good value more →
      Yields parts known more better (further value next)) :
    Yields parts known own better (Evaluator.andThen outcome further) := by
  cases first with
  | value grown keeps held => exact (second rfl grown keeps held).widen grown
  | error => exact .error

end Yields

/-- A call of a primitive makes no function. -/
theorem callBuiltin_yields (keeps : evaluator.Keeps parts known own) (place : Position)
    (name : Name) (arguments : List Value) :
    YieldsOwned parts known own (callBuiltin place name arguments evaluator) := by
  rcases callBuiltin_cases place name arguments with ⟨condition, -, -, called⟩ | ⟨-, called⟩
  · rw [called]
    cases condition with
    | bool flag =>
        cases flag with
        | true => exact .same keeps (Value.owned_constant _ .nil)
        | false => exact .value (fun _ => id) (keeps.of_same rfl rfl) (Value.owned_constant _ .nil)
    | _ => exact .error
  · rw [called]
    unfold applyPrimitive
    cases applied : Primitive.applyNamed name arguments with
    | error cause => exact .error
    | ok yielded =>
        obtain ⟨result, shown⟩ := yielded
        obtain ⟨constant, rfl⟩ := Primitive.applyNamed_ok applied
        cases shown with
        | none => exact .same keeps (Value.owned_constant _ constant)
        | some value =>
            exact .value (fun _ => id) (keeps.of_same rfl rfl) (Value.owned_constant _ constant)

end Evaluator

end Keeping

/-! ## Evaluating parts -/

/-- The evaluation of an expression when the given number of calls may still be nested. -/
structure Evaluation where
  depth : Nat
  environment : Environment
  expr : Expr
  evaluator : Evaluator

namespace Evaluation

/-- What comes of an evaluation. -/
def outcome (evaluation : Evaluation) : EStateM.Result EvalError Evaluator Value :=
  eval (applyWithin evaluation.depth) evaluation.environment evaluation.expr evaluation.evaluator

end Evaluation

/-- An evaluation evaluates a live part of a program, in an environment that binds what the
lambdas around the part bind. -/
structure Evaluation.Placed (parts : List Site) (known : List Name) (own : UInt32 → Prop)
    (binders : List Binder) (evaluation : Evaluation) : Prop where
  stands : evaluation.expr.Stands parts known binders
  binds : evaluation.environment.Binds binders
  owned : ∀ handle ∈ evaluation.environment.handles, own handle
  keeps : evaluation.evaluator.Keeps parts known own

section Evaluating

variable {parts : List Site} {known : List Name} {own more : UInt32 → Prop}
  {binders : List Binder} {evaluator next : Evaluator} {environment : Environment} {depth : Nat}

/-- Where an evaluation is placed, another part of the same environment can be evaluated later. -/
theorem Evaluation.Placed.move {expr other : Expr}
    (placed : Placed parts known own binders ⟨depth, environment, expr, evaluator⟩)
    (grown : ∀ handle, own handle → more handle) (keeps : next.Keeps parts known more)
    (stands : other.Stands parts known binders) :
    Placed parts known more binders ⟨depth, environment, other, next⟩ :=
  ⟨stands, placed.binds, fun handle listed => grown handle (placed.owned handle listed), keeps⟩

/-- The body of a function of the program is a part of it. -/
theorem Evaluation.Placed.enter (depth : Nat) (arity : Int)
    (keeps : evaluator.Keeps parts known own) {handle : UInt32} {function : Function}
    {values : List Value} (itself : own handle)
    (defined : evaluator.functions[handle]? = some function)
    (supplied : ∀ value ∈ values, value.Owned own)
    (fits : values.length = function.parameters.length) :
    ∃ binders, Placed parts known own binders
      ⟨depth, function.scope (.closure handle arity) values :: function.environment,
        function.body, evaluator⟩ := by
  obtain ⟨⟨binders, binds, stands⟩, owned⟩ := keeps.functions itself defined
  refine ⟨_, stands, binds.enter fits, fun other listed => ?_, keeps⟩
  rcases Function.mem_handles_enter listed with argument | rfl | outside
  · obtain ⟨otherArity, listed⟩ := Value.mem_handlesOf.mp argument
    exact supplied _ listed other otherArity rfl
  · exact itself
  · exact owned other outside

namespace Evaluator

/-- Applying a function of the program yields a value of the program. -/
def ApplyYields (parts : List Site) (known : List Name) (depth : Nat) : Prop :=
  ∀ {own : UInt32 → Prop} {evaluator : Evaluator} {handle : UInt32} {arity : Int}
    {values : List Value}, evaluator.Keeps parts known own → own handle →
    (∀ value ∈ values, value.Owned own) →
    YieldsOwned parts known own (applyWithin depth handle arity values evaluator)

/-- Evaluating a part of the program yields a value of the program. -/
def ExprYields (parts : List Site) (known : List Name) (depth : Nat) (expr : Expr) : Prop :=
  ∀ {own : UInt32 → Prop} {binders : List Binder} {environment : Environment}
    {evaluator : Evaluator},
    Evaluation.Placed parts known own binders ⟨depth, environment, expr, evaluator⟩ →
    YieldsOwned parts known own (eval (applyWithin depth) environment expr evaluator)

/-- A literal test has its own value only. -/
theorem mayBe_of_eval {apply : Apply} {test : Expr} {flag : Bool}
    (tested : eval apply environment test evaluator = .ok (.bool flag) next) :
    test.mayBe flag = true := by
  cases test with
  | bool span literal =>
      rw [eval] at tested
      cases tested
      exact beq_self_eq_true flag
  | _ => rfl

theorem evalAll_yields {exprs : List Expr}
    (each : ∀ expr ∈ exprs, ExprYields parts known depth expr)
    (stand : ∀ expr ∈ exprs, expr.Stands parts known binders)
    (binds : environment.Binds binders) (owned : ∀ handle ∈ environment.handles, own handle)
    (keeps : evaluator.Keeps parts known own) :
    Yields parts known own (fun values more => ∀ value ∈ values, value.Owned more)
      (evalAll (applyWithin depth) environment exprs evaluator) := by
  induction exprs generalizing evaluator own with
  | nil => exact .same keeps fun _ listed => absurd listed List.not_mem_nil
  | cons expr rest ih =>
      obtain ⟨head, tail⟩ := List.forall_mem_cons.mp each
      obtain ⟨first, others⟩ := List.forall_mem_cons.mp stand
      rw [evalAll_cons]
      refine (head ⟨first, binds, owned, keeps⟩).andThen fun _ grown kept held => ?_
      refine (ih tail others (fun handle listed => grown handle (owned handle listed))
        kept).andThen fun _ further last allHeld => ?_
      exact .same last (List.forall_mem_cons.mpr ⟨held.mono further, allHeld⟩)

theorem choose_yields {consequent alternative : Action Value} (test : Value)
    (whenTrue : test = .bool true → YieldsOwned parts known own (consequent evaluator))
    (whenFalse : test = .bool false → YieldsOwned parts known own (alternative evaluator)) :
    YieldsOwned parts known own (choose consequent alternative test evaluator) := by
  cases test with
  | bool flag =>
      cases flag with
      | true => exact whenTrue rfl
      | false => exact whenFalse rfl
  | _ => exact .error

theorem exprYields_var (span : Span) (name : Name) :
    ExprYields parts known depth (.var span name) := by
  intro own binders environment evaluator placed
  rw [eval, lookup]
  cases looked : environment.lookup? name with
  | some value =>
      refine .same placed.keeps ?_
      rintro handle arity rfl
      exact placed.owned handle (Environment.mem_handles_of_lookup? looked)
  | none =>
      have listed := placed.stands.known_of_unbound ((placed.binds name).mp looked)
      dsimp only
      cases found : evaluator.globals.lookup name with
      | some value => exact .same placed.keeps (placed.keeps.globals name listed value found)
      | none => exact .error

theorem exprYields_lambda (span : Span) (self : Option Name) (parameters : List Name)
    (body : Expr) : ExprYields parts known depth (.lambda span self parameters body) := by
  intro own binders environment evaluator placed
  rw [eval]
  unfold makeFunction
  split
  · exact .error
  · refine .value (fun _ => .inl) (placed.keeps.alloc ⟨⟨binders, placed.binds,
      placed.stands.bodyOfLambda⟩, placed.owned⟩) ?_
    rintro handle arity ⟨rfl, rfl⟩
    exact .inr rfl

theorem exprYields_call (applied : ApplyYields parts known depth) (span : Span) {callee : Expr}
    {arguments : List Expr} (calleeYields : ExprYields parts known depth callee)
    (argumentsYield : ∀ argument ∈ arguments, ExprYields parts known depth argument) :
    ExprYields parts known depth (.call span callee arguments) := by
  intro own binders environment evaluator placed
  rw [eval_call]
  refine (evalAll_yields argumentsYield placed.stands.argumentOfCall placed.binds placed.owned
    placed.keeps).andThen fun _ grown keeps supplied => ?_
  refine (calleeYields (placed.move grown keeps placed.stands.calleeOfCall)).andThen ?_
  intro value next more _ further last held
  cases value with
  | builtin name arity => exact callBuiltin_yields last span.start name _
  | closure handle arity =>
      exact applied last (held handle arity rfl) fun value listed =>
        (supplied value listed).mono further
  | nil | int | bool => exact .error

theorem exprYields (applied : ApplyYields parts known depth) (expr : Expr) :
    ExprYields parts known depth expr := by
  induction expr using Expr.induction with
  | int span value =>
      intro own binders environment evaluator placed
      rw [eval]
      exact .same placed.keeps (Value.owned_constant _ (.int value))
  | bool span value =>
      intro own binders environment evaluator placed
      rw [eval]
      exact .same placed.keeps (Value.owned_constant _ (.bool value))
  | var span name => exact exprYields_var span name
  | ifThen span test consequent testIh thenIh =>
      intro own binders environment evaluator placed
      rw [eval_ifThen]
      refine (testIh (placed.move (fun _ => id) placed.keeps
        placed.stands.testOfIfThen)).andThen ?_
      intro value next more tested grown keeps _
      refine choose_yields value ?_ fun _ => .same keeps (Value.owned_constant _ .nil)
      rintro rfl
      exact thenIh (placed.move grown keeps
        (placed.stands.consequentOfIfThen (mayBe_of_eval tested)))
  | ifElse span test consequent alternative testIh thenIh elseIh =>
      intro own binders environment evaluator placed
      rw [eval_ifElse]
      refine (testIh (placed.move (fun _ => id) placed.keeps
        placed.stands.testOfIfElse)).andThen ?_
      intro value next more tested grown keeps _
      refine choose_yields value ?_ ?_
      · rintro rfl
        exact thenIh (placed.move grown keeps
          (placed.stands.consequentOfIfElse (mayBe_of_eval tested)))
      · rintro rfl
        exact elseIh (placed.move grown keeps
          (placed.stands.alternativeOfIfElse (mayBe_of_eval tested)))
  | define span name value _ =>
      intro own binders environment evaluator placed
      exact absurd rfl (placed.stands.not_define span name value)
  | lambda span self parameters body _ => exact exprYields_lambda span self parameters body
  | call span callee arguments calleeIh argumentsIh =>
      exact exprYields_call applied span calleeIh argumentsIh

theorem applyYields (depth : Nat) : ApplyYields parts known depth := by
  induction depth with
  | zero =>
      intro own evaluator handle arity values keeps itself supplied
      cases defined : evaluator.functions[handle]? with
      | none =>
          rw [applyWithin, defined]
          exact .error
      | some function =>
          rw [applyWithin_of_getElem? defined]
          split <;> exact .error
  | succ depth ih =>
      intro own evaluator handle arity values keeps itself supplied
      cases defined : evaluator.functions[handle]? with
      | none =>
          rw [applyWithin, defined]
          exact .error
      | some function =>
          rw [applyWithin_of_getElem? defined]
          split
          · exact .error
          · next fits =>
              obtain ⟨binders, placed⟩ := Evaluation.Placed.enter depth arity
                keeps itself defined supplied (Decidable.not_not.mp fits)
              exact exprYields ih function.body placed

end Evaluator

end Evaluating

end ClosureLisp
