import ClosureLisp.Proofs.Belonging
import ClosureLisp.Proofs.Leftovers

/-!
# What the evaluation of a program evaluates

Evaluating a program means evaluating many expressions in many environments: `Evaluation.Starts`
has one case for each way in which one evaluation starts another, and `Evaluation.During` says
which ones a program comes to. If the program compiles, they all evaluate live parts of it, in
environments that bind exactly the names that the lambdas around the part bind
(`Evaluation.During.placed`), whatever the evaluator has been used for before.
-/

namespace ClosureLisp

open Evaluator

/-! ## Evaluations that start others -/

namespace Evaluation

/-- One evaluation starts another: that of a test, of the branch that the test has chosen, of an
argument once those before it have values, of what is called, and of the body of the function that
is called. -/
inductive Starts : Evaluation → Evaluation → Prop where
  | testOfIfThen {depth : Nat} {environment : Environment} {evaluator : Evaluator} {span : Span}
      {test consequent : Expr} :
      Starts ⟨depth, environment, .ifThen span test consequent, evaluator⟩
        ⟨depth, environment, test, evaluator⟩
  | consequentOfIfThen {depth : Nat} {environment : Environment} {evaluator next : Evaluator}
      {span : Span} {test consequent : Expr}
      (tested : outcome ⟨depth, environment, test, evaluator⟩ = .ok (.bool true) next) :
      Starts ⟨depth, environment, .ifThen span test consequent, evaluator⟩
        ⟨depth, environment, consequent, next⟩
  | testOfIfElse {depth : Nat} {environment : Environment} {evaluator : Evaluator} {span : Span}
      {test consequent alternative : Expr} :
      Starts ⟨depth, environment, .ifElse span test consequent alternative, evaluator⟩
        ⟨depth, environment, test, evaluator⟩
  | consequentOfIfElse {depth : Nat} {environment : Environment} {evaluator next : Evaluator}
      {span : Span} {test consequent alternative : Expr}
      (tested : outcome ⟨depth, environment, test, evaluator⟩ = .ok (.bool true) next) :
      Starts ⟨depth, environment, .ifElse span test consequent alternative, evaluator⟩
        ⟨depth, environment, consequent, next⟩
  | alternativeOfIfElse {depth : Nat} {environment : Environment} {evaluator next : Evaluator}
      {span : Span} {test consequent alternative : Expr}
      (tested : outcome ⟨depth, environment, test, evaluator⟩ = .ok (.bool false) next) :
      Starts ⟨depth, environment, .ifElse span test consequent alternative, evaluator⟩
        ⟨depth, environment, alternative, next⟩
  | argument {depth : Nat} {environment : Environment} {evaluator next : Evaluator} {span : Span}
      {callee argument : Expr} {front back : List Expr} {values : List Value}
      (supplied : evalAll (applyWithin depth) environment front evaluator = .ok values next) :
      Starts ⟨depth, environment, .call span callee (front ++ argument :: back), evaluator⟩
        ⟨depth, environment, argument, next⟩
  | callee {depth : Nat} {environment : Environment} {evaluator next : Evaluator} {span : Span}
      {callee : Expr} {arguments : List Expr} {values : List Value}
      (supplied : evalAll (applyWithin depth) environment arguments evaluator = .ok values next) :
      Starts ⟨depth, environment, .call span callee arguments, evaluator⟩
        ⟨depth, environment, callee, next⟩
  | body {depth : Nat} {environment : Environment} {evaluator middle next : Evaluator}
      {span : Span} {callee : Expr} {arguments : List Expr} {values : List Value}
      {handle : UInt32} {arity : Int} {function : Function}
      (supplied : evalAll (applyWithin (depth + 1)) environment arguments evaluator =
        .ok values middle)
      (called : outcome ⟨depth + 1, environment, callee, middle⟩ = .ok (.closure handle arity) next)
      (defined : next.functions[handle]? = some function)
      (fits : values.length = function.parameters.length) :
      Starts ⟨depth + 1, environment, .call span callee arguments, evaluator⟩
        ⟨depth, function.scope (.closure handle arity) values :: function.environment,
          function.body, next⟩

/-- The evaluations that evaluating top-level expressions comes to, given the result so far. -/
inductive During : Value → List Expr → Evaluator → Evaluation → Prop where
  | value {result : Value} {expr : Expr} {rest : List Expr} {evaluator : Evaluator}
      (plain : ∀ span name value, expr ≠ .define span name value) :
      During result (expr :: rest) evaluator ⟨evaluator.maxDepth, [], expr, evaluator⟩
  | define {result : Value} {span : Span} {name : Name} {value : Expr} {rest : List Expr}
      {evaluator : Evaluator} (fresh : evaluator.globals.lookup name = none) :
      During result (.define span name value :: rest) evaluator
        ⟨evaluator.maxDepth, [], value, evaluator⟩
  | later {result next : Value} {expr : Expr} {rest : List Expr} {evaluator after : Evaluator}
      {evaluation : Evaluation} (evaluated : evalForm result expr evaluator = .ok next after)
      (during : During next rest (after.collectIfNeeded next) evaluation) :
      During result (expr :: rest) evaluator evaluation
  | inside {result : Value} {exprs : List Expr} {evaluator : Evaluator}
      {outer inner : Evaluation} (during : During result exprs evaluator outer)
      (starts : outer.Starts inner) : During result exprs evaluator inner

end Evaluation

/-- An evaluator that has been in use: it has evaluated programs, whether or not they failed, and
has collected. -/
inductive Evaluator.Used : Evaluator → Prop where
  | new (maxDepth : Int) : Used (.new maxDepth)
  | eval {evaluator : Evaluator} (used : Used evaluator) (exprs : List Expr) :
      Used (after (evalProgram exprs evaluator))
  | collect {evaluator : Evaluator} (used : Used evaluator) (keep : List Value) :
      Used (evaluator.collect keep).2
  | clearOutput {evaluator : Evaluator} (used : Used evaluator) : Used evaluator.clearOutput

/-- However it has been used, an evaluator has the predefined globals in front. -/
theorem Evaluator.Used.predefined {evaluator : Evaluator} (used : evaluator.Used) :
    predefinedNames.zip predefinedValues <+: evaluator.globals := by
  induction used with
  | new maxDepth => exact List.prefix_refl _
  | @eval evaluator _ exprs ih =>
      obtain ⟨added, globals, -⟩ := adds_evalForms .nil exprs evaluator
      rw [evalProgram, globals]
      exact ih.trans (List.prefix_append _ _)
  | collect _ keep ih => exact ih
  | clearOutput _ ih => exact ih

/-! ## Programs -/

section Programs

variable {parts : List Site} {known : List Name} {own : UInt32 → Prop} {binders : List Binder}
  {evaluator next : Evaluator} {exprs : List Expr} {result : Value}

namespace Evaluation

theorem Placed.yields {evaluation : Evaluation}
    (placed : evaluation.Placed parts known own binders) :
    YieldsOwned parts known own evaluation.outcome :=
  exprYields (applyYields evaluation.depth) evaluation.expr placed

/-- Arguments evaluated one after the other where a call is evaluated. -/
theorem Placed.supplied {depth : Nat} {environment : Environment} {span : Span} {callee : Expr}
    {arguments front : List Expr} {values : List Value}
    (placed : Placed parts known own binders
      ⟨depth, environment, .call span callee arguments, evaluator⟩)
    (listed : ∀ argument ∈ front, argument ∈ arguments)
    (supplied : evalAll (applyWithin depth) environment front evaluator = .ok values next) :
    ∃ more, (∀ handle, own handle → more handle) ∧ next.Keeps parts known more ∧
      ∀ value ∈ values, value.Owned more :=
  (evalAll_yields (fun argument _ => exprYields (applyYields depth) argument)
    (fun argument inside => placed.stands.argumentOfCall argument (listed argument inside))
    placed.binds placed.owned placed.keeps).of_ok supplied

/-- Where a part of a program is evaluated, only parts of the program are evaluated. -/
theorem Placed.starts {outer inner : Evaluation} (placed : outer.Placed parts known own binders)
    (starts : outer.Starts inner) :
    ∃ more between, inner.Placed parts known more between := by
  cases starts with
  | testOfIfThen =>
      exact ⟨own, binders, placed.move (fun _ => id) placed.keeps placed.stands.testOfIfThen⟩
  | testOfIfElse =>
      exact ⟨own, binders, placed.move (fun _ => id) placed.keeps placed.stands.testOfIfElse⟩
  | consequentOfIfThen tested =>
      have test := placed.move (fun _ => id) placed.keeps placed.stands.testOfIfThen
      obtain ⟨more, grown, keeps, -⟩ := test.yields.of_ok tested
      exact ⟨more, binders, placed.move grown keeps
        (placed.stands.consequentOfIfThen (mayBe_of_eval tested))⟩
  | consequentOfIfElse tested =>
      have test := placed.move (fun _ => id) placed.keeps placed.stands.testOfIfElse
      obtain ⟨more, grown, keeps, -⟩ := test.yields.of_ok tested
      exact ⟨more, binders, placed.move grown keeps
        (placed.stands.consequentOfIfElse (mayBe_of_eval tested))⟩
  | alternativeOfIfElse tested =>
      have test := placed.move (fun _ => id) placed.keeps placed.stands.testOfIfElse
      obtain ⟨more, grown, keeps, -⟩ := test.yields.of_ok tested
      exact ⟨more, binders, placed.move grown keeps
        (placed.stands.alternativeOfIfElse (mayBe_of_eval tested))⟩
  | @argument _ _ _ _ _ _ _ front _ _ supplied =>
      obtain ⟨more, grown, keeps, -⟩ :=
        placed.supplied (fun _ listed => List.mem_append_left _ listed) supplied
      exact ⟨more, binders, placed.move grown keeps
        (placed.stands.argumentOfCall _ (List.mem_append_right _ List.mem_cons_self))⟩
  | callee supplied =>
      obtain ⟨more, grown, keeps, -⟩ := placed.supplied (fun _ => id) supplied
      exact ⟨more, binders, placed.move grown keeps placed.stands.calleeOfCall⟩
  | body supplied called defined fits =>
      obtain ⟨middle, grown, keeps, held⟩ := placed.supplied (fun _ => id) supplied
      have callee := placed.move grown keeps placed.stands.calleeOfCall
      obtain ⟨more, further, last, itself⟩ := callee.yields.of_ok called
      exact ⟨more, Placed.enter _ _ last (itself _ _ rfl) defined
        (fun value listed => (held value listed).mono further) fits⟩

end Evaluation

/-- What is known later includes what is known now. -/
theorem Function.BelongsTo.know {function : Function} {names : List Name}
    (belongs : function.BelongsTo parts known own) (grown : known ⊆ names) :
    function.BelongsTo parts names own := by
  obtain ⟨⟨binders, binds, stands⟩, owned⟩ := belongs
  exact ⟨⟨binders, binds, stands.mono grown⟩, owned⟩

namespace Evaluator

/-- A collection takes functions away and leaves the rest as it is. -/
theorem Keeps.collect (keeps : evaluator.Keeps parts known own) (result : Value) :
    (evaluator.collectIfNeeded result).Keeps parts known own := by
  unfold collectIfNeeded
  split
  · refine ⟨keeps.predefined, fun owned found => ?_, keeps.globals⟩
    exact keeps.functions owned ((getElem?_collect_iff evaluator [result] _ _).mp found).1
  · exact keeps

/-- A define makes a name known whose value is the program's own. -/
theorem Keeps.define {name : Name} {value : Value} (keeps : evaluator.Keeps parts known own)
    (fresh : evaluator.globals.lookup name = none) (held : value.Owned own) :
    Keeps parts (known ++ [name]) own
      { evaluator with globals := evaluator.globals ++ [(name, value)] } := by
  refine ⟨keeps.predefined.trans (List.prefix_append _ _), fun owned found =>
    (keeps.functions owned found).know (List.subset_append_left _ _), ?_⟩
  intro other listed stored found
  rw [List.lookup_append, List.lookup_cons, List.lookup_nil] at found
  by_cases same : other = name
  · subst same
    rw [fresh] at found
    simp only [beq_self_eq_true, Option.none_or, Option.some.injEq] at found
    exact found ▸ held
  · have differs : (other == name) = false := beq_eq_false_iff_ne.mpr same
    simp only [differs, Option.or_none] at found
    refine keeps.globals other ?_ stored found
    exact (List.mem_append.mp listed).resolve_right fun last =>
      same (List.mem_singleton.mp last)

/-- A define that is evaluated without an error defines a new name. -/
theorem evalForm_define_eq_ok {span : Span} {name : Name} {defined : Expr} {value : Value}
    (evaluated : evalForm result (.define span name defined) evaluator = .ok value next) :
    evaluator.globals.lookup name = none ∧ ∃ bound later,
      evalTop defined evaluator = .ok bound later ∧
        next = { later with globals := later.globals ++ [(name, bound)] } := by
  cases fresh : evaluator.globals.lookup name with
  | none =>
      rw [evalForm_define fresh] at evaluated
      obtain ⟨bound, later, top, ended⟩ := andThen_eq_ok evaluated
      exact ⟨rfl, bound, later, top, (EStateM.Result.ok.inj ended).2.symm⟩
  | some already =>
      delta Evaluator.evalForm at evaluated
      dsimp only at evaluated
      rw [fresh] at evaluated
      cases evaluated

/-- Evaluating a form without violations leaves what the rest of the program needs. -/
theorem Keeps.evalForm {expr : Expr} {value : Value} (keeps : evaluator.Keeps parts known own)
    (live : expr.sites [] true ⊆ parts) (clean : expr.formViolations known = [])
    (evaluated : evalForm result expr evaluator = .ok value next) :
    ∃ more, next.Keeps parts (known ++ expr.definedNames) more := by
  have yields (top : Expr) (stands : top.Stands parts known []) :
      YieldsOwned parts known own (evalTop top evaluator) :=
    exprYields (applyYields evaluator.maxDepth) top
      ⟨stands, Environment.binds_nil, fun _ listed => absurd listed List.not_mem_nil, keeps⟩
  cases named : definedName? expr with
  | none =>
      have plain : ∀ span name value, expr ≠ .define span name value := by
        rintro span name value rfl
        cases named
      rw [Expr.formViolations_of_not_define plain] at clean
      rw [evalForm_of_plain named] at evaluated
      have none : expr.definedNames = [] := by
        cases expr with
        | define span name value => cases named
        | _ => rfl
      obtain ⟨more, -, kept, -⟩ := (yields _ ⟨live, clean⟩).of_ok evaluated
      rw [none, List.append_nil]
      exact ⟨more, kept⟩
  | some name =>
      obtain ⟨span, defined, rfl⟩ := exists_of_definedName? named
      cases named
      obtain ⟨-, valueClean⟩ := Expr.formViolations_define.mp clean
      obtain ⟨fresh, bound, later, top, rfl⟩ := evalForm_define_eq_ok evaluated
      obtain ⟨more, -, kept, held⟩ := (yields defined ⟨live, valueClean⟩).of_ok top
      have globals := globals_evalTop defined evaluator
      rw [top] at globals
      exact ⟨more, kept.define ((congrArg (List.lookup name) globals).trans fresh) held⟩

theorem keeps_of_predefined (parts : List Site)
    (predefined : predefinedNames.zip predefinedValues <+: evaluator.globals) :
    evaluator.Keeps parts predefinedNames fun _ => False := by
  refine ⟨predefined, fun none _ => none.elim, fun name listed value found => ?_⟩
  obtain ⟨added, globals⟩ := predefined
  have bound : ∀ name ∈ predefinedNames, ∃ value ∈ predefinedValues,
      (predefinedNames.zip predefinedValues).lookup name = some value := by decide
  have plain : ∀ value ∈ predefinedValues, value.tag ≠ .closure := by decide
  obtain ⟨held, stored, looked⟩ := bound name listed
  rw [← globals, List.lookup_append, looked, Option.some_or] at found
  cases found
  rintro handle arity rfl
  exact absurd rfl (plain _ stored)

end Evaluator

/-- All evaluations of a program that compiles evaluate live parts of it. -/
theorem Evaluation.During.placed {evaluation : Evaluation}
    (during : During result exprs evaluator evaluation) (keeps : evaluator.Keeps parts known own)
    (live : Expr.sitesAll [] true exprs ⊆ parts) (clean : batchViolations known exprs = []) :
    ∃ names more binders, evaluation.Placed parts names more binders := by
  induction during generalizing known own with
  | @value result expr rest evaluator plain =>
      rw [batchViolations, Expr.formViolations_of_not_define plain] at clean
      have stands : expr.Stands parts known [] :=
        ⟨fun _ inside => live (List.mem_append_left _ inside), (List.append_eq_nil_iff.mp clean).1⟩
      exact ⟨known, own, [], stands, Environment.binds_nil,
        fun _ listed => absurd listed List.not_mem_nil, keeps⟩
  | @define result span name value rest evaluator fresh =>
      have clean := Expr.formViolations_define.mp (List.append_eq_nil_iff.mp clean).1
      have stands : value.Stands parts known [] :=
        ⟨fun _ inside => live (List.mem_append_left _ inside), clean.2⟩
      exact ⟨known, own, [], stands, Environment.binds_nil,
        fun _ listed => absurd listed List.not_mem_nil, keeps⟩
  | later evaluated _ ih =>
      obtain ⟨first, others⟩ := List.append_eq_nil_iff.mp clean
      obtain ⟨more, kept⟩ :=
        keeps.evalForm (fun _ inside => live (List.mem_append_left _ inside)) first evaluated
      exact ih (kept.collect _) (fun _ inside => live (List.mem_append_right _ inside)) others
  | inside _ starts ih =>
      obtain ⟨names, more, binders, placed⟩ := ih keeps live clean
      obtain ⟨further, between, placed⟩ := placed.starts starts
      exact ⟨names, further, between, placed⟩

end Programs

end ClosureLisp
