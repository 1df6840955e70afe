import ClosureLisp.Proofs.Linting
import ClosureLisp.Proofs.Subevaluations

/-!
# What the warnings promise

Some warnings say that a call always fails or that a branch is never taken. They are right: of a
program that compiles, no such call ever has a value and no such branch is ever evaluated, in any
environment that comes up (`Lint.definite_warnings_sound`). The names that the linter takes for
local are those that the environment binds, and a primitive that no lambda hides has the value
that it has from the start.
-/

namespace ClosureLisp

open Evaluator

/-! ## Calls without a value -/

namespace Primitive

variable {name : Name} {primitive : Primitive} {arguments : List Value}

theorem apply_of_length_ne (wrong : arguments.length ≠ primitive.arity) :
    primitive.apply arguments =
      .error (.builtinArity primitive.name primitive.arity arguments.length) := by
  unfold apply
  split <;> first | rfl | exact absurd rfl wrong

theorem name_of_ofName? (named : ofName? name = some primitive) : primitive.name = name := by
  simpa using List.find?_some named

theorem lookup_name (primitive : Primitive) :
    (predefinedNames.zip predefinedValues).lookup primitive.name = some primitive.value := by
  cases primitive <;> decide

end Primitive

namespace Evaluator

variable {apply : Apply} {environment : Environment} {evaluator : Evaluator} {span : Span}
  {place : Position} {callee : Expr} {arguments : List Expr}

theorem length_of_evalAll {exprs : List Expr} {values : List Value} {next : Evaluator}
    (evaluated : evalAll apply environment exprs evaluator = .ok values next) :
    values.length = exprs.length := by
  induction exprs generalizing evaluator values with
  | nil =>
      rw [evalAll] at evaluated
      cases evaluated
      rfl
  | cons expr rest ih =>
      rw [evalAll_cons] at evaluated
      obtain ⟨value, middle, -, evaluated⟩ := andThen_eq_ok evaluated
      obtain ⟨others, last, rested, evaluated⟩ := andThen_eq_ok evaluated
      cases evaluated
      rw [List.length_cons, List.length_cons, ih rested]

/-- A call has no value if what is called has none or cannot be applied to the arguments. -/
theorem eval_call_ne_ok
    (stuck : ∀ values middle value next,
      evalAll apply environment arguments evaluator = .ok values middle →
      eval apply environment callee middle = .ok value next →
      ∀ result later, applyValue apply span.start values value next ≠ .ok result later)
    (result : Value) (later : Evaluator) :
    eval apply environment (.call span callee arguments) evaluator ≠ .ok result later := by
  rw [eval_call]
  intro ended
  obtain ⟨values, middle, supplied, ended⟩ := andThen_eq_ok ended
  obtain ⟨value, next, called, ended⟩ := andThen_eq_ok ended
  exact stuck values middle value next supplied called result later ended

/-- A call of a primitive has no value if the number of arguments is wrong. -/
theorem callBuiltin_ne_ok {primitive : Primitive} {name : Name} {values : List Value}
    (named : Primitive.ofName? name = some primitive) (wrong : values.length ≠ primitive.arity)
    (result : Value) (later : Evaluator) :
    callBuiltin place name values evaluator ≠ .ok result later := by
  rcases callBuiltin_cases place name values with ⟨condition, asserted, rfl, -⟩ | ⟨-, called⟩
  · rw [asserted] at named
    obtain rfl : Primitive.assert = primitive := Option.some.inj named
    exact absurd rfl wrong
  · rw [called, applyPrimitive, Primitive.applyNamed, named]
    simp only [Primitive.apply_of_length_ne wrong]
    intro impossible
    cases impossible

end Evaluator

/-! ## Warned parts where they are evaluated -/

/-- A child of a part stands below a child of the whole. -/
theorem Expr.Within.exists_child {part whole child : Expr} (within : Within part whole)
    (listed : child ∈ part.children) : ∃ top ∈ whole.children, Within child top := by
  induction within with
  | refl => exact ⟨child, listed, .refl⟩
  | inside inside _ ih =>
      obtain ⟨top, topListed, below⟩ := ih
      exact ⟨_, inside, .inside topListed below⟩

/-- No part of a program that obeys the rules for names has a define directly inside it. -/
theorem WellScoped.not_define {table : List Name} {exprs : List Expr}
    (obeys : WellScoped table exprs) {form part child : Expr} {inner : List Binder}
    (listed : form ∈ exprs) (occurs : Expr.Occurs part inner [] form)
    (inside : child ∈ part.children) (span : Span) (name : Name) (value : Expr) :
    child ≠ .define span name value := by
  rintro rfl
  obtain ⟨front, rest, rfl⟩ := List.append_of_mem listed
  obtain ⟨top, topListed, below⟩ := occurs.within.exists_child inside
  exact (obeys front form rest rfl).atTop top topListed span name value below

namespace Evaluation.Placed

open ClosureLisp.Expr

variable {text : Bytes} {exprs : List Expr} {evaluation : Evaluation} {known : List Name}
  {own : UInt32 → Prop} {binders inner : List Binder} {form part : Expr}
  (placed : evaluation.Placed (sitesAll [] true exprs) known own binders)

include placed

theorem mem_sitesAll : ⟨evaluation.expr, binders, true⟩ ∈ sitesAll [] true exprs :=
  placed.stands.live (self_mem_sites placed.stands.not_define)

/-- What starts where the evaluated part does is that part. -/
theorem eq_of_start (parsed : Reader.parse text = .ok exprs) {alive : Bool}
    (listed : ⟨part, inner, alive⟩ ∈ sitesAll [] true exprs)
    (same : part.start = evaluation.expr.start) :
    part = evaluation.expr ∧ inner = binders ∧ alive = true := by
  cases Reader.site_unique parsed listed placed.mem_sitesAll same
  exact ⟨rfl, rfl, rfl⟩

/-- A call that is warned of because it calls a literal has no value. -/
theorem literalCall_ne_ok (parsed : Reader.parse text = .ok exprs) {span : Span} {callee : Expr}
    {arguments : List Expr} (call : evaluation.expr = .call span callee arguments)
    (warned : ⟨callee.start, .literalCall⟩ ∈ Lint.ofExprs exprs) (value : Value)
    (later : Evaluator) : evaluation.outcome ≠ .ok value later := by
  obtain ⟨depth, environment, expr, evaluator⟩ := evaluation
  cases call
  obtain ⟨form, listed, part, inner, occurs, flagged⟩ := (Lint.mem_ofExprs_iff rfl).mp warned
  obtain ⟨alive, subset⟩ := Reader.exists_sites_subset_sitesAll listed occurs
  have stands := placed.stands.calleeOfCall
  have mine := stands.live (self_mem_sites stands.not_define)
  refine eval_call_ne_ok (fun values middle found next _ called => ?_) value later
  generalize starts : callee.start = place at flagged
  cases flagged with
  | @integerCall _ operator number =>
      cases Reader.site_unique parsed mine
        (subset (callee_sites_subset_call (self_mem_sites fun _ _ _ => Expr.noConfusion))) starts
      rw [eval] at called
      cases called
      intro result after impossible
      cases impossible
  | @boolCall _ operator flag =>
      cases Reader.site_unique parsed mine
        (subset (callee_sites_subset_call (self_mem_sites fun _ _ _ => Expr.noConfusion))) starts
      rw [eval] at called
      cases called
      intro result after impossible
      cases impossible

/-- A call that is warned of because of its number of arguments has no value. -/
theorem primitiveArity_ne_ok (parsed : Reader.parse text = .ok exprs) {span : Span}
    {callee : Expr} {arguments : List Expr} (call : evaluation.expr = .call span callee arguments)
    {name : Name} {expected given : Nat}
    (warned : ⟨span.start, .primitiveArity name expected given⟩ ∈ Lint.ofExprs exprs)
    (value : Value) (later : Evaluator) : evaluation.outcome ≠ .ok value later := by
  obtain ⟨depth, environment, expr, evaluator⟩ := evaluation
  cases call
  obtain ⟨form, listed, part, inner, occurs, flagged⟩ := (Lint.mem_ofExprs_iff rfl).mp warned
  obtain ⟨alive, subset⟩ := Reader.exists_sites_subset_sitesAll listed occurs
  generalize starts : span.start = place at flagged
  cases flagged with
  | @primitiveCall _ operator _ supplied primitive unbound named wrong =>
      obtain ⟨same, rfl, -⟩ := placed.eq_of_start parsed
        (subset (self_mem_sites fun _ _ _ => Expr.noConfusion)) starts.symm
      cases same
      refine eval_call_ne_ok (fun values middle found next evaluated called => ?_) value later
      obtain ⟨more, -, keeps, -⟩ := placed.supplied (fun _ => id) evaluated
      obtain ⟨added, globals⟩ := keeps.predefined
      obtain rfl := Primitive.name_of_ofName? named
      have looked : middle.globals.lookup primitive.name = some primitive.value := by
        rw [← globals, List.lookup_append, Primitive.lookup_name, Option.some_or]
      rw [eval, lookup, (placed.binds _).mpr unbound] at called
      dsimp only at called
      rw [looked] at called
      cases called
      exact callBuiltin_ne_ok named (length_of_evalAll evaluated ▸ wrong)

/-- No branch that is warned of is evaluated. -/
theorem not_mem_of_neverTaken (parsed : Reader.parse text = .ok exprs) {table : List Name}
    (obeys : WellScoped table exprs) {suspicion : Suspicion}
    (never : suspicion = .thenNeverTaken ∨ suspicion = .elseNeverTaken) :
    ⟨evaluation.expr.start, suspicion⟩ ∉ Lint.ofExprs exprs := by
  intro warned
  have other : suspicion.isHiding = false := by rcases never with rfl | rfl <;> rfl
  obtain ⟨form, listed, part, inner, occurs, flagged⟩ := (Lint.mem_ofExprs_iff other).mp warned
  obtain ⟨alive, subset⟩ := Reader.exists_sites_subset_sitesAll listed occurs
  have plain (child : Expr) (inside : child ∈ part.children) :
      ∀ span name value, child ≠ .define span name value :=
    obeys.not_define listed occurs inside
  generalize starts : evaluation.expr.start = place at flagged
  cases flagged with
  | onlyBranch =>
      have branch := subset (consequent_sites_subset_ifThen
        (self_mem_sites (plain _ (.tail _ (List.mem_singleton_self _)))))
      obtain ⟨-, -, live⟩ := placed.eq_of_start parsed branch starts.symm
      simp [mayBe] at live
  | thenBranch =>
      have branch := subset (consequent_sites_subset_ifElse
        (self_mem_sites (plain _ (.tail _ List.mem_cons_self))))
      obtain ⟨-, -, live⟩ := placed.eq_of_start parsed branch starts.symm
      simp [mayBe] at live
  | elseBranch =>
      have branch := subset (alternative_sites_subset_ifElse
        (self_mem_sites (plain _ (.tail _ (.tail _ (List.mem_singleton_self _))))))
      obtain ⟨-, -, live⟩ := placed.eq_of_start parsed branch starts.symm
      simp [mayBe] at live
  | _ => rcases never with same | same <;> cases same

end Evaluation.Placed

/-- Of a program that has been read and compiles, a call that is warned of because it always fails
has no value wherever it is evaluated, and a branch that is warned of because it is never taken is
not evaluated. The evaluator may have been used before. -/
theorem Lint.definite_warnings_sound {text : Bytes} {exprs : List Expr} {program : Program}
    (parsed : Reader.parse text = .ok exprs) (accepted : Program.ofExprs exprs = .ok program)
    {evaluator : Evaluator} (used : evaluator.Used) {evaluation : Evaluation}
    (during : Evaluation.During .nil exprs evaluator evaluation) :
    (∀ span callee arguments, evaluation.expr = .call span callee arguments →
      (⟨callee.start, .literalCall⟩ ∈ ofExprs exprs ∨ ∃ name expected given,
        ⟨span.start, .primitiveArity name expected given⟩ ∈ ofExprs exprs) →
      ∀ value later, evaluation.outcome ≠ .ok value later) ∧
    ⟨evaluation.expr.start, .thenNeverTaken⟩ ∉ ofExprs exprs ∧
      ⟨evaluation.expr.start, .elseNeverTaken⟩ ∉ ofExprs exprs := by
  have obeys := Compiler.wellScoped_of_ofExprs accepted
  obtain ⟨known, own, binders, placed⟩ := during.placed
    (keeps_of_predefined (Expr.sitesAll [] true exprs) used.predefined) (List.Subset.refl _)
    (batchViolations_eq_nil_iff.mpr obeys)
  refine ⟨fun span callee arguments call warned => ?_,
    placed.not_mem_of_neverTaken parsed obeys (.inl rfl),
    placed.not_mem_of_neverTaken parsed obeys (.inr rfl)⟩
  rcases warned with literal | ⟨name, expected, given, arity⟩
  · exact placed.literalCall_ne_ok parsed call literal
  · exact placed.primitiveArity_ne_ok parsed call arity

/-- A call of a primitive with too few arguments. -/
def shortSum : Expr :=
  .call ⟨⟨20, 1, 21⟩, ⟨24, 1, 25⟩⟩ (.var ⟨⟨21, 1, 22⟩, ⟨22, 1, 23⟩⟩ [43])
    [.var ⟨⟨23, 1, 24⟩, ⟨24, 1, 25⟩⟩ [120]]

/-- A conditional that chooses this call, and never the branch beside it. -/
def shortSumChoice : Expr :=
  .ifElse ⟨⟨13, 1, 14⟩, ⟨27, 1, 28⟩⟩ (.bool ⟨⟨17, 1, 18⟩, ⟨19, 1, 20⟩⟩ true) shortSum
    (.int ⟨⟨26, 1, 27⟩, ⟨27, 1, 28⟩⟩ 7)

/-- A function of one argument that does so. -/
def shortSumFunction : Expr :=
  .lambda ⟨⟨1, 1, 2⟩, ⟨28, 1, 29⟩⟩ none [[120]] shortSumChoice

/-- A program that calls this function. -/
def shortSumProgram : List Expr :=
  [.call ⟨⟨0, 1, 1⟩, ⟨31, 1, 32⟩⟩ shortSumFunction [.int ⟨⟨30, 1, 31⟩, ⟨31, 1, 32⟩⟩ 1]]

theorem Lint.definite_warnings_sound_shortSum :
    Reader.parse (utf8 "((lambda (x) (if #t (+ x) 7)) 1)") = .ok shortSumProgram ∧
      (∃ program, Program.ofExprs shortSumProgram = .ok program) ∧
      ofExprs shortSumProgram = [⟨⟨20, 1, 21⟩, .primitiveArity [43] 2 1⟩,
        ⟨⟨26, 1, 27⟩, .elseNeverTaken⟩] ∧
      ∃ evaluation, Evaluation.During .nil shortSumProgram (.new 5) evaluation ∧
        evaluation.expr = shortSum ∧ (∀ value later, evaluation.outcome ≠ .ok value later) ∧
        evaluation.expr.start ≠ ⟨26, 1, 27⟩ := by
  have parsed : Reader.parse (utf8 "((lambda (x) (if #t (+ x) 7)) 1)") = .ok shortSumProgram := by
    cbv
  obtain ⟨program, accepted⟩ : ∃ program, Program.ofExprs shortSumProgram = .ok program := ⟨_, rfl⟩
  have warned : ofExprs shortSumProgram = [⟨⟨20, 1, 21⟩, .primitiveArity [43] 2 1⟩,
      ⟨⟨26, 1, 27⟩, .elseNeverTaken⟩] := by decide
  obtain ⟨evaluation, during, expr⟩ : ∃ evaluation,
      Evaluation.During .nil shortSumProgram (.new 5) evaluation ∧ evaluation.expr = shortSum := by
    let function : Function := ⟨none, [[120]], shortSumChoice, []⟩
    have starts : Evaluation.Starts
        ⟨5, [], shortSumProgram.head (List.cons_ne_nil _ _), .new 5⟩
        ⟨4, [[([120], .int 1)]], shortSumChoice, ((Evaluator.new 5).alloc function).2⟩ := by
      have supplied : evalAll (applyWithin 5) [] [.int ⟨⟨30, 1, 31⟩, ⟨31, 1, 32⟩⟩ 1] (.new 5) =
          .ok [.int 1] (.new 5) := rfl
      have called : Evaluation.outcome ⟨5, [], shortSumFunction, .new 5⟩ =
          .ok (.closure 0 1) ((Evaluator.new 5).alloc function).2 := rfl
      have defined : ((Evaluator.new 5).alloc function).2.functions[(0 : UInt32)]? =
          some function := rfl
      exact .body supplied called defined rfl
    have top : Evaluation.During .nil shortSumProgram (.new 5)
        ⟨5, [], shortSumProgram.head (List.cons_ne_nil _ _), .new 5⟩ :=
      .value fun _ _ _ => Expr.noConfusion
    exact ⟨_, .inside (.inside top starts) (.consequentOfIfElse rfl), rfl⟩
  obtain ⟨calls, -, branch⟩ := definite_warnings_sound parsed accepted (.new 5) during
  refine ⟨parsed, ⟨program, accepted⟩, warned, evaluation, during, expr, ?_, fun same => ?_⟩
  · refine calls _ _ _ expr (.inr ⟨[43], 2, 1, ?_⟩)
    rw [warned]
    exact List.mem_cons_self
  · rw [same, warned] at branch
    exact branch (.tail _ List.mem_cons_self)

end ClosureLisp
