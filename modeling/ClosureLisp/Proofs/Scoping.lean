import ClosureLisp.Proofs.Calls
import ClosureLisp.Proofs.Compilation

/-!
# Evaluating what compiles

An evaluation of expressions that compile finds every name and every function, whatever the
machine would do with their code: its only errors are those of arity, type and calls, and of
calls nested too deeply. The invariant is that every handle leads to a function and that the
body of every function compiles inside frames like its environment; it survives collections and
also the reuse of handles.
-/

namespace ClosureLisp

open Evaluator

/-- The errors that an evaluation of what compiles can end in. -/
def Fault.Kind.IsExpected (kind : Fault.Kind) : Prop :=
  kind.IsOrdinary ∨ kind = .stackOverflow

/-- The body of a function compiles inside frames that bind what its environment binds. -/
def Function.Scoped (names : List Name) (function : Function) : Prop :=
  ∃ table outer offset compiled, table <+: names ∧ Frame.Threaded outer ∧
    function.environment.Matches outer ∧
    function.body.generate (slotIn table) offset
      (⟨function.parameters, function.self, []⟩ :: outer) = .ok compiled

namespace Evaluator

/-- A value is no function, or its handle leads to one. -/
def Knows (evaluator : Evaluator) (value : Value) : Prop :=
  ∀ handle arity, value = .closure handle arity → handle ∈ evaluator.functions

/-- All handles in an environment lead to functions. -/
def KnowsAll (evaluator : Evaluator) (environment : Environment) : Prop :=
  ∀ handle ∈ environment.handles, handle ∈ evaluator.functions

/-- Every handle leads to a function, and every function has a body that compiles. -/
structure Sound (evaluator : Evaluator) : Prop where
  bodies : ∀ {handle : UInt32} {function : Function},
    evaluator.functions[handle]? = some function →
    function.Scoped evaluator.names ∧ evaluator.KnowsAll function.environment
  globals : ∀ entry ∈ evaluator.globals, evaluator.Knows entry.2

/-- A sound evaluator after the evaluation of an expression: it has only gained functions. -/
structure Gains (evaluator later : Evaluator) : Prop where
  sound : later.Sound
  setting : later.setting = evaluator.setting
  kept : ∀ handle ∈ evaluator.functions, handle ∈ later.functions

/-- An evaluation ends in a good state, or it fails as expected. -/
inductive Behaves {α : Type} (good : α → Evaluator → Prop) :
    EStateM.Result EvalError Evaluator α → Prop where
  | value {value : α} {later : Evaluator} (reached : good value later) :
      Behaves good (.ok value later)
  | fault {cause : Fault} {later : Evaluator} (expected : cause.kind.IsExpected) :
      Behaves good (.error (.fault cause) later)

theorem Knows.mono {evaluator later : Evaluator} {value : Value} (known : evaluator.Knows value)
    (gains : evaluator.Gains later) : later.Knows value :=
  fun handle arity same => gains.kept handle (known handle arity same)

theorem KnowsAll.mono {evaluator later : Evaluator} {environment : Environment}
    (known : evaluator.KnowsAll environment) (gains : evaluator.Gains later) :
    later.KnowsAll environment :=
  fun handle listed => gains.kept handle (known handle listed)

theorem knows_constant (evaluator : Evaluator) (constant : Constant) :
    evaluator.Knows constant.value := by
  intro handle arity same
  cases constant <;> cases same

namespace Gains

variable {evaluator middle later : Evaluator}

theorem refl (sound : evaluator.Sound) : evaluator.Gains evaluator :=
  ⟨sound, rfl, fun _ present => present⟩

theorem trans (first : evaluator.Gains middle) (second : middle.Gains later) :
    evaluator.Gains later :=
  ⟨second.sound, second.setting.trans first.setting,
    fun handle present => second.kept handle (first.kept handle present)⟩

theorem names (gains : evaluator.Gains later) : later.names = evaluator.names := by
  have globals : later.globals = evaluator.globals := congrArg Prod.fst gains.setting
  rw [Evaluator.names, globals, Evaluator.names]

/-- A new function may be added even under a handle that is in use. -/
theorem alloc (sound : evaluator.Sound) {function : Function}
    (bodyScoped : function.Scoped evaluator.names)
    (known : evaluator.KnowsAll function.environment) :
    evaluator.Gains (evaluator.alloc function).2 := by
  have kept : ∀ handle ∈ evaluator.functions, handle ∈ (evaluator.alloc function).2.functions :=
    fun handle present => Std.TreeMap.mem_insert.mpr (.inr present)
  refine ⟨⟨?_, ?_⟩, rfl, kept⟩
  · intro handle other found
    rw [Evaluator.alloc, Std.TreeMap.getElem?_insert] at found
    split at found
    · cases found
      exact ⟨bodyScoped, fun handle listed => kept handle (known handle listed)⟩
    · obtain ⟨otherScoped, otherKnown⟩ := sound.bodies found
      exact ⟨otherScoped, fun handle listed => kept handle (otherKnown handle listed)⟩
  · exact fun entry listed handle arity same =>
      kept handle (sound.globals entry listed handle arity same)

end Gains

namespace Behaves

variable {α β : Type} {good : α → Evaluator → Prop} {better : β → Evaluator → Prop}

theorem andThen {outcome : EStateM.Result EvalError Evaluator α}
    {further : α → Evaluator → EStateM.Result EvalError Evaluator β}
    (first : Behaves good outcome)
    (second : ∀ {value later}, good value later → Behaves better (further value later)) :
    Behaves better (Evaluator.andThen outcome further) := by
  cases first with
  | fault expected => exact .fault expected
  | value reached => exact second reached

theorem imp {wanted : α → Evaluator → Prop} {outcome : EStateM.Result EvalError Evaluator α}
    (behaves : Behaves good outcome)
    (implied : ∀ {value later}, good value later → wanted value later) :
    Behaves wanted outcome := by
  cases behaves with
  | fault expected => exact .fault expected
  | value reached => exact .value (implied reached)

/-- What is gained from a later evaluator on is gained. -/
theorem after {evaluator later : Evaluator} (gains : evaluator.Gains later)
    {outcome : EStateM.Result EvalError Evaluator Value}
    (behaves : Behaves (fun value last => later.Gains last ∧ last.Knows value) outcome) :
    Behaves (fun value last => evaluator.Gains last ∧ last.Knows value) outcome :=
  behaves.imp fun reached => ⟨gains.trans reached.left, reached.right⟩

end Behaves

/-! ## Expressions -/

/-- An application to known values yields a known value. -/
def ApplyBehaves (apply : Apply) : Prop :=
  ∀ {evaluator : Evaluator} {handle : UInt32} {arity : Int} {arguments : List Value},
    evaluator.Sound → handle ∈ evaluator.functions →
    (∀ value ∈ arguments, evaluator.Knows value) →
    Behaves (fun value later => evaluator.Gains later ∧ later.Knows value)
      (apply handle arity arguments evaluator)

/-- An expression that compiles inside frames like an environment has a known value there. -/
def ExprBehaves (apply : Apply) (expr : Expr) : Prop :=
  ∀ {table : List Name} {offset : Nat} {frames after : List Frame} {code : List Instr}
    {environment : Environment} {evaluator : Evaluator},
    expr.generate (slotIn table) offset frames = .ok (code, after) → table <+: evaluator.names →
    Frame.Threaded frames → environment.Matches frames → evaluator.KnowsAll environment →
    evaluator.Sound →
    Behaves (fun value later => evaluator.Gains later ∧ later.Knows value)
      (eval apply environment expr evaluator)

end Evaluator

/-- A name that has a slot is bound: a capture comes from a binding further out. -/
theorem Environment.Matches.exists_lookup? {environment : Environment} {frames : List Frame}
    (scopes : environment.Matches frames) (threaded : Frame.Threaded frames) {name : Name}
    {slot : Nat} (found : Frame.innermostSlot? frames name = some slot) :
    ∃ value, environment.lookup? name = some value := by
  unfold Environment.lookup?
  induction scopes generalizing slot with
  | nil => cases found
  | @cons scope frame _ _ binds _ ih =>
      obtain ⟨-, sources, outer⟩ := threaded
      rw [List.findSome?_cons]
      cases bound : scope.lookup name with
      | some value => exact ⟨value, rfl⟩
      | none =>
          obtain ⟨missing, other⟩ := (binds name).mp bound
          have place : frame.parameters.idxOf? name = none := List.idxOf?_eq_none_iff.mpr missing
          change frame.slot? name = some slot at found
          unfold Frame.slot? at found
          simp only [place, if_neg other] at found
          obtain ⟨capture, known, -⟩ := Option.map_eq_some_iff.mp found
          obtain rfl : capture.name = name := by simpa using List.find?_some known
          exact ih outer (sources capture (List.mem_of_find?_eq_some known))

namespace Evaluator

variable {apply : Apply}

theorem exprBehaves_var (span : Span) (name : Name) : ExprBehaves apply (.var span name) := by
  intro table offset frames after code environment evaluator generated known threaded scopes
    bound sound
  rw [eval, lookup]
  rcases Expr.generate_var generated with ⟨slot, resolved, -⟩ | ⟨missing, -, slot, found, -⟩
  · obtain ⟨kept, grown, innermost⟩ := Frame.resolve?_spec threaded resolved
    obtain ⟨value, looked⟩ := (scopes.extend grown).exists_lookup? kept innermost
    rw [looked]
    refine .value ⟨.refl sound, ?_⟩
    rintro handle arity rfl
    exact bound handle (Environment.mem_handles_of_lookup? looked)
  · have unbound := scopes.lookup?_eq_none (Frame.slot?_eq_none_of_resolve?_eq_none missing)
    obtain ⟨value, listed, looked⟩ := lookup_of_slotIn (slotIn_extend known found)
    rw [unbound, looked]
    exact .value ⟨.refl sound, sound.globals _ (List.mem_of_getElem? listed)⟩

theorem exprBehaves_lambda (span : Span) (self : Option Name) (parameters : List Name)
    (body : Expr) : ExprBehaves apply (.lambda span self parameters body) := by
  intro table offset frames after code environment evaluator generated known threaded scopes
    bound sound
  obtain ⟨distinct, bodyCode, frame, inner, -, -⟩ := Expr.generate_lambda threaded generated
  rw [eval, makeFunction_eq distinct]
  refine .value ⟨.alloc sound ⟨table, frames, _, _, known, threaded, scopes, inner⟩ bound, ?_⟩
  rintro handle arity ⟨rfl, rfl⟩
  exact Std.TreeMap.mem_insert_self

/-- A call of a primitive fails only by arity, type or its name. -/
theorem callBuiltin_behaves {evaluator : Evaluator} (sound : evaluator.Sound) (place : Position)
    (name : Name) (arguments : List Value) :
    Behaves (fun value later => evaluator.Gains later ∧ later.Knows value)
      (callBuiltin place name arguments evaluator) := by
  rcases callBuiltin_cases place name arguments with ⟨condition, -, -, called⟩ | ⟨other, called⟩
  · rw [called]
    cases condition with
    | bool flag =>
        cases flag with
        | true => exact .value ⟨.refl sound, knows_constant _ .nil⟩
        | false =>
            exact .value ⟨⟨⟨sound.bodies, sound.globals⟩, rfl, fun _ present => present⟩,
              knows_constant _ .nil⟩
    | _ => exact .fault (.inl (.inr (.inl rfl)))
  · rw [called]
    unfold applyPrimitive
    cases applied : Primitive.applyNamed name arguments with
    | error cause =>
        rcases Primitive.applyNamed_error applied with ordinary | ⟨asserted, single⟩
        · exact .fault (.inl ordinary)
        · exact absurd single (other asserted)
    | ok yielded =>
        obtain ⟨result, shown⟩ := yielded
        obtain ⟨constant, rfl⟩ := Primitive.applyNamed_ok applied
        cases shown with
        | none => exact .value ⟨.refl sound, knows_constant _ constant⟩
        | some value =>
            exact .value ⟨⟨⟨sound.bodies, sound.globals⟩, rfl, fun _ present => present⟩,
              knows_constant _ constant⟩

theorem evalAll_behaves {exprs : List Expr} (each : ∀ expr ∈ exprs, ExprBehaves apply expr)
    {table : List Name} {offset : Nat} {frames after : List Frame} {code : List Instr}
    {environment : Environment} {evaluator : Evaluator}
    (generated : Expr.generateAll (slotIn table) offset frames exprs = .ok (code, after))
    (known : table <+: evaluator.names) (threaded : Frame.Threaded frames)
    (scopes : environment.Matches frames) (bound : evaluator.KnowsAll environment)
    (sound : evaluator.Sound) :
    Behaves (fun values later => evaluator.Gains later ∧ ∀ value ∈ values, later.Knows value)
      (evalAll apply environment exprs evaluator) := by
  induction exprs generalizing offset frames code evaluator with
  | nil => exact .value ⟨.refl sound, fun _ listed => absurd listed List.not_mem_nil⟩
  | cons expr rest ih =>
      obtain ⟨head, tail⟩ := List.forall_mem_cons.mp each
      obtain ⟨firstCode, middle, restCode, first, rested, -⟩ := Expr.generateAll_cons generated
      obtain ⟨kept, grown⟩ := Expr.keepsFrames _ expr threaded first
      rw [evalAll_cons]
      refine (head first known threaded scopes bound sound).andThen ?_
      rintro value later ⟨gains, knows⟩
      refine (ih tail rested (gains.names ▸ known) kept (scopes.extend grown) (bound.mono gains)
        gains.sound).andThen ?_
      rintro values last ⟨more, allKnown⟩
      exact .value ⟨gains.trans more, List.forall_mem_cons.mpr ⟨knows.mono more, allKnown⟩⟩

theorem exprBehaves_call (applied : ApplyBehaves apply) (span : Span) {callee : Expr}
    {arguments : List Expr} (calleeBehaves : ExprBehaves apply callee)
    (argumentsBehave : ∀ argument ∈ arguments, ExprBehaves apply argument) :
    ExprBehaves apply (.call span callee arguments) := by
  intro table offset frames after code environment evaluator generated known threaded scopes
    bound sound
  obtain ⟨argumentCode, middle, calleeCode, supplied, called, -⟩ := Expr.generate_call generated
  obtain ⟨kept, grown⟩ :=
    Expr.generateAll_keepsFrames (fun expr _ => Expr.keepsFrames _ expr) threaded supplied
  rw [eval_call]
  refine (evalAll_behaves argumentsBehave supplied known threaded scopes bound sound).andThen ?_
  rintro values later ⟨gains, allKnown⟩
  refine (calleeBehaves called (gains.names ▸ known) kept (scopes.extend grown)
    (bound.mono gains) gains.sound).andThen ?_
  rintro value last ⟨more, knows⟩
  have both := gains.trans more
  cases value with
  | builtin name arity =>
      exact (callBuiltin_behaves both.sound span.start name values).after both
  | closure handle arity =>
      exact (applied both.sound (knows handle arity rfl)
        fun value listed => (allKnown value listed).mono more).after both
  | nil | int | bool => exact .fault (.inl (.inr (.inr rfl)))

/-- A conditional behaves if its parts do. -/
theorem choose_behaves {consequent alternative : Action Value} {evaluator : Evaluator}
    {good : Value → Evaluator → Prop} (test : Value)
    (whenTrue : Behaves good (consequent evaluator))
    (whenFalse : Behaves good (alternative evaluator)) :
    Behaves good (choose consequent alternative test evaluator) := by
  cases test with
  | bool flag =>
      cases flag with
      | true => exact whenTrue
      | false => exact whenFalse
  | _ => exact .fault (.inl (.inr (.inl rfl)))

theorem exprBehaves (applied : ApplyBehaves apply) (expr : Expr) : ExprBehaves apply expr := by
  induction expr using Expr.induction with
  | int span value =>
      intro table offset frames after code environment evaluator _ _ _ _ _ sound
      rw [eval]
      exact .value ⟨.refl sound, knows_constant _ (.int value)⟩
  | bool span value =>
      intro table offset frames after code environment evaluator _ _ _ _ _ sound
      rw [eval]
      exact .value ⟨.refl sound, knows_constant _ (.bool value)⟩
  | var span name => exact exprBehaves_var span name
  | ifThen span test consequent testIh thenIh =>
      intro table offset frames after code environment evaluator generated known threaded scopes
        bound sound
      obtain ⟨testCode, middle, thenCode, tested, chosen, -⟩ := Expr.generate_ifThen generated
      obtain ⟨kept, grown⟩ := Expr.keepsFrames _ test threaded tested
      rw [eval_ifThen]
      refine (testIh tested known threaded scopes bound sound).andThen ?_
      rintro value later ⟨gains, -⟩
      refine choose_behaves value ?_ (.value ⟨gains, knows_constant _ .nil⟩)
      exact (thenIh chosen (gains.names ▸ known) kept (scopes.extend grown) (bound.mono gains)
        gains.sound).after gains
  | ifElse span test consequent alternative testIh thenIh elseIh =>
      intro table offset frames after code environment evaluator generated known threaded scopes
        bound sound
      obtain ⟨testCode, first, elseCode, second, thenCode, tested, otherwise, chosen, -⟩ :=
        Expr.generate_ifElse generated
      obtain ⟨kept, grown⟩ := Expr.keepsFrames _ test threaded tested
      obtain ⟨keptElse, more⟩ := Expr.keepsFrames _ alternative kept otherwise
      rw [eval_ifElse]
      refine (testIh tested known threaded scopes bound sound).andThen ?_
      rintro value later ⟨gains, -⟩
      refine choose_behaves value ?_ ?_
      · exact (thenIh chosen (gains.names ▸ known) keptElse
          (scopes.extend (Frame.extendsAll_trans grown more)) (bound.mono gains)
          gains.sound).after gains
      · exact (elseIh otherwise (gains.names ▸ known) kept (scopes.extend grown)
          (bound.mono gains) gains.sound).after gains
  | define span name value _ =>
      intro table offset frames after code environment evaluator generated
      exact absurd generated Expr.generate_define
  | lambda span self parameters body _ => exact exprBehaves_lambda span self parameters body
  | call span callee arguments calleeIh argumentsIh =>
      exact exprBehaves_call applied span calleeIh argumentsIh

/-- The scope of a call holds the arguments and the function itself. -/
theorem KnowsAll.enter {evaluator : Evaluator} {function : Function} {handle : UInt32}
    {arity : Int} {arguments : List Value} (known : evaluator.KnowsAll function.environment)
    (itself : handle ∈ evaluator.functions)
    (allKnown : ∀ value ∈ arguments, evaluator.Knows value) :
    evaluator.KnowsAll
      (function.scope (.closure handle arity) arguments :: function.environment) := by
  intro other listed
  rcases Function.mem_handles_enter listed with argument | rfl | outside
  · obtain ⟨otherArity, supplied⟩ := Value.mem_handlesOf.mp argument
    exact allKnown _ supplied other otherArity rfl
  · exact itself
  · exact known other outside

theorem exists_of_mem {functions : Table Function} {handle : UInt32}
    (present : handle ∈ functions) : ∃ function, functions[handle]? = some function :=
  Option.isSome_iff_exists.mp (Std.TreeMap.isSome_getElem?_iff_mem.mpr present)

theorem applyWithin_behaves (depth : Nat) : ApplyBehaves (applyWithin depth) := by
  induction depth with
  | zero =>
      intro evaluator handle arity arguments sound present _
      obtain ⟨function, defined⟩ := exists_of_mem present
      rw [applyWithin_of_getElem? defined]
      split
      · exact .fault (.inl (.inl rfl))
      · exact .fault (.inr rfl)
  | succ depth ih =>
      intro evaluator handle arity arguments sound present allKnown
      obtain ⟨function, defined⟩ := exists_of_mem present
      rw [applyWithin_of_getElem? defined]
      split
      · exact .fault (.inl (.inl rfl))
      · next equal =>
          obtain ⟨body, bound⟩ := sound.bodies defined
          obtain ⟨table, outer, offset, ⟨code, after⟩, known, threaded, scopes, generated⟩ := body
          refine exprBehaves ih function.body generated known
            (threaded.cons_fresh function.parameters function.self) ?_
            (bound.enter present allKnown) sound
          exact .cons (Function.scope_bindsAs rfl rfl (Decidable.not_not.mp equal)) scopes

/-! ## Programs -/

theorem evalTop_behaves {compiler : Compiler} {expr : Expr} {instrs : List Instr}
    {evaluator : Evaluator}
    (generated : expr.generate compiler.slot? compiler.buffer.used [] = .ok (instrs, []))
    (sound : evaluator.Sound) (names : evaluator.names = compiler.globals) :
    Behaves (fun value later => evaluator.Gains later ∧ later.Knows value)
      (evalTop expr evaluator) := by
  have known : compiler.globals <+: evaluator.names := names ▸ List.prefix_refl _
  exact exprBehaves (applyWithin_behaves evaluator.maxDepth) expr generated known True.intro .nil
    (fun _ listed => absurd listed List.not_mem_nil) sound

/-- An evaluator between two top-level expressions that compile. -/
structure Standing (compiler : Compiler) (result : Value) (evaluator : Evaluator) : Prop where
  sound : evaluator.Sound
  names : evaluator.names = compiler.globals
  known : evaluator.Knows result

theorem evalForm_behaves {compiler later : Compiler} {expr : Expr} {result : Value}
    {evaluator : Evaluator} (added : compiler.Adds expr later)
    (standing : Standing compiler result evaluator) :
    Behaves (Standing later) (evalForm result expr evaluator) := by
  cases added with
  | @define span name value instrs free generated =>
      rw [evalForm_define (lookup_of_slotIn_eq_none (standing.names ▸ free))]
      refine (evalTop_behaves generated standing.sound standing.names).andThen ?_
      rintro value next ⟨gains, knows⟩
      have still : next.Knows result := standing.known.mono gains
      refine .value ⟨⟨?_, ?_⟩, ?_, still⟩
      · intro handle function found
        obtain ⟨⟨table, outer, offset, compiled, known, rest⟩, bound⟩ := gains.sound.bodies found
        refine ⟨⟨table, outer, offset, compiled, known.trans ?_, rest⟩, bound⟩
        exact ⟨[name], by simp [Evaluator.names]⟩
      · intro entry listed
        rcases List.mem_append.mp listed with old | new
        · exact gains.sound.globals entry old
        · rw [List.mem_singleton.mp new]
          exact knows
      · have same := gains.names.trans standing.names
        rw [Evaluator.names, List.map_append]
        exact congrArg (· ++ [name]) same
  | @value _ instrs generated =>
      rw [evalForm_of_generate generated]
      refine (evalTop_behaves generated standing.sound standing.names).imp ?_
      rintro value next ⟨gains, knows⟩
      exact ⟨gains.sound, gains.names.trans standing.names, knows⟩

/-- What the globals and the result lead to is kept, so that no handle dangles. -/
theorem Standing.collect {compiler : Compiler} {result : Value} {evaluator : Evaluator}
    (standing : Standing compiler result evaluator) :
    Standing compiler result (evaluator.collectIfNeeded result) := by
  unfold collectIfNeeded
  split
  · have survives : ∀ handle ∈ evaluator.functions,
        evaluator.functions.Reaches Function.handles
          (Value.handlesOf (evaluator.globals.map Prod.snd ++ [result])) handle →
        handle ∈ (evaluator.collect [result]).2.functions := by
      intro handle present reached
      obtain ⟨function, defined⟩ := exists_of_mem present
      rw [← Std.TreeMap.isSome_getElem?_iff_mem,
        (getElem?_collect_iff evaluator [result] handle function).mpr ⟨defined, reached⟩]
      rfl
    have root : ∀ value ∈ evaluator.globals.map Prod.snd ++ [result], evaluator.Knows value →
        (evaluator.collect [result]).2.Knows value := by
      rintro value listed known handle arity rfl
      exact survives handle (known handle arity rfl)
        (.root (Value.mem_handlesOf.mpr ⟨arity, listed⟩))
    refine ⟨⟨?_, ?_⟩, standing.names, ?_⟩
    · intro handle function found
      obtain ⟨defined, reached⟩ := (getElem?_collect_iff evaluator [result] handle _).mp found
      obtain ⟨body, bound⟩ := standing.sound.bodies defined
      exact ⟨body, fun other listed => survives other (bound other listed)
        (.step reached defined listed)⟩
    · intro entry listed
      exact root entry.2 (List.mem_append_left _ (List.mem_map_of_mem listed))
        (standing.sound.globals entry listed)
    · exact root result (List.mem_append_right _ List.mem_cons_self) standing.known
  · exact standing

theorem evalForms_behaves {compiler later : Compiler} {exprs : List Expr} {result : Value}
    {evaluator : Evaluator} (added : compiler.addForms exprs = (none, later))
    (standing : Standing compiler result evaluator) :
    Behaves (Standing later) (evalForms result exprs evaluator) := by
  induction exprs generalizing compiler result evaluator with
  | nil =>
      rw [Compiler.addForms] at added
      cases added
      exact .value standing
  | cons expr rest ih =>
      obtain ⟨middle, first, rested⟩ := Compiler.addForms_cons added
      rw [evalForms_cons]
      refine (evalForm_behaves (Compiler.adds_of_addForm first) standing).andThen ?_
      exact fun standing => ih rested standing.collect

theorem standing_new (maxDepth : Int) : Standing Compiler.new .nil (Evaluator.new maxDepth) := by
  refine ⟨⟨?_, ?_⟩, rfl, knows_constant _ .nil⟩
  · intro handle function found
    simp [Evaluator.new] at found
  · intro entry listed handle arity same
    have plain : ∀ entry ∈ predefinedNames.zip predefinedValues,
        entry.2.tag ≠ .closure := by decide
    exact absurd (congrArg Value.tag same) (plain entry listed)

end Evaluator

end ClosureLisp
