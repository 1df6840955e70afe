import ClosureLisp.Proofs.Calls

/-!
# Compiled expressions

The code of an expression follows its evaluation: by induction on the expression, given that
the call of a closure follows the application of its function, and for these by induction on
the number of calls that may still be nested.
-/

namespace ClosureLisp

open Evaluator

/-- The code at the position of a machine was generated inside some frames, in whose innermost the
machine now is. -/
structure Situated (table : List Name) (environment : Environment) (frames after : List Frame)
    (code : List Instr) (evaluator : Evaluator) (machine : Machine) : Prop where
  known : table <+: evaluator.names
  threaded : Frame.Threaded frames
  scopes : environment.Matches frames
  window : Window after environment machine
  placed : machine.code.Places machine.pc code

/-- Calls of closures follow applications that may nest the given number of further calls. -/
structure AppliesAlong (apply : Apply) (depth : Nat) : Prop where
  monotone : ∀ handle arity arguments (evaluator : Evaluator),
    evaluator.failures ≤ (after (apply handle arity arguments evaluator)).failures
  follows : ∀ {count : Nat} {older : List Event} {evaluator : Evaluator} {start : Machine}
    {pc size : Nat} {values : List Value} {handle : UInt32} {arity : Int} {heap : Heap}
    {events : List Event},
    Agrees count older evaluator
      (start.advance pc (values ++ [.closure handle arity]) heap events) →
    start.code.instrAt pc = .ok (.call (Expr.word values.length), size) →
    values.length < Expr.operandRange →
    Follows (depth + start.stack.size < start.stackLimit) older evaluator.failures
      (fun value => Arrived start (pc + size) older evaluator [value]) count
      (start.advance pc (values ++ [.closure handle arity]) heap events)
      (apply handle arity values evaluator)

theorem AppliesAlong.eval_monotone {apply : Apply} {depth : Nat}
    (applied : AppliesAlong apply depth) (environment : Environment) (expr : Expr)
    (evaluator : Evaluator) :
    evaluator.failures ≤ (Evaluator.after (eval apply environment expr evaluator)).failures :=
  failures_growth.eval applied.monotone environment expr evaluator

theorem choose_monotone {consequent alternative : Action Value}
    (first : ∀ evaluator, evaluator.failures ≤ (Evaluator.after (consequent evaluator)).failures)
    (second : ∀ evaluator, evaluator.failures ≤ (Evaluator.after (alternative evaluator)).failures)
    (test : Value) (evaluator : Evaluator) :
    evaluator.failures ≤
      (Evaluator.after (choose consequent alternative test evaluator)).failures := by
  unfold choose
  split
  · exact first evaluator
  · exact second evaluator
  · exact Nat.le_refl _

/-- The code of an expression follows its evaluation. -/
def ExprFollows (apply : Apply) (depth : Nat) (expr : Expr) : Prop :=
  ∀ {table : List Name} {environment : Environment} {frames after : List Frame}
    {code : List Instr} {count : Nat} {older : List Event} {evaluator : Evaluator}
    {machine : Machine},
    expr.generate (slotIn table) machine.pc frames = .ok (code, after) →
    expr.Fits (slotIn table) machine.pc frames →
    Situated table environment frames after code evaluator machine →
    Agrees count older evaluator machine →
    Follows (depth + machine.stack.size < machine.stackLimit) older evaluator.failures
      (fun value => Arrived machine (machine.pc + Instr.sizeAll code) older evaluator [value])
      count machine (eval apply environment expr evaluator)

namespace Situated

variable {table : List Name} {environment : Environment} {frames middle last after : List Frame}
  {code piece : List Instr} {evaluator later : Evaluator} {machine : Machine}

/-- The first piece of the code. -/
theorem first (situated : Situated table environment frames after code evaluator machine)
    (behind : List.Forall₂ Frame.Extends last after)
    (placed : machine.code.Places machine.pc piece) :
    Situated table environment frames last piece evaluator machine :=
  ⟨situated.known, situated.threaded, situated.scopes, situated.window.shrink behind, placed⟩

/-- A further piece of the code, once the machine has come there. -/
theorem next (situated : Situated table environment frames after code evaluator machine)
    (threaded : Frame.Threaded middle) (before : List.Forall₂ Frame.Extends frames middle)
    (behind : List.Forall₂ Frame.Extends last after) (same : later.setting = evaluator.setting)
    {pc : Nat} (placed : machine.code.Places pc piece) (values : List Value) (heap : Heap)
    (events : List Event) :
    Situated table environment middle last piece later
      (machine.advance pc values heap events) := by
  refine ⟨?_, threaded, situated.scopes.extend before,
    (situated.window.shrink behind).advance pc values heap events, placed⟩
  have globals : later.globals = evaluator.globals := congrArg Prod.fst same
  rw [Evaluator.names, globals]
  exact situated.known

end Situated

/-! ## The forms of expressions -/

section Forms

variable {apply : Apply} {depth : Nat}

theorem exprFollows_constant {expr : Expr} {constant : Constant}
    (generates : ∀ globals offset frames,
      expr.generate globals offset frames = .ok ([.push constant], frames))
    (evaluates : ∀ environment evaluator,
      eval apply environment expr evaluator = .ok constant.value evaluator) :
    ExprFollows apply depth expr := by
  intro table environment frames after code count older evaluator machine generated _ situated
    agrees
  rw [generates] at generated
  cases generated
  rw [evaluates, Instr.sizeAll_singleton]
  exact .of_constant agrees situated.placed.instrAt

theorem exprFollows_var (span : Span) (name : Name) :
    ExprFollows apply depth (.var span name) := by
  intro table environment frames after code count older evaluator machine generated fits situated
    agrees
  rw [eval, lookup]
  rcases Expr.generate_var generated with
    ⟨slot, resolved, rfl⟩ | ⟨missing, rfl, slot, found, rfl⟩
  · have small : slot < Expr.operandRange := by
      refine fits slot ?_
      rw [Expr.operands, resolved]
      exact List.mem_cons_self
    obtain ⟨-, -, innermost⟩ := Frame.resolve?_spec situated.threaded resolved
    obtain ⟨value, bound, follows⟩ :=
      Follows.of_get agrees situated.window innermost small situated.placed.instrAt
    rw [bound, Instr.sizeAll_singleton]
    exact follows
  · have small : slot < Expr.operandRange := by
      refine fits slot ?_
      rw [Expr.operands, missing, found]
      exact List.mem_cons_self
    obtain ⟨value, bound, follows⟩ :=
      Follows.of_getGlobal agrees situated.known found small situated.placed.instrAt
    have unbound := situated.scopes.lookup?_eq_none
      (Frame.slot?_eq_none_of_resolve?_eq_none missing)
    rw [unbound, bound, Instr.sizeAll_singleton]
    exact follows

/-- A value that has been pushed stays when the machine jumps. -/
theorem Follows.then_jump {deep : Prop} {older : List Event} {failures count pc size target : Nat}
    {start machine : Machine} {evaluator : Evaluator}
    {outcome : EStateM.Result EvalError Evaluator Value}
    (follows : Follows deep older failures
      (fun value => Arrived start pc older evaluator [value]) count machine outcome)
    (decoded : start.code.instrAt pc = .ok (.jump (Expr.word target), size))
    (fits : target < Expr.operandRange) (inside : target ≤ start.code.size) :
    Follows deep older failures
      (fun value => Arrived start target older evaluator [value]) count machine outcome := by
  refine follows.onward ?_
  rintro value made later _ counted ⟨⟨heap, events, rfl⟩, same, reached⟩
  refine .of_jump reached decoded fits inside fun heap events reached => ?_
  exact .value (.refl _) counted ⟨⟨heap, events, rfl⟩, same, reached⟩

theorem exprFollows_ifThen (applied : AppliesAlong apply depth) (span : Span)
    {test consequent : Expr} (testFollows : ExprFollows apply depth test)
    (thenFollows : ExprFollows apply depth consequent) :
    ExprFollows apply depth (.ifThen span test consequent) := by
  intro table environment frames after code count older evaluator machine generated fits situated
    agrees
  obtain ⟨testCode, middle, thenCode, tested, chosen, rfl⟩ := Expr.generate_ifThen generated
  obtain ⟨testFits, thenSmall, stopSmall, thenFits⟩ := fits.ifThen tested chosen
  obtain ⟨kept, before⟩ := Expr.keepsFrames _ test situated.threaded tested
  obtain ⟨-, behind⟩ := Expr.keepsFrames _ consequent kept chosen
  have branchPlaced := situated.placed.left.right
  have thenPlaced := situated.placed.right
  have stopInside := situated.placed.stop_le
  rw [Instr.sizeAll_append, ← Nat.add_assoc, Expr.thenOffset_eq] at stopInside ⊢
  rw [Expr.thenOffset_eq] at thenPlaced
  rw [eval_ifThen]
  refine (testFollows tested testFits (situated.first behind situated.placed.left.left)
    agrees).andThen (fun value next => choose_monotone (applied.eval_monotone _ _)
      (fun _ => Nat.le_refl _) value next) ?_
  rintro value made later _ counted ⟨⟨heap, events, rfl⟩, same, reached⟩
  rw [← counted]
  refine .of_branch reached branchPlaced.instrAt thenSmall ?_ ?_ ?_
  · exact Nat.le_trans (Nat.le_add_right _ _) stopInside
  · intro heap events reached
    have arrived : Arrived machine (Expr.thenOffset machine.pc testCode) older evaluator []
        (count + made) later _ := ⟨⟨heap, events, rfl⟩, same, reached⟩
    refine arrived.resume (thenFollows chosen thenFits ?_ reached)
    exact situated.next kept before (Frame.extendsAll_refl _) same thenPlaced [] heap events
  · intro heap events reached
    have arrived : Arrived machine _ older evaluator [] (count + made) later _ :=
      ⟨⟨heap, events, rfl⟩, same, reached⟩
    exact .then_jump (arrived.resume (.of_constant reached branchPlaced.tail.instrAt))
      branchPlaced.tail.tail.instrAt stopSmall stopInside

theorem exprFollows_ifElse (applied : AppliesAlong apply depth) (span : Span)
    {test consequent alternative : Expr} (testFollows : ExprFollows apply depth test)
    (thenFollows : ExprFollows apply depth consequent)
    (elseFollows : ExprFollows apply depth alternative) :
    ExprFollows apply depth (.ifElse span test consequent alternative) := by
  intro table environment frames after code count older evaluator machine generated fits situated
    agrees
  obtain ⟨testCode, first, elseCode, second, thenCode, tested, otherwise, chosen, rfl⟩ :=
    Expr.generate_ifElse generated
  obtain ⟨testFits, thenSmall, elseFits, stopSmall, thenFits⟩ :=
    fits.ifElse tested otherwise chosen
  obtain ⟨kept, before⟩ := Expr.keepsFrames _ test situated.threaded tested
  obtain ⟨keptElse, between⟩ := Expr.keepsFrames _ alternative kept otherwise
  obtain ⟨-, behind⟩ := Expr.keepsFrames _ consequent keptElse chosen
  have branchPlaced := situated.placed.right
  have elsePlaced := branchPlaced.tail.left
  have jumpPlaced := branchPlaced.tail.right
  have thenPlaced := jumpPlaced.tail
  have stopInside := thenPlaced.stop_le
  rw [eval_ifElse, Expr.stop_of_ifElse]
  refine (testFollows tested testFits (situated.first
    (Frame.extendsAll_trans between behind) situated.placed.left) agrees).andThen
      (choose_monotone (applied.eval_monotone _ _) (applied.eval_monotone _ _)) ?_
  rintro value made later _ counted ⟨⟨heap, events, rfl⟩, same, reached⟩
  rw [← counted]
  refine .of_branch reached branchPlaced.instrAt thenSmall ?_ ?_ ?_
  · exact Nat.le_trans (Nat.le_add_right _ _) stopInside
  · intro heap events reached
    have arrived : Arrived machine _ older evaluator [] (count + made) later _ :=
      ⟨⟨heap, events, rfl⟩, same, reached⟩
    refine arrived.resume (thenFollows chosen thenFits ?_ reached)
    exact situated.next keptElse (Frame.extendsAll_trans before between) (Frame.extendsAll_refl _)
      same thenPlaced [] heap events
  · intro heap events reached
    have arrived : Arrived machine _ older evaluator [] (count + made) later _ :=
      ⟨⟨heap, events, rfl⟩, same, reached⟩
    have follows := arrived.resume (elseFollows otherwise elseFits
      (situated.next kept before behind same elsePlaced [] heap events) reached)
    exact follows.then_jump jumpPlaced.instrAt stopSmall stopInside

/-- Names that have slots have values. -/
theorem Window.exists_values {start : Machine} {environment : Environment} {frames : List Frame}
    (window : Window frames environment start) {captures : List Capture}
    (sources : ∀ capture ∈ captures,
      Frame.innermostSlot? frames capture.name = some capture.parentSlot) :
    ∃ values : List Value,
      captures.map (fun capture => environment.lookup? capture.name) = values.map some := by
  induction captures with
  | nil => exact ⟨[], rfl⟩
  | cons capture rest ih =>
      obtain ⟨source, sources⟩ := List.forall_mem_cons.mp sources
      obtain ⟨-, -, value, -, -, bound, -⟩ := window _ _ source
      obtain ⟨values, rested⟩ := ih sources
      exact ⟨value :: values, by rw [List.map_cons, bound, rested, List.map_cons]⟩

/-- The loads of captured names push the values that these names have. -/
theorem Follows.of_loads {deep : Prop} {older : List Event} {count : Nat} {evaluator : Evaluator}
    {start : Machine} {environment : Environment} {frames : List Frame}
    (window : Window frames environment start) {captures : List Capture}
    (sources : ∀ capture ∈ captures,
      Frame.innermostSlot? frames capture.name = some capture.parentSlot)
    (fits : ∀ capture ∈ captures, capture.parentSlot < Expr.operandRange) {values : List Value}
    (bound : captures.map (fun capture => environment.lookup? capture.name) = values.map some)
    (placed : start.code.Places start.pc
      (captures.map fun capture => .get (Expr.word capture.parentSlot)))
    (agrees : Agrees count older evaluator start) :
    Follows deep older evaluator.failures
      (Arrived start (start.pc + Instr.sizeAll (captures.map fun capture =>
        .get (Expr.word capture.parentSlot))) older evaluator) count start
      (.ok values evaluator) := by
  induction captures generalizing values start count with
  | nil =>
      obtain rfl : values = [] := by simpa using bound.symm
      refine .value (.refl _) rfl ⟨⟨start.heap, start.events, ?_⟩, rfl, agrees⟩
      exact start.advance_self.symm
  | cons capture rest ih =>
      obtain ⟨source, sources⟩ := List.forall_mem_cons.mp sources
      obtain ⟨small, fits⟩ := List.forall_mem_cons.mp fits
      cases values with
      | nil => cases bound
      | cons value values =>
          obtain ⟨head, tail⟩ := List.cons.inj bound
          obtain ⟨loaded, looked, follows⟩ :=
            Follows.of_get agrees window source small placed.instrAt
          obtain rfl : value = loaded := Option.some.inj (head.symm.trans looked)
          refine follows.pass fun {made middle} first => ?_
          obtain ⟨⟨heap, events, rfl⟩, -, reached⟩ := id first
          have onward := ih (window.advance _ [value] heap events) sources fits tail placed.tail
            reached
          refine onward.pass fun {more last} second => ?_
          rw [List.map_cons, Instr.sizeAll_cons, ← Nat.add_assoc]
          exact .value (.refl _) rfl (first.trans second)

/-- The loads of the captures and the instruction behind them make the closure of a function. -/
theorem Follows.of_captures {deep : Prop} {older : List Event} {count entry : Nat}
    {evaluator : Evaluator} {start : Machine} {function : Function} {frames : List Frame}
    {frame : Frame} (agrees : Agrees count older evaluator start)
    (body : BodyAt start.code evaluator.names function entry frame)
    (window : Window frames function.environment start)
    (sources : ∀ capture ∈ frame.captures,
      Frame.innermostSlot? frames capture.name = some capture.parentSlot)
    (sourcesFit : ∀ capture ∈ frame.captures, capture.parentSlot < Expr.operandRange)
    (placed : start.code.Places start.pc
      (frame.captures.map (fun capture => .get (Expr.word capture.parentSlot)) ++
        [.makeLambda (Expr.word entry) (Expr.word function.parameters.length)
          (Expr.word frame.captures.length)]))
    (aritySmall : function.parameters.length < Expr.operandRange)
    (capturesSmall : frame.captures.length < Expr.operandRange) :
    Follows deep older evaluator.failures
      (fun value => Arrived start (start.pc + Instr.sizeAll
        (frame.captures.map (fun capture => .get (Expr.word capture.parentSlot)) ++
          [.makeLambda (Expr.word entry) (Expr.word function.parameters.length)
            (Expr.word frame.captures.length)])) older evaluator [value]) count start
      (.ok (.closure evaluator.next function.parameters.length) (evaluator.alloc function).2) := by
  obtain ⟨values, bound⟩ := window.exists_values sources
  have captured : frame.captures.length = values.length := by
    simpa using congrArg List.length bound
  obtain ⟨-, -, -, -, -, code, small⟩ := id body
  refine (Follows.of_loads window sources sourcesFit bound placed.left agrees).pass ?_
  rintro made _ ⟨⟨heap, events, rfl⟩, -, reached⟩
  rw [Instr.sizeAll_append, Instr.sizeAll_singleton, ← Nat.add_assoc]
  rw [captured] at capturesSmall
  refine .of_makeLambda reached ?_ body small aritySmall capturesSmall ?_ bound
  · rw [captured] at placed
    exact placed.right.instrAt
  · exact Nat.le_trans (Nat.le_add_right _ _) code.stop_le

theorem exprFollows_lambda (span : Span) (self : Option Name) (parameters : List Name)
    (body : Expr) : ExprFollows apply depth (.lambda span self parameters body) := by
  intro table environment frames after code count older evaluator machine generated fits situated
    agrees
  obtain ⟨distinct, bodyCode, frame, inner, grown, rfl⟩ :=
    Expr.generate_lambda situated.threaded generated
  obtain ⟨stopSmall, bodyFits, sourcesFit, entrySmall, aritySmall, capturesSmall⟩ :=
    fits.lambda inner
  obtain ⟨⟨-, sources, -⟩, -⟩ :=
    Expr.keepsFrames _ body (situated.threaded.cons_fresh parameters self) inner
  have placed := situated.placed
  rw [Expr.lambdaCode_eq] at placed ⊢
  have bodyPlaced := placed.tail.left
  have madePlaced := placed.tail.right
  rw [Expr.stop_of_body] at madePlaced
  rw [Instr.sizeAll_cons, Instr.sizeAll_append, ← Nat.add_assoc, ← Nat.add_assoc,
    Expr.stop_of_body, eval, makeFunction_eq distinct]
  refine .of_jump_here agrees placed.instrAt stopSmall
    (Nat.le_trans (Nat.le_add_right _ _) madePlaced.stop_le) fun heap events reached => ?_
  have arrived : Arrived machine _ older evaluator [] count evaluator _ :=
    ⟨⟨heap, events, rfl⟩, rfl, reached⟩
  refine arrived.resume ?_
  have function : BodyAt machine.code evaluator.names ⟨self, parameters, body, environment⟩
      (machine.pc + Expr.jumpSize) frame :=
    .intro situated.known situated.threaded situated.scopes inner bodyFits bodyPlaced entrySmall
  exact .of_captures reached function (situated.window.advance _ [] heap events) sources sourcesFit
    madePlaced aritySmall capturesSmall

/-- The code of expressions one after the other follows their evaluation. -/
theorem exprsFollow (applied : AppliesAlong apply depth) {exprs : List Expr}
    (each : ∀ expr ∈ exprs, ExprFollows apply depth expr) {table : List Name}
    {environment : Environment} {frames after : List Frame} {code : List Instr} {count : Nat}
    {older : List Event} {evaluator : Evaluator} {machine : Machine}
    (generated : Expr.generateAll (slotIn table) machine.pc frames exprs = .ok (code, after))
    (fits : Expr.FitsAll (slotIn table) machine.pc frames exprs)
    (situated : Situated table environment frames after code evaluator machine)
    (agrees : Agrees count older evaluator machine) :
    Follows (depth + machine.stack.size < machine.stackLimit) older evaluator.failures
      (fun values count later last => values.length = exprs.length ∧
        Arrived machine (machine.pc + Instr.sizeAll code) older evaluator values count later last)
      count machine (evalAll apply environment exprs evaluator) := by
  induction exprs generalizing frames code count evaluator machine with
  | nil =>
      rw [Expr.generateAll] at generated
      cases generated
      refine .value (.refl _) rfl ⟨rfl, ⟨machine.heap, machine.events, ?_⟩, rfl, agrees⟩
      exact machine.advance_self.symm
  | cons expr rest ih =>
      obtain ⟨head, tail⟩ := List.forall_mem_cons.mp each
      obtain ⟨firstCode, middle, restCode, first, rested, rfl⟩ := Expr.generateAll_cons generated
      obtain ⟨firstFits, restFits⟩ := fits.cons first
      obtain ⟨kept, before⟩ := Expr.keepsFrames _ expr situated.threaded first
      obtain ⟨-, behind⟩ :=
        Expr.generateAll_keepsFrames (fun expr _ => Expr.keepsFrames _ expr) kept rested
      have grows : ∀ (exprs : List Expr) (evaluator : Evaluator), evaluator.failures ≤
          (Evaluator.after (evalAll apply environment exprs evaluator)).failures :=
        fun exprs => failures_growth.evalAll fun expr _ => applied.eval_monotone environment expr
      rw [evalAll_cons, Instr.sizeAll_append, ← Nat.add_assoc]
      refine (head first firstFits (situated.first behind situated.placed.left) agrees).andThen
        (fun value next => failures_growth.andThen (grows rest next) fun _ _ => Nat.le_refl _) ?_
      intro value made later machine counted arrived
      obtain ⟨⟨heap, events, rfl⟩, same, reached⟩ := id arrived
      have follows := ih tail rested restFits
        (situated.next kept before (Frame.extendsAll_refl _) same situated.placed.right _ heap
          events) reached
      rw [counted] at follows
      refine (follows.deepen arrived.higher).andThen (fun _ _ => Nat.le_refl _) ?_
      rintro values more latest last unfailing ⟨size, onward⟩
      exact .value (.refl _) unfailing ⟨congrArg (· + 1) size, arrived.trans onward⟩

/-- A call follows the application of the value that the callee has. -/
theorem Follows.of_call (applied : AppliesAlong apply depth) {older : List Event} {count : Nat}
    {evaluator : Evaluator} {start : Machine} {pc size : Nat} {values : List Value}
    {callee : Value} {heap : Heap} {events : List Event} {place : Position}
    (agrees : Agrees count older evaluator (start.advance pc (values ++ [callee]) heap events))
    (decoded : start.code.instrAt pc = .ok (.call (Expr.word values.length), size))
    (fits : values.length < Expr.operandRange) :
    Follows (depth + start.stack.size < start.stackLimit) older evaluator.failures
      (fun value => Arrived start (pc + size) older evaluator [value]) count
      (start.advance pc (values ++ [callee]) heap events)
      (applyValue apply place values callee evaluator) := by
  cases callee with
  | builtin name arity => exact .of_primitive agrees decoded fits
  | closure handle arity => exact applied.follows agrees decoded fits
  | nil | int | bool =>
      obtain ⟨laterHeap, laterEvents, stepped, prepared, same⟩ := agrees.step decoded
      rw [Machine.execute_call _ fits] at stepped
      exact .of_fault stepped (.inr (.inr rfl)) rfl (prepared.drop (pc + size)).prints

theorem exprFollows_call (applied : AppliesAlong apply depth) (span : Span) {callee : Expr}
    {arguments : List Expr} (calleeFollows : ExprFollows apply depth callee)
    (argumentsFollow : ∀ argument ∈ arguments, ExprFollows apply depth argument) :
    ExprFollows apply depth (.call span callee arguments) := by
  intro table environment frames after code count older evaluator machine generated fits situated
    agrees
  obtain ⟨argumentCode, middle, calleeCode, supplied, called, rfl⟩ :=
    Expr.generate_call generated
  obtain ⟨argumentsFit, calleeFits, countSmall⟩ := fits.call supplied
  obtain ⟨kept, before⟩ :=
    Expr.generateAll_keepsFrames (fun expr _ => Expr.keepsFrames _ expr) situated.threaded supplied
  obtain ⟨-, behind⟩ := Expr.keepsFrames _ callee kept called
  have calleePlaced := situated.placed.right.left
  have callPlaced := situated.placed.right.right
  have applyGrows := failures_growth.applyValue applied.monotone span.start
  rw [eval_call, Instr.sizeAll_append, Instr.sizeAll_append, Instr.sizeAll_singleton,
    ← Nat.add_assoc, ← Nat.add_assoc]
  refine (exprsFollow applied argumentsFollow supplied argumentsFit
    (situated.first behind situated.placed.left) agrees).andThen (fun values next =>
      failures_growth.andThen (applied.eval_monotone _ callee next) (applyGrows values)) ?_
  rintro values made later _ counted ⟨size, arrived⟩
  obtain ⟨⟨heap, events, rfl⟩, same, reached⟩ := id arrived
  have follows := arrived.resume (calleeFollows called calleeFits
    (situated.next kept before (Frame.extendsAll_refl _) same calleePlaced _ heap events) reached)
  rw [counted] at follows
  refine follows.andThen (applyGrows values) ?_
  rintro value more latest _ unfailing ⟨⟨heap, events, rfl⟩, unchanged, reached⟩
  rw [← size] at callPlaced countSmall
  rw [← unfailing]
  refine (Follows.of_call applied reached callPlaced.instrAt countSmall).onward ?_
  rintro result most final last finished ⟨shape, kept, agreed⟩
  exact .value (.refl _) finished ⟨shape, kept.trans unchanged, agreed⟩

end Forms

/-! ## All expressions and all calls -/

/-- The code of every expression follows its evaluation, if calls of closures do. -/
theorem exprFollows {apply : Apply} {depth : Nat} (applied : AppliesAlong apply depth)
    (expr : Expr) : ExprFollows apply depth expr := by
  induction expr using Expr.induction with
  | int span value =>
      exact exprFollows_constant (fun _ _ _ => by rw [Expr.generate]) fun _ _ => by rw [eval]; rfl
  | bool span value =>
      exact exprFollows_constant (fun _ _ _ => by rw [Expr.generate]) fun _ _ => by rw [eval]; rfl
  | var span name => exact exprFollows_var span name
  | ifThen span test consequent testIh thenIh =>
      exact exprFollows_ifThen applied span testIh thenIh
  | ifElse span test consequent alternative testIh thenIh elseIh =>
      exact exprFollows_ifElse applied span testIh thenIh elseIh
  | define span name value _ =>
      intro table environment frames after code count older evaluator machine generated
      exact absurd generated Expr.generate_define
  | lambda span self parameters body _ => exact exprFollows_lambda span self parameters body
  | call span callee arguments calleeIh argumentsIh =>
      exact exprFollows_call applied span calleeIh argumentsIh

/-- An entered closure follows the body of its function and returns. -/
theorem Follows.of_body {depth count : Nat} (applied : AppliesAlong (applyWithin depth) depth)
    {older : List Event} {evaluator : Evaluator} {start : Machine} {returnTo entry : Nat}
    {handle : UInt32} {arity : Int} {values captured : List Value} {heap : Heap}
    {events : List Event} {function : Function} {frame : Frame}
    (body : BodyAt start.code evaluator.names function entry frame)
    (equal : values.length = function.parameters.length)
    (bound : frame.captures.map (fun capture => function.environment.lookup? capture.name) =
      captured.map some)
    (agrees : Agrees count older evaluator
      (start.entered returnTo entry handle arity values captured heap events)) :
    Follows (depth + 1 + start.stack.size < start.stackLimit) older evaluator.failures
      (fun value => Arrived start returnTo older evaluator [value]) count
      (start.entered returnTo entry handle arity values captured heap events)
      (enterWithin (depth + 1) handle arity values function evaluator) := by
  obtain @⟨table, outer, after, bodyCode, known, threaded, scopes, generated, fits, placed, -⟩ :=
    body
  have fresh := threaded.cons_fresh function.parameters function.self
  obtain ⟨kept, grown⟩ := Expr.keepsFrames _ function.body fresh generated
  obtain ⟨head, -⟩ := List.forall₂_cons.mp grown
  have situated : Situated table
      (function.scope (.closure handle arity) values :: function.environment)
      (⟨function.parameters, function.self, []⟩ :: outer) (frame :: after) bodyCode evaluator
      (start.entered returnTo entry handle arity values captured heap events) :=
    ⟨known, fresh, .cons (Function.scope_bindsAs rfl rfl equal) scopes,
      .of_entered head kept.1 equal bound, placed.left⟩
  have higher : depth + (start.entered returnTo entry handle arity values captured heap
      events).stack.size < start.stackLimit → depth + 1 + start.stack.size < start.stackLimit := by
    intro room
    simp only [Machine.entered, Machine.advance_stack, Array.size_append, List.size_toArray,
      List.length_map, List.length_append, List.length_cons] at room
    omega
  refine ((exprFollows applied function.body generated fits situated agrees).deepen
    higher).onward ?_
  rintro value made later _ counted ⟨⟨heap, events, rfl⟩, same, reached⟩
  rw [← counted]
  exact .of_ret reached placed.right.instrAt same

/-- The call of a closure follows the application of its function. -/
theorem applyWithin_appliesAlong (depth : Nat) : AppliesAlong (applyWithin depth) depth := by
  induction depth with
  | zero =>
      refine ⟨failures_growth.applyWithin 0, fun agrees decoded fits => ?_⟩
      refine .of_closure agrees decoded fits fun _ _ _ room _ => .tooDeep ?_
      rwa [Nat.zero_add]
  | succ depth ih =>
      refine ⟨failures_growth.applyWithin (depth + 1), fun agrees decoded fits => ?_⟩
      exact .of_closure agrees decoded fits fun body equal bound _ entered =>
        .of_body ih body equal bound entered

end ClosureLisp
