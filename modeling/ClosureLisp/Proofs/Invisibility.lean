import ClosureLisp.Proofs.Agreement
import ClosureLisp.Proofs.Evaluation
import ClosureLisp.Proofs.Sweeping

/-!
# Evaluators with different garbage

Two evaluators that differ only in functions out of reach of their globals evaluate every program
to the same effect, and both give their new functions the same handles. `Evaluator.Alike` is the
relation that every form keeps. Within a form more is kept: wherever the two evaluators agreed, they
still do, which is why the values found so far need not be known to the relation.

A collection keeps the relation whatever it is told to keep, since the globals are among its roots.
So neither the collections between programs nor the rule for those within a program can be observed.
-/

namespace ClosureLisp.Evaluator

/-! ## Two evaluators side by side -/

/-- Two evaluators hold the same functions, or none, wherever some handles lead. -/
def SameFrom (left right : Evaluator) (handles : List UInt32) : Prop :=
  Table.SameFrom Function.handles left.functions right.functions handles

/-- Two evaluators that may differ in the functions out of reach of their globals, and in when they
collect next. -/
structure Alike (left right : Evaluator) : Prop where
  maxDepth : left.maxDepth = right.maxDepth
  globals : left.globals = right.globals
  next : left.next = right.next
  displayed : left.displayed = right.displayed
  failedAt : left.failedAt = right.failedAt
  failures : left.failures = right.failures
  functions : left.SameFrom right (Value.handlesOf (left.globals.map Prod.snd))

/-- Two evaluators have gone on to evaluators that are alike and agree from the values found. They
have lost nothing that they agreed in. -/
structure Onward (left right : Evaluator) (values : List Value)
    (leftLater rightLater : Evaluator) : Prop where
  alike : leftLater.Alike rightLater
  kept : ∀ {handles : List UInt32}, left.SameFrom right handles →
    leftLater.SameFrom rightLater handles
  found : leftLater.SameFrom rightLater (Value.handlesOf values)

/-- Two evaluations end with the same value, as wanted, or they end with the same error and leave
evaluators that are alike. -/
inductive EndAlike {α : Type} (good : α → Evaluator → Evaluator → Prop) :
    EStateM.Result EvalError Evaluator α → EStateM.Result EvalError Evaluator α → Prop where
  | value {value : α} {left right : Evaluator} (reached : good value left right) :
      EndAlike good (.ok value left) (.ok value right)
  | error (error : EvalError) {left right : Evaluator} (alike : left.Alike right) :
      EndAlike good (.error error left) (.error error right)

theorem EndAlike.andThen {α β : Type} {good : α → Evaluator → Evaluator → Prop}
    {better : β → Evaluator → Evaluator → Prop}
    {first second : EStateM.Result EvalError Evaluator α}
    {further other : α → Evaluator → EStateM.Result EvalError Evaluator β}
    (ends : EndAlike good first second)
    (next : ∀ {value left right}, good value left right →
      EndAlike better (further value left) (other value right)) :
    EndAlike better (Evaluator.andThen first further) (Evaluator.andThen second other) := by
  cases ends with
  | value reached => exact next reached
  | error error alike => exact .error error alike

theorem EndAlike.imp {α : Type} {good better : α → Evaluator → Evaluator → Prop}
    {first second : EStateM.Result EvalError Evaluator α} (ends : EndAlike good first second)
    (implied : ∀ {value left right}, good value left right → better value left right) :
    EndAlike better first second := by
  cases ends with
  | value reached => exact .value (implied reached)
  | error error alike => exact .error error alike

section Pairs

variable {left right leftNext rightNext leftLater rightLater : Evaluator}
  {values more : List Value}

theorem SameFrom.subset {handles fewer : List UInt32} (same : left.SameFrom right handles)
    (subset : fewer ⊆ handles) : left.SameFrom right fewer :=
  Table.SameFrom.of_led same fun _ listed => .root (subset listed)

theorem sameFrom_nil (left right : Evaluator) : left.SameFrom right [] :=
  fun _ reached => absurd reached Table.Reaches.not_nil

theorem sameFrom_constant (left right : Evaluator) (constant : Constant) :
    left.SameFrom right (Value.handlesOf [constant.value]) := by
  have none : Value.handlesOf [constant.value] = [] := by cases constant <;> rfl
  rw [none]
  exact sameFrom_nil left right

theorem sameFrom_cons {value : Value} (first : left.SameFrom right (Value.handlesOf [value]))
    (rest : left.SameFrom right (Value.handlesOf values)) :
    left.SameFrom right (Value.handlesOf (value :: values)) := by
  rw [← List.singleton_append, handlesOf_append]
  exact Table.SameFrom.append first rest

namespace Alike

theorem symm (alike : left.Alike right) : right.Alike left where
  maxDepth := alike.maxDepth.symm
  globals := alike.globals.symm
  next := alike.next.symm
  displayed := alike.displayed.symm
  failedAt := alike.failedAt.symm
  failures := alike.failures.symm
  functions := alike.globals ▸ Table.SameFrom.symm alike.functions

/-- A value that leads nowhere is found at once. -/
theorem constant (alike : left.Alike right) (constant : Constant) :
    Onward left right [constant.value] left right :=
  ⟨alike, id, sameFrom_constant left right constant⟩

/-- So is a value from which the evaluators agree. -/
theorem known (alike : left.Alike right) {value : Value}
    (same : left.SameFrom right (Value.handlesOf [value])) :
    Onward left right [value] left right :=
  ⟨alike, id, same⟩

theorem display (alike : left.Alike right) (value : Value) (constant : Constant) :
    Onward left right [constant.value] { left with displayed := value :: left.displayed }
      { right with displayed := value :: right.displayed } where
  alike := { alike with displayed := congrArg (value :: ·) alike.displayed }
  kept := id
  found := sameFrom_constant left right constant

theorem failure (alike : left.Alike right) (place : Position) (constant : Constant) :
    Onward left right [constant.value]
      { left with failures := left.failures + 1, failedAt := place :: left.failedAt }
      { right with failures := right.failures + 1, failedAt := place :: right.failedAt } where
  alike := { alike with
    failedAt := congrArg (place :: ·) alike.failedAt
    failures := congrArg (· + 1) alike.failures }
  kept := id
  found := sameFrom_constant left right constant

/-- The same function made in both gets the same handle. -/
theorem alloc (alike : left.Alike right) (function : Function)
    (same : left.SameFrom right function.handles) (arity : Int) :
    Onward left right [.closure left.next arity] (left.alloc function).2
      (right.alloc function).2 := by
  have stored : ∀ {handles : List UInt32}, left.SameFrom right handles →
      (left.alloc function).2.SameFrom (right.alloc function).2 handles := by
    intro handles agreed
    have inserted := Table.SameFrom.insert agreed left.next same
    rw [SameFrom, Evaluator.alloc, Evaluator.alloc, ← alike.next]
    exact inserted
  constructor
  case alike =>
    exact { alike with
      next := congrArg (· + 1) alike.next
      functions := stored alike.functions }
  case kept => exact stored
  case found =>
    rw [SameFrom, Evaluator.alloc, Evaluator.alloc, ← alike.next]
    exact Table.SameFrom.insert_self left.next same

theorem define (alike : left.Alike right) (name : Name) {value : Value}
    (same : left.SameFrom right (Value.handlesOf [value])) :
    Alike { left with globals := left.globals ++ [(name, value)] }
      { right with globals := right.globals ++ [(name, value)] } := by
  refine { alike with globals := congrArg (· ++ [(name, value)]) alike.globals, functions := ?_ }
  rw [List.map_append, handlesOf_append]
  exact Table.SameFrom.append alike.functions same

/-- A collection drops nothing that the globals or a kept value lead to. -/
theorem collect (alike : left.Alike right) (keep : List Value) :
    (left.collect keep).2.Alike right ∧
      ∀ {handles : List UInt32}, handles ⊆ Value.handlesOf keep →
        left.SameFrom right handles → (left.collect keep).2.SameFrom right handles := by
  have kept : ∀ {handles : List UInt32},
      handles ⊆ Value.handlesOf (left.globals.map Prod.snd ++ keep) →
      left.SameFrom right handles → (left.collect keep).2.SameFrom right handles := by
    intro handles listed agreed
    have still : left.SameFrom (left.collect keep).2 handles :=
      SameFrom.subset (Table.SameFrom.kept left.functions _) listed
    exact Table.SameFrom.trans (Table.SameFrom.symm still) agreed
  rw [handlesOf_append] at kept
  constructor
  · exact { alike with functions := kept (List.subset_append_left _ _) alike.functions }
  · intro handles listed
    exact kept (List.subset_append_of_subset_right _ listed)

end Alike

/-- What has gone on from where others had gone on to has gone on from those. -/
theorem Onward.trans (first : Onward left right values leftNext rightNext)
    (second : Onward leftNext rightNext more leftLater rightLater) :
    Onward left right more leftLater rightLater :=
  ⟨second.alike, fun agreed => second.kept (first.kept agreed), second.found⟩

theorem EndAlike.behind {α : Type} {held : α → List Value}
    {one other : EStateM.Result EvalError Evaluator α}
    (first : Onward left right values leftNext rightNext)
    (ends : EndAlike (fun value => Onward leftNext rightNext (held value)) one other) :
    EndAlike (fun value => Onward left right (held value)) one other :=
  ends.imp first.trans

end Pairs

/-! ## Expressions -/

/-- An application goes on alike in evaluators that agree from the function and the arguments. -/
def ApplyAlike (apply : Apply) : Prop :=
  ∀ ⦃left right : Evaluator⦄ ⦃handle : UInt32⦄ ⦃arity : Int⦄ ⦃arguments : List Value⦄,
    left.Alike right → left.SameFrom right [handle] →
    left.SameFrom right (Value.handlesOf arguments) →
    EndAlike (fun value => Onward left right [value]) (apply handle arity arguments left)
      (apply handle arity arguments right)

/-- An expression goes on alike in evaluators that agree from its environment. -/
def ExprAlike (apply : Apply) (expr : Expr) : Prop :=
  ∀ ⦃environment : Environment⦄ ⦃left right : Evaluator⦄, left.Alike right →
    left.SameFrom right environment.handles →
    EndAlike (fun value => Onward left right [value]) (eval apply environment expr left)
      (eval apply environment expr right)

section Expressions

variable {apply : Apply} {environment : Environment} {left right : Evaluator}

theorem lookup_alike (alike : left.Alike right) (same : left.SameFrom right environment.handles)
    (place : Position) (name : Name) :
    EndAlike (fun value => Onward left right [value]) (lookup environment place name left)
      (lookup environment place name right) := by
  unfold lookup
  rw [← alike.globals]
  split
  · next value looked =>
      refine .value (alike.known (same.subset fun handle listed => ?_))
      obtain ⟨arity, held⟩ := Value.mem_handlesOf.mp listed
      obtain rfl := List.mem_singleton.mp held
      exact Environment.mem_handles_of_lookup? looked
  · split
    · next value looked =>
        refine .value (alike.known (alike.functions.subset fun handle listed => ?_))
        obtain ⟨arity, held⟩ := Value.mem_handlesOf.mp listed
        obtain rfl := List.mem_singleton.mp held
        obtain ⟨first, last, split, -⟩ := List.lookup_eq_some_iff.mp looked
        rw [split, List.map_append]
        exact Value.mem_handlesOf.mpr ⟨arity, List.mem_append_right _ List.mem_cons_self⟩
    · exact .error _ alike

theorem makeFunction_alike (alike : left.Alike right)
    (same : left.SameFrom right environment.handles) (place : Position) (self : Option Name)
    (parameters : List Name) (body : Expr) :
    EndAlike (fun value => Onward left right [value])
      (makeFunction environment place self parameters body left)
      (makeFunction environment place self parameters body right) := by
  unfold makeFunction
  split
  · exact .error _ alike
  · have made := alike.alloc ⟨self, parameters, body, environment⟩ same parameters.length
    have numbered : (right.alloc ⟨self, parameters, body, environment⟩).1 = left.next :=
      alike.next.symm
    dsimp only
    rw [numbered]
    exact .value made

theorem callBuiltin_alike (alike : left.Alike right) (place : Position) (name : Name)
    (arguments : List Value) :
    EndAlike (fun value => Onward left right [value]) (callBuiltin place name arguments left)
      (callBuiltin place name arguments right) := by
  rcases callBuiltin_cases place name arguments with ⟨condition, -, -, called⟩ | ⟨-, called⟩
  · rw [called]
    cases condition with
    | bool flag =>
        cases flag with
        | true => exact .value (alike.constant .nil)
        | false => exact .value (alike.failure place .nil)
    | _ => exact .error _ alike
  · rw [called]
    unfold applyPrimitive
    cases applied : Primitive.applyNamed name arguments with
    | error cause => exact .error _ alike
    | ok yielded =>
        obtain ⟨result, shown⟩ := yielded
        obtain ⟨constant, rfl⟩ := Primitive.applyNamed_ok applied
        cases shown with
        | none => exact .value (alike.constant constant)
        | some value => exact .value (alike.display value constant)

theorem evalAll_alike {exprs : List Expr} (each : ∀ expr ∈ exprs, ExprAlike apply expr)
    (alike : left.Alike right) (same : left.SameFrom right environment.handles) :
    EndAlike (Onward left right) (evalAll apply environment exprs left)
      (evalAll apply environment exprs right) := by
  induction exprs generalizing left right with
  | nil => exact .value ⟨alike, id, sameFrom_nil left right⟩
  | cons expr rest ih =>
      obtain ⟨head, tail⟩ := List.forall_mem_cons.mp each
      rw [evalAll_cons, evalAll_cons]
      refine (head alike same).andThen fun first => ?_
      refine (ih tail first.alike (first.kept same)).andThen fun second => .value ?_
      have both := first.trans second
      exact ⟨both.alike, both.kept, sameFrom_cons (second.kept first.found) second.found⟩

/-- A conditional goes on alike if its branches do. -/
theorem choose_alike {consequent alternative : Action Value} (alike : left.Alike right)
    (test : Value)
    (whenTrue : EndAlike (fun value => Onward left right [value]) (consequent left)
      (consequent right))
    (whenFalse : EndAlike (fun value => Onward left right [value]) (alternative left)
      (alternative right)) :
    EndAlike (fun value => Onward left right [value]) (choose consequent alternative test left)
      (choose consequent alternative test right) := by
  cases test with
  | bool flag =>
      cases flag with
      | true => exact whenTrue
      | false => exact whenFalse
  | _ => exact .error _ alike

theorem applyValue_alike (applied : ApplyAlike apply) (place : Position) {arguments : List Value}
    {callee : Value} (alike : left.Alike right)
    (supplied : left.SameFrom right (Value.handlesOf arguments))
    (same : left.SameFrom right (Value.handlesOf [callee])) :
    EndAlike (fun value => Onward left right [value]) (applyValue apply place arguments callee left)
      (applyValue apply place arguments callee right) := by
  cases callee with
  | builtin name arity => exact callBuiltin_alike alike place name arguments
  | closure handle arity => exact applied alike same supplied
  | nil | int | bool => exact .error _ alike

/-- Whatever an expression does, it does alike in both evaluators. -/
theorem exprAlike (applied : ApplyAlike apply) (expr : Expr) : ExprAlike apply expr := by
  induction expr using Expr.induction with
  | int span value =>
      intro environment left right alike same
      rw [eval]
      exact .value (alike.constant (.int value))
  | bool span value =>
      intro environment left right alike same
      rw [eval]
      exact .value (alike.constant (.bool value))
  | var span name =>
      intro environment left right alike same
      rw [eval]
      exact lookup_alike alike same span.start name
  | define span name value _ =>
      intro environment left right alike same
      rw [eval]
      exact .error _ alike
  | lambda span self parameters body _ =>
      intro environment left right alike same
      rw [eval]
      exact makeFunction_alike alike same span.start self parameters body
  | ifThen span test consequent testIh thenIh =>
      intro environment left right alike same
      rw [eval_ifThen, eval_ifThen]
      refine (testIh alike same).andThen fun {value _ _} first => ?_
      refine EndAlike.behind first (choose_alike first.alike value ?_ ?_)
      · exact thenIh first.alike (first.kept same)
      · exact .value (first.alike.constant .nil)
  | ifElse span test consequent alternative testIh thenIh elseIh =>
      intro environment left right alike same
      rw [eval_ifElse, eval_ifElse]
      refine (testIh alike same).andThen fun {value _ _} first => ?_
      refine EndAlike.behind first (choose_alike first.alike value ?_ ?_)
      · exact thenIh first.alike (first.kept same)
      · exact elseIh first.alike (first.kept same)
  | call span callee arguments calleeIh argumentsIh =>
      intro environment left right alike same
      rw [eval_call, eval_call]
      refine (evalAll_alike argumentsIh alike same).andThen fun first => EndAlike.behind first ?_
      refine (calleeIh first.alike (first.kept same)).andThen fun second => ?_
      refine EndAlike.behind second ?_
      exact applyValue_alike applied span.start second.alike (second.kept first.found) second.found

theorem enterWithin_alike {depth : Nat}
    (applied : ∀ fewer < depth, ApplyAlike (applyWithin fewer)) {handle : UInt32}
    {arity : Int} {arguments : List Value} {function : Function} (alike : left.Alike right)
    (same : left.SameFrom right [handle])
    (supplied : left.SameFrom right (Value.handlesOf arguments))
    (stored : left.functions[handle]? = some function) :
    EndAlike (fun value => Onward left right [value])
      (enterWithin depth handle arity arguments function left)
      (enterWithin depth handle arity arguments function right) := by
  unfold enterWithin
  cases depth with
  | zero =>
      dsimp only
      rw [alike.maxDepth]
      exact .error _ alike
  | succ depth =>
      refine exprAlike (applied depth (Nat.lt_succ_self depth)) function.body alike ?_
      have referred : left.SameFrom right function.handles :=
        Table.SameFrom.references_of same stored
      refine SameFrom.subset (Table.SameFrom.append supplied (same.append referred)) ?_
      intro other listed
      rcases Function.mem_handles_enter listed with argument | rfl | outside
      · exact List.mem_append_left _ argument
      · exact List.mem_append_right _ List.mem_cons_self
      · exact List.mem_append_right _ (List.mem_append_right _ outside)

theorem applyWithin_of_missing {depth : Nat} {handle : UInt32} {arity : Int}
    {arguments : List Value} {evaluator : Evaluator}
    (missing : evaluator.functions[handle]? = none) :
    applyWithin depth handle arity arguments evaluator =
      .error (.fault (.unknownHandle handle)) evaluator := by
  unfold applyWithin
  rw [missing]
  rfl

/-- Both evaluators have the function that is called, or none has; its environment is in reach. -/
theorem applyWithin_alike (depth : Nat) : ApplyAlike (applyWithin depth) := by
  -- on the calls that may still be nested; the body of the function is walked inside each step
  induction depth using Nat.strongRecOn with
  | ind depth ih =>
      intro left right handle arity arguments alike same supplied
      have shared := same handle (.root List.mem_cons_self)
      cases stored : left.functions[handle]? with
      | none =>
          rw [applyWithin_of_missing stored, applyWithin_of_missing (shared ▸ stored)]
          exact .error _ alike
      | some function =>
          rw [applyWithin_of_getElem? stored, applyWithin_of_getElem? (shared ▸ stored)]
          split
          · exact .error _ alike
          · exact enterWithin_alike ih alike same supplied stored

end Expressions

/-! ## Programs -/

section Programs

variable {left right : Evaluator} {result : Value}

theorem evalTop_alike (alike : left.Alike right) (expr : Expr) :
    EndAlike (fun value => Onward left right [value]) (evalTop expr left) (evalTop expr right) := by
  unfold evalTop
  rw [← alike.maxDepth]
  exact exprAlike (applyWithin_alike left.maxDepth) expr alike (sameFrom_nil left right)

theorem evalForm_alike (alike : left.Alike right)
    (same : left.SameFrom right (Value.handlesOf [result])) (expr : Expr) :
    EndAlike (fun value => Onward left right [value]) (evalForm result expr left)
      (evalForm result expr right) := by
  cases expr with
  | define span name value =>
      cases fresh : left.globals.lookup name with
      | some known =>
          delta evalForm
          dsimp only
          rw [← alike.globals, fresh]
          exact .error _ alike
      | none =>
          rw [evalForm_define fresh, evalForm_define (alike.globals ▸ fresh)]
          refine (evalTop_alike alike value).andThen fun {found _ _} onward => .value ?_
          exact ⟨onward.alike.define name onward.found, onward.kept, onward.kept same⟩
  | _ => exact evalTop_alike alike _

/-- Evaluates top-level expressions in order, with a collection after each of them for which a
rule says so. -/
def evalFormsWhen (due : Evaluator → Bool) (result : Value) : List Expr → Action Value
  | [] => pure result
  | expr :: rest => fun evaluator =>
      andThen (evalForm result expr evaluator) fun result next =>
        evalFormsWhen due result rest (if due next then (next.collect [result]).2 else next)

/-- Evaluates a program with a rule for its collections. -/
def evalProgramWhen (due : Evaluator → Bool) (exprs : List Expr) : Action Value :=
  evalFormsWhen due .nil exprs

/-- The rule of the evaluator: there are as many functions as it waits for. -/
def collectionDue (evaluator : Evaluator) : Bool :=
  evaluator.nextCollection ≤ evaluator.functions.size

theorem evalFormsWhen_collectionDue (result : Value) (exprs : List Expr) :
    evalFormsWhen collectionDue result exprs = evalForms result exprs := by
  induction exprs generalizing result with
  | nil => rfl
  | cons expr rest ih =>
      funext evaluator
      rw [evalForms_cons]
      refine congrArg (andThen _) (funext fun value => funext fun next => ?_)
      rw [ih, collectIfNeeded]
      simp only [collectionDue, decide_eq_true_eq]

theorem evalProgramWhen_collectionDue : evalProgramWhen collectionDue = evalProgram :=
  funext (evalFormsWhen_collectionDue .nil)

/-- A collection that keeps the result, or none, keeps evaluators alike. -/
theorem Alike.collectWhen (alike : left.Alike right)
    (same : left.SameFrom right (Value.handlesOf [result])) (due : Bool) :
    (if due then (left.collect [result]).2 else left).Alike right ∧
      (if due then (left.collect [result]).2 else left).SameFrom right
        (Value.handlesOf [result]) := by
  cases due with
  | true => exact (alike.collect [result]).imp_right fun kept => kept (List.Subset.refl _) same
  | false => exact ⟨alike, same⟩

theorem evalFormsWhen_alike (first second : Evaluator → Bool) (exprs : List Expr)
    (alike : left.Alike right) (same : left.SameFrom right (Value.handlesOf [result])) :
    EndAlike (fun _ => Alike) (evalFormsWhen first result exprs left)
      (evalFormsWhen second result exprs right) := by
  induction exprs generalizing left right result with
  | nil => exact .value alike
  | cons expr rest ih =>
      rw [evalFormsWhen, evalFormsWhen]
      refine (evalForm_alike alike same expr).andThen fun {value _ _} onward => ?_
      -- the left evaluator collects by its rule, then the right one by its own
      obtain ⟨collected, known⟩ := onward.alike.collectWhen onward.found (first _)
      obtain ⟨both, found⟩ :=
        collected.symm.collectWhen (Table.SameFrom.symm known) (second _)
      exact ih both.symm (Table.SameFrom.symm found)

end Programs

/-! ## What is observed -/

/-- What can be asked of an evaluator from outside. -/
inductive Call where
  | eval (program : List Expr)
  | collect (keep : List Value)

/-- Whether a call evaluates a program. -/
def Call.isEval : Call → Bool
  | .eval _ => true
  | .collect _ => false

/-- What is seen of the evaluation of a program: its value or error, and all that has been
displayed, reported and counted so far. -/
structure Observation where
  outcome : Except EvalError Value
  output : Bytes
  diagnostics : Bytes
  failures : Nat
  deriving DecidableEq

/-- What is seen of an evaluation that has ended. -/
def Observation.of : EStateM.Result EvalError Evaluator Value → Observation
  | .ok value evaluator =>
      ⟨.ok value, evaluator.outputText, evaluator.diagnosticText, evaluator.failures⟩
  | .error error evaluator =>
      ⟨.error error, evaluator.outputText, evaluator.diagnosticText, evaluator.failures⟩

/-- What is seen of calls in a row, with programs evaluated in a given way. -/
def observe (evaluate : List Expr → Action Value) : List Call → Evaluator → List Observation
  | [], _ => []
  | .eval program :: rest, evaluator =>
      .of (evaluate program evaluator) ::
        observe evaluate rest (after (evaluate program evaluator))
  | .collect keep :: rest, evaluator => observe evaluate rest (evaluator.collect keep).2

theorem EndAlike.observed {first second : EStateM.Result EvalError Evaluator Value}
    (ends : EndAlike (fun _ => Alike) first second) :
    Observation.of first = .of second ∧ (after first).Alike (after second) := by
  have texts : ∀ {left right : Evaluator}, left.Alike right →
      left.outputText = right.outputText ∧ left.diagnosticText = right.diagnosticText := by
    intro left right alike
    rw [outputText, outputText, alike.displayed, diagnosticText, diagnosticText, alike.failedAt]
    exact ⟨rfl, rfl⟩
  cases ends with
  | value alike | error error alike =>
      obtain ⟨output, diagnostics⟩ := texts alike
      refine ⟨?_, alike⟩
      rw [Observation.of, Observation.of, output, diagnostics, alike.failures]

/-- The same is seen without the collections between programs and with another rule for those
within a program. -/
theorem Alike.observe_eq (first second : Evaluator → Bool) {left right : Evaluator}
    (alike : left.Alike right) (calls : List Call) :
    observe (evalProgramWhen first) calls left =
      observe (evalProgramWhen second) (calls.filter Call.isEval) right := by
  induction calls generalizing left right with
  | nil => rfl
  | cons call rest ih =>
      cases call with
      | eval program =>
          have same : left.SameFrom right (Value.handlesOf [.nil]) :=
            sameFrom_constant left right .nil
          obtain ⟨seen, later⟩ := (evalFormsWhen_alike first second program alike same).observed
          rw [List.filter_cons_of_pos rfl, observe, observe]
          exact congrArg₂ _ seen (ih later)
      | collect keep =>
          rw [List.filter_cons_of_neg Bool.false_ne_true, observe]
          exact ih (alike.collect keep).1

/-! ## Collections -/

/-- A collection that keeps some values ends with this number of dropped functions and this
evaluator, and both are exact. -/
structure ExactCollection (evaluator : Evaluator) (keep : List Value) (dropped : Nat)
    (later : Evaluator) : Prop where
  /-- Exactly the functions in reach are kept, with nothing changed in them. -/
  stored : ∀ (handle : UInt32) (function : Function),
    later.functions[handle]? = some function ↔
      evaluator.functions[handle]? = some function ∧
        ∃ arity, InReach evaluator keep (.closure handle arity)
  counted : dropped + later.functions.size = evaluator.functions.size
  /-- The same are kept if every shared scope is gone through once, in whatever order the roots
  are taken. -/
  marked : ∀ {Node : Type} [DecidableEq Node] (sharing : Sharing Node evaluator.functions)
    {roots : List Value}, roots.Perm (evaluator.globals.map Prod.snd ++ keep) →
    ∀ handle : UInt32,
      (evaluator.functions.without (mark sharing.chain evaluator.functions [] roots))[handle]? =
        later.functions[handle]?
  rest : later =
    { evaluator with functions := later.functions, nextCollection := later.nextCollection }

theorem collect_exact (evaluator : Evaluator) (keep : List Value) :
    evaluator.ExactCollection keep (evaluator.collect keep).1 (evaluator.collect keep).2 where
  stored handle function := by
    rw [getElem?_collect_iff, reaches_iff_inReach]
  counted := (Nat.add_comm _ _).trans (Table.size_kept_add _ _ _)
  marked sharing _ ordered handle := sharing.getElem?_without_mark ordered handle
  rest := rfl

/-- Every collection of an evaluator is exact, and none can be observed: not those that are asked
for between programs, whatever they keep, and not those within a program, whatever the rule for
them. -/
theorem collections_exact_and_invisible (evaluator : Evaluator) :
    (∀ keep : List Value,
      evaluator.ExactCollection keep (evaluator.collect keep).1 (evaluator.collect keep).2) ∧
    ∀ calls : List Call,
      observe evalProgram calls evaluator =
          observe evalProgram (calls.filter Call.isEval) evaluator ∧
        ∀ due : Evaluator → Bool,
          observe evalProgram calls evaluator =
            observe (evalProgramWhen due) (calls.filter Call.isEval) evaluator := by
  have alike : evaluator.Alike evaluator := ⟨rfl, rfl, rfl, rfl, rfl, rfl, fun _ _ => rfl⟩
  rw [← evalProgramWhen_collectionDue]
  constructor
  · exact evaluator.collect_exact
  · intro calls
    constructor
    · exact alike.observe_eq _ _ calls
    · intro due
      exact alike.observe_eq _ due calls

/-- Defines a function whose scope lies inside that of another one. Two more functions are made for
that, and nothing leads to them in the end. -/
def nestedProgram : List Expr :=
  [.define default [100] (.call default
    (.lambda default none [[102]] (.call default
      (.lambda default none [[103]] (.lambda default none [] (.var default [103])))
      [.lambda default none [] (.var default [102])]))
    [.lambda default none [] (.int default 1)])]

/-- The evaluator behind `nestedProgram`. -/
def nested : Evaluator :=
  after (evalProgram nestedProgram (Evaluator.new 0))

theorem collections_exact_and_invisible_nested :
    nested.functions.size = 5 ∧
      ∀ handle : UInt32,
        (nested.functions.without (mark (Sharing.byContents nested.functions).chain
            nested.functions [] (.closure 3 1 :: nested.globals.map Prod.snd)))[handle]? =
          (nested.collect [.closure 3 1]).2.functions[handle]? := by
  refine ⟨by decide +kernel, fun handle => ?_⟩
  have whole := (collections_exact_and_invisible nested).1 [.closure 3 1]
  exact whole.marked (Sharing.byContents nested.functions) List.perm_append_comm handle

end ClosureLisp.Evaluator
