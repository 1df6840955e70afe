import ClosureLisp.Proofs.Pairing
import ClosureLisp.Session

/-!
# What a failed input leaves behind

An interpreting session has no mark to go back to: an input that fails keeps what its forms before
the failing one have defined. If none of them defines anything, the input may still have made
functions, so that later ones get other handles, but nothing else can be told apart, unless the
handles run out.
-/

namespace ClosureLisp.Evaluator

/-! ## Inputs in a row -/

/-- The answer to an input: its value or its error, the values that it displayed and the places of
the assertions that failed, with the latest first. -/
structure Answer where
  outcome : Except EvalError Value
  displayed : List Value
  failedAt : List Position
  deriving DecidableEq

/-- The answer that an evaluation gives. -/
def Answer.of : EStateM.Result EvalError Evaluator Value → Answer
  | .ok value evaluator => ⟨.ok value, evaluator.displayed, evaluator.failedAt⟩
  | .error error evaluator => ⟨.error error, evaluator.displayed, evaluator.failedAt⟩

/-- An answer without the handles in it. -/
def Answer.anonymous (answer : Answer) : Answer where
  outcome := answer.outcome.map Value.anonymous
  displayed := answer.displayed.map Value.anonymous
  failedAt := answer.failedAt

/-- The evaluator behind an input, which takes its output along. -/
def enter (evaluate : Bytes → Action Value) (evaluator : Evaluator) (input : Bytes) : Evaluator :=
  (after (evaluate input evaluator)).clearOutput

/-- The evaluator behind inputs in a row, starting from a new one. -/
def entered (evaluate : Bytes → Action Value) (maxDepth : Int) (inputs : List Bytes) : Evaluator :=
  inputs.foldl (enter evaluate) (Evaluator.new maxDepth)

/-- The answers to inputs in a row. -/
def answers (evaluate : Bytes → Action Value) : List Bytes → Evaluator → List Answer
  | [], _ => []
  | input :: rest, evaluator =>
      .of (evaluate input evaluator) :: answers evaluate rest (enter evaluate evaluator input)

/-- Reads and evaluates a text with a rule for collections. -/
def evalTextWhen (due : Evaluator → Bool) (text : Bytes) : Action Value :=
  match Reader.parse text with
  | .error error => throw (.source error)
  | .ok exprs => evalProgramWhen due exprs

/-- There are more handles than the inputs make functions: even an evaluator that never collects
has one left behind them. -/
def HandlesSuffice (maxDepth : Int) (inputs : List Bytes) : Prop :=
  ∃ handle : UInt32, handle ∉ (entered (evalTextWhen neverDue) maxDepth inputs).functions

theorem evalTextWhen_collectionDue : evalTextWhen collectionDue = evalText := by
  funext text
  unfold evalTextWhen evalText
  cases Reader.parse text with
  | error error => rfl
  | ok exprs => exact congrFun evalProgramWhen_collectionDue exprs

/-! ## Never collecting -/

section Collections

variable {left right : Evaluator}

theorem evalText_alike (alike : left.Alike right) (input : Bytes) :
    EndAlike (fun _ => Alike) (evalText input left) (evalTextWhen neverDue input right) := by
  rw [← evalTextWhen_collectionDue]
  unfold evalTextWhen
  cases Reader.parse input with
  | error error => exact .error _ alike
  | ok exprs =>
      exact evalFormsWhen_alike collectionDue neverDue exprs alike
        (sameFrom_constant left right .nil)

theorem EndAlike.answered {first second : EStateM.Result EvalError Evaluator Value}
    (ends : EndAlike (fun _ => Alike) first second) :
    Answer.of first = .of second ∧ (after first).Alike (after second) := by
  cases ends with
  | value alike | error error alike =>
      refine ⟨?_, alike⟩
      rw [Answer.of, Answer.of, alike.displayed, alike.failedAt]

theorem Alike.clearOutput (alike : left.Alike right) : left.clearOutput.Alike right.clearOutput :=
  { alike with displayed := rfl, failedAt := rfl }

theorem Alike.enter (alike : left.Alike right) (input : Bytes) :
    (left.enter evalText input).Alike (right.enter (evalTextWhen neverDue) input) :=
  (evalText_alike alike input).answered.2.clearOutput

/-- The evaluator that collects cannot be told from the one that never does. -/
theorem entered_alike (maxDepth : Int) (inputs : List Bytes) :
    (entered evalText maxDepth inputs).Alike (entered (evalTextWhen neverDue) maxDepth inputs) := by
  have step : ∀ {left right : Evaluator}, left.Alike right →
      (inputs.foldl (enter evalText) left).Alike
        (inputs.foldl (enter (evalTextWhen neverDue)) right) := by
    induction inputs with
    | nil => exact id
    | cons input rest ih => exact fun alike => ih (alike.enter input)
  exact step ⟨rfl, rfl, rfl, rfl, rfl, rfl, fun _ _ => rfl⟩

theorem Alike.answers_eq (alike : left.Alike right) (inputs : List Bytes) :
    answers evalText inputs left = answers (evalTextWhen neverDue) inputs right := by
  induction inputs generalizing left right with
  | nil => rfl
  | cons input rest ih =>
      exact congrArg₂ List.cons (evalText_alike alike input).answered.1 (ih (alike.enter input))

end Collections

/-! ## Paired evaluators -/

section Pairs

variable {pairing : Pairing} {left right : Evaluator}

theorem evalTextWhen_grown (input : Bytes) (evaluator : Evaluator) :
    Grown evaluator (after (evalTextWhen neverDue input evaluator)) := by
  unfold evalTextWhen
  cases Reader.parse input with
  | error error => exact grown_growth.refl evaluator
  | ok exprs => exact evalFormsWhen_grown .nil exprs evaluator

theorem enter_grown (evaluator : Evaluator) (input : Bytes) :
    Grown evaluator (evaluator.enter (evalTextWhen neverDue) input) :=
  grown_growth.trans (evalTextWhen_grown input evaluator) (grown_of_eq rfl rfl rfl)

theorem foldl_enter_grown (inputs : List Bytes) (evaluator : Evaluator) :
    Grown evaluator (inputs.foldl (enter (evalTextWhen neverDue)) evaluator) := by
  induction inputs generalizing evaluator with
  | nil => exact grown_growth.refl evaluator
  | cons input rest ih => exact grown_growth.trans (enter_grown evaluator input) (ih _)

theorem evalTextWhen_paired (paired : left.Paired pairing right) (input : Bytes) :
    EndPaired Value.Paired pairing (evalTextWhen neverDue input left)
      (evalTextWhen neverDue input right) := by
  unfold evalTextWhen
  cases Reader.parse input with
  | error error => exact .stop paired _
  | ok exprs => exact evalFormsWhen_paired paired (.plain rfl) exprs

theorem Paired.clearOutput (paired : left.Paired pairing right) :
    left.clearOutput.Paired pairing right.clearOutput :=
  { paired with displayed := rfl, failedAt := rfl }

theorem EndPaired.answered {first second : EStateM.Result EvalError Evaluator Value}
    (ends : EndPaired Value.Paired pairing first second) :
    (after first).Full ∨
      (Answer.of first).anonymous = (Answer.of second).anonymous ∧
        ∃ wider, (after first).Paired wider (after second) := by
  cases ends with
  | @value wider value twin _ _ _ held later =>
      refine .inr ⟨?_, wider, later⟩
      have found : (Except.ok value : Except EvalError Value).map Value.anonymous =
          (Except.ok twin).map Value.anonymous := congrArg Except.ok held.anonymous_eq
      rw [Answer.anonymous, Answer.anonymous, Answer.of, Answer.of, found, later.displayed,
        later.failedAt]
  | @error wider _ _ error _ later =>
      refine .inr ⟨?_, wider, later⟩
      rw [Answer.anonymous, Answer.anonymous, Answer.of, Answer.of, later.displayed,
        later.failedAt]
  | exhausted taken => exact .inl taken

/-- Paired evaluators stay paired as long as there are handles. -/
theorem Paired.foldl_enter (paired : left.Paired pairing right) (inputs : List Bytes) :
    (inputs.foldl (enter (evalTextWhen neverDue)) left).Full ∨
      ∃ wider, (inputs.foldl (enter (evalTextWhen neverDue)) left).Paired wider
        (inputs.foldl (enter (evalTextWhen neverDue)) right) := by
  induction inputs generalizing pairing left right with
  | nil => exact .inr ⟨pairing, paired⟩
  | cons input rest ih =>
      rcases (evalTextWhen_paired paired input).answered with taken | ⟨-, wider, later⟩
      · exact .inl ((foldl_enter_grown rest _).full taken)
      · exact ih later.clearOutput

/-- Paired evaluators give the same answers but for handles as long as there are handles. -/
theorem Paired.answers_cases (paired : left.Paired pairing right) (inputs : List Bytes) :
    (inputs.foldl (enter (evalTextWhen neverDue)) left).Full ∨
      (answers (evalTextWhen neverDue) inputs left).map Answer.anonymous =
        (answers (evalTextWhen neverDue) inputs right).map Answer.anonymous := by
  induction inputs generalizing pairing left right with
  | nil => exact .inr rfl
  | cons input rest ih =>
      rcases (evalTextWhen_paired paired input).answered with taken | ⟨same, wider, later⟩
      · exact .inl ((foldl_enter_grown rest _).full taken)
      · exact (ih later.clearOutput).imp_right (congrArg₂ List.cons same)

theorem paired_new (maxDepth : Int) :
    (Evaluator.new maxDepth).Paired (fun _ _ => False) (Evaluator.new maxDepth) := by
  have plain : ∀ binding ∈ predefinedNames.zip predefinedValues, binding.2.handle? = none := by
    decide +kernel
  have numbered : (Evaluator.new maxDepth).Numbered := fun handle =>
    iff_of_false Std.TreeMap.not_mem_emptyc UInt32.not_lt_zero
  constructor
  case globals =>
    exact List.forall₂_same.mpr fun binding listed => ⟨rfl, .plain (plain binding listed)⟩
  case leftNumbered | rightNumbered => exact numbered
  case functions => exact fun impossible => impossible.elim
  case further => exact UInt32.le_refl _
  all_goals rfl

/-- An evaluator is paired with itself as long as there are handles. -/
theorem entered_paired (maxDepth : Int) (inputs : List Bytes) :
    (entered (evalTextWhen neverDue) maxDepth inputs).Full ∨
      ∃ pairing, (entered (evalTextWhen neverDue) maxDepth inputs).Paired pairing
        (entered (evalTextWhen neverDue) maxDepth inputs) :=
  (paired_new maxDepth).foldl_enter inputs

end Pairs

/-! ## Completed forms -/

/-- The forms of a program that are evaluated without an error. -/
def completedFrom (result : Value) : List Expr → Evaluator → List Expr
  | [], _ => []
  | expr :: rest, evaluator =>
      match evalForm result expr evaluator with
      | .error _ _ => []
      | .ok result next => expr :: completedFrom result rest (next.collectIfNeeded result)

/-- The forms of an input that are evaluated without an error: all that come before the one that
fails. -/
def completed (input : Bytes) (evaluator : Evaluator) : List Expr :=
  match Reader.parse input with
  | .error _ => []
  | .ok exprs => completedFrom .nil exprs evaluator

/-- The name that a form defines, if it is a define. -/
def definedName? : Expr → Option Name
  | .define _ name _ => some name
  | _ => none

/-- The names that forms define. -/
def definedNames (exprs : List Expr) : List Name :=
  exprs.filterMap definedName?

/-- Globals are added to others under given names. -/
def Adds (evaluator later : Evaluator) (names : List Name) : Prop :=
  ∃ added, later.globals = evaluator.globals ++ added ∧ added.map Prod.fst = names

section Completed

variable {evaluator next later : Evaluator} {names more : List Name}

theorem adds_of_eq (same : later.globals = evaluator.globals) : evaluator.Adds later [] :=
  ⟨[], by rw [same, List.append_nil], rfl⟩

theorem Adds.trans (first : evaluator.Adds next names) (second : next.Adds later more) :
    evaluator.Adds later (names ++ more) := by
  obtain ⟨added, globals, rfl⟩ := first
  obtain ⟨addedLater, globalsLater, rfl⟩ := second
  exact ⟨added ++ addedLater, by rw [globalsLater, globals, List.append_assoc],
    List.map_append⟩

theorem Adds.globals_eq_iff (adds : evaluator.Adds later names) :
    later.globals = evaluator.globals ↔ names = [] := by
  obtain ⟨added, globals, rfl⟩ := adds
  rw [globals, List.append_right_eq_self, List.map_eq_nil_iff]

theorem globals_evalTop (expr : Expr) (evaluator : Evaluator) :
    (after (evalTop expr evaluator)).globals = evaluator.globals :=
  congrArg Prod.fst (setting_growth.evalTop expr evaluator)

theorem evalForm_of_plain {expr : Expr} (plain : definedName? expr = none) (result : Value) :
    evalForm result expr = evalTop expr := by
  cases expr with
  | define span name value => cases plain
  | _ => rfl

theorem exists_of_definedName? {expr : Expr} {name : Name} (named : definedName? expr = some name) :
    ∃ span value, expr = .define span name value := by
  cases expr with
  | define span other value =>
      cases named
      exact ⟨span, value, rfl⟩
  | _ => cases named

/-- The forms that an evaluation of one form completes. -/
def completedBy (expr : Expr) : EStateM.Result EvalError Evaluator Value → List Expr
  | .ok _ _ => [expr]
  | .error _ _ => []

/-- A define that is completed adds its name, and nothing else adds any. -/
theorem adds_evalForm (result : Value) (expr : Expr) (evaluator : Evaluator) :
    evaluator.Adds (after (evalForm result expr evaluator))
      (definedNames (completedBy expr (evalForm result expr evaluator))) := by
  cases named : definedName? expr with
  | none =>
      have none : definedNames [expr] = [] := by rw [definedNames, List.filterMap_cons, named]; rfl
      have kept := globals_evalTop expr evaluator
      rw [evalForm_of_plain named]
      cases found : evalTop expr evaluator with
      | ok value next =>
          rw [found] at kept
          rw [completedBy, none]
          exact adds_of_eq kept
      | error error next =>
          rw [found] at kept
          exact adds_of_eq kept
  | some name =>
      obtain ⟨span, defined, rfl⟩ := exists_of_definedName? named
      have kept := globals_evalTop defined evaluator
      cases fresh : evaluator.globals.lookup name with
      | none =>
          rw [evalForm_define fresh]
          cases found : evalTop defined evaluator with
          | ok bound next =>
              rw [found] at kept
              exact ⟨[(name, bound)], congrArg (· ++ [(name, bound)]) kept, rfl⟩
          | error error next =>
              rw [found] at kept
              exact adds_of_eq kept
      | some known =>
          delta evalForm
          dsimp only
          rw [fresh]
          exact adds_of_eq rfl

theorem globals_collectIfNeeded (evaluator : Evaluator) (result : Value) :
    (evaluator.collectIfNeeded result).globals = evaluator.globals := by
  unfold collectIfNeeded
  split <;> rfl

theorem definedNames_cons (expr : Expr) (exprs : List Expr) :
    definedNames (expr :: exprs) = definedNames [expr] ++ definedNames exprs :=
  List.filterMap_append (l := [expr])

theorem adds_evalForms (result : Value) (exprs : List Expr) (evaluator : Evaluator) :
    evaluator.Adds (after (evalForms result exprs evaluator))
      (definedNames (completedFrom result exprs evaluator)) := by
  induction exprs generalizing result evaluator with
  | nil => exact adds_of_eq rfl
  | cons expr rest ih =>
      have first := adds_evalForm result expr evaluator
      rw [evalForms_cons, completedFrom]
      cases found : evalForm result expr evaluator with
      | error error next =>
          rw [found] at first
          exact first
      | ok value next =>
          rw [found] at first
          dsimp only
          rw [definedNames_cons]
          have still : next.Adds (next.collectIfNeeded value) [] :=
            adds_of_eq (globals_collectIfNeeded next value)
          exact first.trans (still.trans (ih value _))

/-- An input adds globals for the defines that it completes, whether or not it fails then. -/
theorem adds_evalText (input : Bytes) (evaluator : Evaluator) :
    evaluator.Adds (after (evalText input evaluator))
      (definedNames (completed input evaluator)) := by
  unfold evalText completed
  cases Reader.parse input with
  | error error => exact adds_of_eq rfl
  | ok exprs => exact adds_evalForms .nil exprs evaluator

end Completed

/-! ## Failed inputs -/

theorem entered_append (evaluate : Bytes → Action Value) (maxDepth : Int)
    (inputs more : List Bytes) :
    entered evaluate maxDepth (inputs ++ more) =
      more.foldl (enter evaluate) (entered evaluate maxDepth inputs) :=
  List.foldl_append

/-- What has been displayed and reported is taken along with each input. -/
theorem clearOutput_entered (evaluate : Bytes → Action Value) (maxDepth : Int)
    (inputs : List Bytes) :
    (entered evaluate maxDepth inputs).clearOutput = entered evaluate maxDepth inputs := by
  have step : ∀ evaluator : Evaluator, evaluator.clearOutput = evaluator →
      (inputs.foldl (enter evaluate) evaluator).clearOutput =
        inputs.foldl (enter evaluate) evaluator := by
    induction inputs with
    | nil => exact fun _ => id
    | cons input rest ih => exact fun evaluator _ => ih (evaluator.enter evaluate input) rfl
  exact step _ rfl

/-- An evaluator with the same globals and more functions is paired with what it was before. -/
theorem Paired.of_grown {pairing : Pairing} {evaluator later : Evaluator}
    (paired : evaluator.Paired pairing evaluator) (grown : evaluator.Grown later)
    (globals : later.globals = evaluator.globals) :
    later.Full ∨ later.clearOutput.Paired pairing evaluator.clearOutput := by
  refine (grown.kept paired.leftNumbered).imp_right ?_
  rintro ⟨numbered, further, kept⟩
  constructor
  case maxDepth => exact grown.maxDepth
  case globals =>
    change Scope.Paired pairing later.globals evaluator.globals
    rw [globals]
    exact paired.globals
  case functions =>
    intro handle other known
    obtain ⟨function, twin, found, foundToo, same⟩ := paired.functions known
    exact ⟨function, twin, kept found, foundToo, same⟩
  case leftNumbered => exact numbered
  case rightNumbered => exact paired.rightNumbered
  case further => exact further
  all_goals rfl

/-- An input that adds no globals changes no answer but for handles. -/
theorem answers_eq_of_globals {maxDepth : Int} {history following : List Bytes} {input : Bytes}
    (same : (after (evalText input (entered evalText maxDepth history))).globals =
      (entered evalText maxDepth history).globals)
    (room : HandlesSuffice maxDepth (history ++ input :: following)) :
    (answers evalText following
        ((entered evalText maxDepth history).enter evalText input)).map Answer.anonymous =
      (answers evalText following (entered evalText maxDepth history)).map Answer.anonymous := by
  -- Both answers are those of evaluators that never collect.
  have alike := entered_alike maxDepth history
  rw [alike.answers_eq, (alike.enter input).answers_eq]
  have globals := (evalText_alike alike input).answered.2.globals
  rw [same, alike.globals] at globals
  -- These are paired, since there is still a handle in the end.
  obtain ⟨handle, free⟩ := room
  rw [entered_append, List.foldl_cons] at free
  have roomy : ∀ {evaluator : Evaluator}, evaluator.Full → evaluator.Grown _ → False :=
    fun taken grown => free (grown.full taken handle)
  rcases entered_paired maxDepth history with taken | ⟨pairing, paired⟩
  · exact (roomy taken (grown_growth.trans (enter_grown _ input) (foldl_enter_grown _ _))).elim
  rcases paired.of_grown (evalTextWhen_grown input _) globals.symm with taken | later
  · refine (roomy taken (grown_growth.trans ?_ (foldl_enter_grown following _))).elim
    exact grown_of_eq rfl rfl rfl
  rw [clearOutput_entered] at later
  rcases later.answers_cases following with taken | answered
  · exact (free (taken handle)).elim
  · exact answered

/-- The forms that an input completes before it fails decide what it leaves behind: their defines,
and nothing else that can be told apart by later inputs. So it changes nothing if and only if none
of them is a define. Handles may become others, but must not run out. -/
theorem failed_input_harmless_iff (maxDepth : Int) (history : List Bytes) (input : Bytes)
    (fuel : Nat) (cause : SessionError) (later : Evaluator)
    (failed : Session.eval fuel input (.interpreted (entered evalText maxDepth history)) =
      (.error cause, .interpreted later)) :
    (entered evalText maxDepth history).Adds later
        (definedNames (completed input (entered evalText maxDepth history))) ∧
      (later.globals = (entered evalText maxDepth history).globals ∧
          (∀ following : List Bytes, HandlesSuffice maxDepth (history ++ input :: following) →
            (answers evalText following later.clearOutput).map Answer.anonymous =
              (answers evalText following (entered evalText maxDepth history)).map
                Answer.anonymous) ↔
        definedNames (completed input (entered evalText maxDepth history)) = []) := by
  have behind : later = after (evalText input (entered evalText maxDepth history)) := by
    unfold Session.eval at failed
    cases evaluated : evalText input (entered evalText maxDepth history) with
    | ok value next =>
        simp only [evaluated] at failed
        cases failed
    | error error next =>
        simp only [evaluated] at failed
        cases failed
        rfl
  subst behind
  have adds := adds_evalText input (entered evalText maxDepth history)
  refine ⟨adds, ⟨fun unchanged => adds.globals_eq_iff.mp unchanged.1, fun none => ?_⟩⟩
  have same := adds.globals_eq_iff.mpr none
  exact ⟨same, fun following room => answers_eq_of_globals same room⟩

theorem evalText_of_parse {input : Bytes} {exprs : List Expr}
    (parsed : Reader.parse input = .ok exprs) : evalText input = evalProgram exprs := by
  rw [evalText, parsed]

theorem evalTextWhen_of_parse {input : Bytes} {exprs : List Expr}
    (parsed : Reader.parse input = .ok exprs) (due : Evaluator → Bool) :
    evalTextWhen due input = evalProgramWhen due exprs := by
  rw [evalTextWhen, parsed]

/-- An input that calls a function and fails then. -/
def wastefulInput : Bytes :=
  utf8 "((lambda () 2)) (+ 1 #t)"

/-- The program of that input. -/
def wastefulProgram : List Expr :=
  [.call ⟨⟨0, 1, 1⟩, ⟨14, 1, 15⟩⟩
      (.lambda ⟨⟨1, 1, 2⟩, ⟨13, 1, 14⟩⟩ none [] (.int ⟨⟨12, 1, 13⟩, ⟨13, 1, 14⟩⟩ 2)) [],
    .call ⟨⟨16, 1, 17⟩, ⟨23, 1, 24⟩⟩ (.var ⟨⟨17, 1, 18⟩, ⟨18, 1, 19⟩⟩ [43])
      [.int ⟨⟨19, 1, 20⟩, ⟨20, 1, 21⟩⟩ 1, .bool ⟨⟨21, 1, 22⟩, ⟨23, 1, 24⟩⟩ true]]

/-- An input that makes a function. -/
def functionInput : Bytes :=
  utf8 "(lambda () 3)"

/-- The program of that input. -/
def functionProgram : List Expr :=
  [.lambda ⟨⟨0, 1, 1⟩, ⟨12, 1, 13⟩⟩ none [] (.int ⟨⟨11, 1, 12⟩, ⟨12, 1, 13⟩⟩ 3)]

theorem failed_input_harmless_iff_wasteful :
    ∃ later : Evaluator,
      Session.eval 0 wastefulInput (.interpreted (entered evalText 0 [])) =
          (.error (.eval (.fault (.notInt .bool))), .interpreted later) ∧
        HandlesSuffice 0 [wastefulInput, functionInput] ∧
        later.globals = (entered evalText 0 []).globals ∧
        answers evalText [functionInput] later.clearOutput = [⟨.ok (.closure 1 0), [], []⟩] ∧
        answers evalText [functionInput] (entered evalText 0 []) =
          [⟨.ok (.closure 0 0), [], []⟩] ∧
        (answers evalText [functionInput] later.clearOutput).map Answer.anonymous =
          (answers evalText [functionInput] (entered evalText 0 [])).map Answer.anonymous := by
  have wasteful : Reader.parse wastefulInput = .ok wastefulProgram := by cbv
  have function : Reader.parse functionInput = .ok functionProgram := by cbv
  have failed : Session.eval 0 wastefulInput (.interpreted (entered evalText 0 [])) =
      (.error (.eval (.fault (.notInt .bool))),
        .interpreted (after (evalProgram wastefulProgram (Evaluator.new 0)))) := by
    unfold Session.eval
    rw [evalText_of_parse wasteful]
    rfl
  have room : HandlesSuffice 0 [wastefulInput, functionInput] := by
    refine ⟨2, ?_⟩
    unfold entered enter
    simp only [List.foldl_cons, List.foldl_nil]
    rw [evalTextWhen_of_parse wasteful, evalTextWhen_of_parse function]
    decide +kernel
  obtain ⟨-, unchanged⟩ := failed_input_harmless_iff 0 [] wastefulInput 0 _ _ failed
  have none : definedNames (completed wastefulInput (entered evalText 0 [])) = [] := by
    rw [completed, wasteful]
    decide +kernel
  obtain ⟨globals, same⟩ := unchanged.mpr none
  refine ⟨_, failed, room, globals, ?_, ?_, same _ room⟩
  · unfold answers
    rw [evalText_of_parse function]
    decide +kernel
  · unfold answers
    rw [evalText_of_parse function]
    decide +kernel

/-- An input that defines a global and fails then. -/
def halfDoneInput : Bytes :=
  utf8 "(define x 1) (+ 1 #t)"

/-- The program of that input. -/
def halfDoneProgram : List Expr :=
  [.define ⟨⟨0, 1, 1⟩, ⟨11, 1, 12⟩⟩ [120] (.int ⟨⟨10, 1, 11⟩, ⟨11, 1, 12⟩⟩ 1),
    .call ⟨⟨13, 1, 14⟩, ⟨20, 1, 21⟩⟩ (.var ⟨⟨14, 1, 15⟩, ⟨15, 1, 16⟩⟩ [43])
      [.int ⟨⟨16, 1, 17⟩, ⟨17, 1, 18⟩⟩ 1, .bool ⟨⟨18, 1, 19⟩, ⟨20, 1, 21⟩⟩ true]]

/-- An input that fails leaves its define behind, and a later one finds it. -/
theorem failed_input_leaves_define :
    ∃ later : Evaluator,
      Session.eval 0 halfDoneInput (.interpreted (entered evalText 0 [])) =
          (.error (.eval (.fault (.notInt .bool))), .interpreted later) ∧
        later.globals = (entered evalText 0 []).globals ++ [([120], .int 1)] ∧
        answers evalText [[120]] later.clearOutput = [⟨.ok (.int 1), [], []⟩] ∧
        answers evalText [[120]] (entered evalText 0 []) =
          [⟨.error (.source ⟨⟨0, 1, 1⟩, .undefined [120]⟩), [], []⟩] := by
  have halfDone : Reader.parse halfDoneInput = .ok halfDoneProgram := by cbv
  have asked : Reader.parse [120] = .ok [.var ⟨⟨0, 1, 1⟩, ⟨1, 1, 2⟩⟩ [120]] := by cbv
  refine ⟨after (evalProgram halfDoneProgram (Evaluator.new 0)), ?_, ?_, ?_, ?_⟩
  · unfold Session.eval
    rw [evalText_of_parse halfDone]
    rfl
  · decide +kernel
  · unfold answers
    rw [evalText_of_parse asked]
    decide +kernel
  · unfold answers
    rw [evalText_of_parse asked]
    decide +kernel

end ClosureLisp.Evaluator
