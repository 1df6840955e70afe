import ClosureLisp.Proofs.Agreement

/-!
# Following an evaluation

`Follows` compares a machine with the outcome of an evaluation. The machine comes to a state
that answers the value, or it stops with a fault of the kind of the error; a failed assertion
stops the machine but not the evaluation, and a machine whose stack or handles run out is not
compared further. The relation composes as evaluations do.
-/

namespace ClosureLisp

namespace Machine

/-- The run of a machine ends with a fault. -/
def Fails (machine : Machine) (cause : Fault) (last : Machine) : Prop :=
  ∃ count pc opcode, machine.Ends count (.error (.fault pc opcode cause)) last

/-- The machine comes to make all the closures that there are handles for, given the number of
those made before, or its stack becomes full. -/
def Strays (machine : Machine) (count : Nat) : Prop :=
  (∃ more last, machine.Runs more last ∧ handleRange ≤ count + more) ∨
    ∃ limit last, machine.Fails (.stackLimit limit) last

theorem Runs.fails {machine next last : Machine} {count : Nat} {cause : Fault}
    (runs : machine.Runs count next) (fails : next.Fails cause last) :
    machine.Fails cause last := by
  obtain ⟨more, pc, opcode, ends⟩ := fails
  exact ⟨count + more, pc, opcode, runs.ends ends⟩

theorem Runs.strays {machine next : Machine} {count more : Nat} (runs : machine.Runs more next)
    (strays : next.Strays (count + more)) : machine.Strays count := by
  rcases strays with ⟨rest, last, onward, exhausted⟩ | ⟨limit, last, fails⟩
  · exact .inl ⟨more + rest, last, runs.trans onward, by omega⟩
  · exact .inr ⟨limit, last, runs.fails fails⟩

end Machine

/-- The kinds of faults that a program runs into by its own doing. -/
def Fault.Kind.IsOrdinary (kind : Fault.Kind) : Prop :=
  kind = .arity ∨ kind = .typeMismatch ∨ kind = .notCallable

/-- A machine that has made `count` closures follows an evaluation with a given outcome, which
starts with a given number of failed assertions. The evaluation may nest calls too deeply only
if `deep` holds. -/
inductive Follows {α : Type} (deep : Prop) (older : List Event) (failures : Nat)
    (done : α → Nat → Evaluator → Machine → Prop) (count : Nat) (machine : Machine) :
    EStateM.Result EvalError Evaluator α → Prop where
  | strays {outcome : EStateM.Result EvalError Evaluator α} (strayed : machine.Strays count) :
      Follows deep older failures done count machine outcome
  | asserted {outcome : EStateM.Result EvalError Evaluator α} {last : Machine}
      (counted : failures < (Evaluator.after outcome).failures)
      (failed : machine.Fails .assertionFailed last) :
      Follows deep older failures done count machine outcome
  | value {value : α} {evaluator : Evaluator} {more : Nat} {last : Machine}
      (runs : machine.Runs more last) (counted : evaluator.failures = failures)
      (reached : done value (count + more) evaluator last) :
      Follows deep older failures done count machine (.ok value evaluator)
  | fault {cause stopped : Fault} {evaluator : Evaluator} {last : Machine}
      (ordinary : cause.kind.IsOrdinary) (same : stopped.kind = cause.kind)
      (failed : machine.Fails stopped last) (counted : evaluator.failures = failures)
      (printed : evaluator.Prints older last) :
      Follows deep older failures done count machine (.error (.fault cause) evaluator)
  | tooDeep {depth : Nat} {evaluator : Evaluator} (room : deep) :
      Follows deep older failures done count machine (.error (.fault (.callDepth depth)) evaluator)

namespace Follows

variable {α β : Type} {deep deeper : Prop} {older : List Event} {failures count more : Nat}
  {machine next : Machine} {done : α → Nat → Evaluator → Machine → Prop}
  {outcome : EStateM.Result EvalError Evaluator α}

/-- A machine follows if it comes to one that does. -/
theorem prepend (runs : machine.Runs more next)
    (rest : Follows deep older failures done (count + more) next outcome) :
    Follows deep older failures done count machine outcome := by
  cases rest with
  | strays strayed => exact .strays (runs.strays strayed)
  | asserted counted failed => exact .asserted counted (runs.fails failed)
  | value onward counted reached =>
      rw [Nat.add_assoc] at reached
      exact .value (runs.trans onward) counted reached
  | fault ordinary same failed counted printed =>
      exact .fault ordinary same (runs.fails failed) counted printed
  | tooDeep room => exact .tooDeep room

/-- The same for a step that makes no closure. -/
theorem of_step (stepped : machine.step = .running next)
    (made : next.heap.next = machine.heap.next)
    (rest : Follows deep older failures done count next outcome) :
    Follows deep older failures done count machine outcome := by
  refine prepend (Machine.Runs.single stepped) ?_
  rwa [Machine.made, if_pos made]

theorem deepen (implied : deep → deeper)
    (follows : Follows deep older failures done count machine outcome) :
    Follows deeper older failures done count machine outcome := by
  cases follows with
  | strays strayed => exact .strays strayed
  | asserted counted failed => exact .asserted counted failed
  | value runs counted reached => exact .value runs counted reached
  | fault ordinary same failed counted printed =>
      exact .fault ordinary same failed counted printed
  | tooDeep room => exact .tooDeep (implied room)

/-- An evaluation that goes on with a value is followed if both parts are. -/
theorem andThen {further : α → Evaluator → EStateM.Result EvalError Evaluator β}
    {last : β → Nat → Evaluator → Machine → Prop}
    (first : Follows deep older failures done count machine outcome)
    (monotone : ∀ value evaluator,
      evaluator.failures ≤ (Evaluator.after (further value evaluator)).failures)
    (second : ∀ {value made evaluator middle}, evaluator.failures = failures →
      done value (count + made) evaluator middle →
      Follows deep older failures last (count + made) middle (further value evaluator)) :
    Follows deep older failures last count machine (Evaluator.andThen outcome further) := by
  cases first with
  | strays strayed => exact .strays strayed
  | asserted counted failed =>
      refine .asserted (Nat.lt_of_lt_of_le counted ?_) failed
      cases outcome with
      | ok value evaluator => exact monotone value evaluator
      | error error evaluator => exact Nat.le_refl _
  | value runs counted reached => exact prepend runs (second counted reached)
  | fault ordinary same failed counted printed =>
      exact .fault ordinary same failed counted printed
  | tooDeep room => exact .tooDeep room

/-- A machine that has answered a value follows whatever it follows from there. -/
theorem pass {value : α} {evaluator : Evaluator}
    {outcome : EStateM.Result EvalError Evaluator β}
    {last : β → Nat → Evaluator → Machine → Prop}
    (first : Follows deep older evaluator.failures done count machine (.ok value evaluator))
    (second : ∀ {made middle}, done value (count + made) evaluator middle →
      Follows deep older evaluator.failures last (count + made) middle outcome) :
    Follows deep older evaluator.failures last count machine outcome := by
  cases first with
  | strays strayed => exact .strays strayed
  | asserted counted failed => exact absurd counted (Nat.lt_irrefl _)
  | value runs counted reached => exact prepend runs (second reached)

/-- A machine that follows may go on from where it has arrived. -/
theorem onward {last : α → Nat → Evaluator → Machine → Prop}
    (first : Follows deep older failures done count machine outcome)
    (second : ∀ {value made evaluator middle}, evaluator.failures = failures →
      done value (count + made) evaluator middle →
      Follows deep older failures last (count + made) middle (.ok value evaluator)) :
    Follows deep older failures last count machine outcome := by
  have same : Evaluator.andThen outcome .ok = outcome := by cases outcome <;> rfl
  rw [← same]
  exact first.andThen (fun _ _ => Nat.le_refl _) second

end Follows

end ClosureLisp
