import ClosureLisp.Proofs.Retention
import ClosureLisp.Proofs.Transfers

/-!
# The depth of calls

The stack limit bounds the stack, and it bounds the number of open activations only as far as each
of them has a slot of its own. An activation is opened with its closure on top of the stack, but
its body may take that slot off again, or hand it over to the next activation by calling the
closure in it. `Machine.bareFrames` are the open activations without a slot of their own, and
`Machine.Cedes` says that a run has taken such a slot away. Nothing bounds their number.
-/

namespace ClosureLisp

namespace Machine

/-! ## The stack limit -/

/-- The stack is within its limit, and every open activation counts a local at least. -/
structure Fits (limit : Nat) (machine : Machine) : Prop where
  limited : machine.stackLimit = limit
  stack : machine.stack.size ≤ limit
  locals : ∀ activation ∈ machine.activations, 0 < activation.locals

section Instructions

variable {limit : Nat} {machine : Machine}

theorem size_shrink_le (stack : Array Value) (size : Nat) :
    (stack.shrink size).size ≤ stack.size := by
  rw [Array.size_shrink]
  exact Nat.min_le_right _ _

theorem push_fits (fits : machine.Fits limit) (value : Value) :
    (machine.push value).Ensures (Fits limit) := by
  unfold push
  split
  · exact fits
  · next room =>
      refine ⟨fits.limited, ?_, fits.locals⟩
      rw [fits.limited] at room
      rw [Array.size_push]
      omega

theorem pushAll_fits (fits : machine.Fits limit) (values : List Value) :
    (machine.pushAll values).Ensures (Fits limit) := by
  induction values generalizing machine with
  | nil => exact fits
  | cons value rest ih =>
      exact (push_fits fits value).andThen (fun _ => id) fun _ pushed => ih pushed

theorem pop_fits {further : Value → Machine → Effect} (fits : machine.Fits limit)
    (onward : ∀ value machine, Fits limit machine →
      (further value machine).Ensures (Fits limit)) :
    (machine.pop further).Ensures (Fits limit) := by
  unfold pop
  split
  · exact fits
  · refine onward _ _ ⟨fits.limited, Nat.le_trans ?_ fits.stack, fits.locals⟩
    rw [Array.size_pop]
    exact Nat.sub_le _ _

theorem checkTarget_fits {further : Machine → Effect} {target : Int32}
    (fits : machine.Fits limit) (onward : (further machine).Ensures (Fits limit)) :
    (machine.checkTarget target further).Ensures (Fits limit) := by
  unfold checkTarget
  split
  · exact onward
  · exact fits

theorem Fits.goTo (fits : machine.Fits limit) (target : Int32) :
    (machine.goTo target).Fits limit :=
  ⟨fits.limited, fits.stack, fits.locals⟩

theorem callBuiltin_fits (fits : machine.Fits limit) (name : Name) (count : Nat) :
    (machine.callBuiltin name count).Ensures (Fits limit) := by
  have shrunk : ∀ events, Fits limit
      { machine with
        stack := machine.stack.shrink (machine.stack.size - count)
        events := events } :=
    fun _ => ⟨fits.limited, Nat.le_trans (size_shrink_le _ _) fits.stack, fits.locals⟩
  unfold callBuiltin
  dsimp only
  split
  · exact shrunk _
  · split
    · exact push_fits (shrunk _) _
    · exact push_fits (shrunk _) _

theorem enter_fits (fits : machine.Fits limit) (handle : UInt32) (arity : Int) (count : Nat) :
    (machine.enter handle arity count).Ensures (Fits limit) := by
  unfold enter
  split
  · exact fits
  · split
    · exact fits
    · refine checkTarget_fits fits ?_
      refine (pushAll_fits fits _).andThen (fun _ => id) fun _ pushed => ?_
      refine ⟨pushed.limited, pushed.stack, fun activation listed => ?_⟩
      rcases List.mem_cons.mp listed with rfl | outer
      · dsimp only
        omega
      · exact pushed.locals activation outer

theorem call_fits (fits : machine.Fits limit) (count : Int32) :
    (machine.call count).Ensures (Fits limit) := by
  refine pop_fits fits fun callee machine popped => ?_
  split
  · exact popped
  · split
    · exact callBuiltin_fits popped _ _
    · exact enter_fits popped _ _ _
    · exact popped

theorem leave_fits (fits : machine.Fits limit) : machine.leave.Ensures (Fits limit) := by
  unfold leave
  split
  · exact fits
  · next activation outer current =>
      refine pop_fits fits fun result machine popped => ?_
      split
      · exact popped
      · refine push_fits ?_ result
        refine ⟨popped.limited, Nat.le_trans (size_shrink_le _ _) popped.stack, ?_⟩
        intro other listed
        exact fits.locals other (current ▸ List.mem_cons_of_mem _ listed)

theorem makeLambda_fits (fits : machine.Fits limit) (entry arity captures : Int32) :
    (machine.makeLambda entry arity captures).Ensures (Fits limit) := by
  unfold makeLambda
  split
  · exact fits
  · split
    · exact fits
    · refine checkTarget_fits fits (push_fits ?_ _)
      exact ⟨fits.limited, Nat.le_trans (size_shrink_le _ _) fits.stack, fits.locals⟩

/-- No instruction gets beyond the stack limit. -/
theorem execute_fits (fits : machine.Fits limit) (instr : Instr) :
    (machine.execute instr).Ensures (Fits limit) := by
  cases instr with
  | push constant => exact push_fits fits _
  | pop =>
      rw [execute]
      refine pop_fits fits fun value machine popped => ?_
      split
      · exact ⟨popped.limited, popped.stack, popped.locals⟩
      · exact popped
  | get slot =>
      rw [execute, load]
      split
      · exact fits
      · split
        · exact fits
        · split
          · exact push_fits fits _
          · exact fits
  | defGlobal =>
      rw [execute]
      exact pop_fits fits fun value machine popped =>
        ⟨popped.limited, popped.stack, popped.locals⟩
  | getGlobal slot =>
      rw [execute, loadGlobal]
      split
      · exact fits
      · split
        · exact push_fits fits _
        · exact fits
  | jump target =>
      rw [execute]
      refine checkTarget_fits fits ?_
      exact fits.goTo target
  | jumpIf target =>
      rw [execute, branch]
      refine checkTarget_fits fits (pop_fits fits fun condition machine popped => ?_)
      split
      · exact popped.goTo target
      · exact popped
      · exact popped
  | call count => exact call_fits fits count
  | ret => exact leave_fits fits
  | makeLambda entry arity captures => exact makeLambda_fits fits entry arity captures

end Instructions

/-! ## Activations without a slot -/

/-- The open activations without a slot of their own, each with the ones outside of it: their base
is not below the given height, nor below the base of any activation inside them. -/
def bareFrames : Nat → List Activation → List (List Activation)
  | _, [] => []
  | top, activation :: outer =>
      if top ≤ activation.base then (activation :: outer) :: bareFrames top outer
      else bareFrames activation.base outer

/-- The activations that have a slot of their own are no more than the slots. -/
theorem length_le_add_bareFrames (top : Nat) (activations : List Activation) :
    activations.length ≤ top + (bareFrames top activations).length := by
  induction activations generalizing top with
  | nil => exact Nat.zero_le _
  | cons activation outer ih =>
      rw [bareFrames, List.length_cons]
      split
      · have inner := ih top
        rw [List.length_cons]
        omega
      · have inner := ih activation.base
        omega

theorem of_mem_bareFrames {top : Nat} {activations outer : List Activation}
    {activation : Activation} (bare : activation :: outer ∈ bareFrames top activations) :
    ∃ inner, activations = inner ++ activation :: outer ∧
      (top ≤ activation.base ∨ ∃ deeper ∈ inner, deeper.base ≤ activation.base) := by
  induction activations generalizing top with
  | nil => exact absurd bare List.not_mem_nil
  | cons first rest ih =>
      rw [bareFrames] at bare
      split at bare
      · next low =>
          rcases List.mem_cons.mp bare with same | further
          · cases same
            exact ⟨[], rfl, .inl low⟩
          · obtain ⟨inner, rfl, below⟩ := ih further
            refine ⟨first :: inner, rfl, below.imp_right ?_⟩
            rintro ⟨deeper, listed, lower⟩
            exact ⟨deeper, List.mem_cons_of_mem _ listed, lower⟩
      · obtain ⟨inner, rfl, below⟩ := ih bare
        refine ⟨first :: inner, rfl, .inr ?_⟩
        rcases below with lower | ⟨deeper, listed, lower⟩
        · exact ⟨first, List.mem_cons_self, lower⟩
        · exact ⟨deeper, List.mem_cons_of_mem _ listed, lower⟩

/-- A run takes a position of the stack away from the given activations: some step cuts the stack
down to below the position, or calls a closure that has the position for a local; and they are
open before this step and ever since. -/
inductive Cedes (first : Machine) (frames : List Activation) (position : Nat) :
    Machine → Prop where
  | here {count : Nat} {before : Machine} (runs : first.Runs count before)
      (opened : frames <:+ before.activations) (held : position < before.stack.size)
      (taken : before.step.machine.stack.size ≤ position ∨ ∃ deeper,
        before.step.machine.activations = deeper :: before.activations ∧ deeper.base ≤ position)
      (still : frames <:+ before.step.machine.activations) :
      Cedes first frames position before.step.machine
  | later {count : Nat} {before : Machine} (runs : first.Runs count before)
      (ceded : Cedes first frames position before)
      (still : frames <:+ before.step.machine.activations) :
      Cedes first frames position before.step.machine

/-- What an instruction can do to the open activations: nothing, or it leaves the innermost one, or
it opens one with its locals on top of the stack. -/
def Reopens (before after : Machine) : Prop :=
  after.activations = before.activations ∨
    (∃ left, before.activations = left :: after.activations) ∨
    ∃ entered, after.activations = entered :: before.activations ∧
      after.stack.size = entered.base + entered.locals

theorem Moves.reopens {before after : Machine} {instr : Instr} (moves : before.Moves instr after) :
    before.Reopens after := by
  cases moves with
  | stays keeps => exact .inl keeps.activations
  | jumps _ keeps => exact .inl keeps.activations
  | enters _ _ filled keeps => exact .inr (.inr ⟨_, keeps.activations, filled⟩)
  | @leaves left outer current keeps =>
      have back : after.activations = outer := keeps.activations
      exact .inr (.inl ⟨left, back ▸ current⟩)
  | makes _ _ keeps => exact .inl keeps.activations

theorem execute_reopens (machine : Machine) (instr : Instr) :
    (machine.execute instr).Ensures machine.Reopens := by
  have yields := machine.execute_yields instr
  revert yields
  generalize machine.execute instr = effect
  intro yields
  cases yields with
  | next _ moves => exact moves.reopens
  | fault moves _ => exact moves.reopens
  | overrun _ _ => exact .inl rfl

/-! ## Steps and runs -/

section Steps

variable {first machine : Machine} {limit : Nat}

/-- What every instruction ensures a step ensures, if it holds where no instruction is executed. -/
theorem step_ensures {holds : Machine → Prop} (idle : holds machine)
    (collected : holds machine.collectIfNeeded)
    (executed : ∀ instr size, ((machine.ready instr size).execute instr).Ensures holds) :
    holds machine.step.machine := by
  cases decoded : machine.code.instrAt machine.pc with
  | ok found =>
      obtain ⟨instr, size⟩ := found
      have ensured := executed instr size
      rw [step_of_instrAt decoded]
      cases effect : (machine.ready instr size).execute instr <;> rw [effect] at ensured <;>
        exact ensured
  | error error =>
      rw [step]
      split
      · simp only [collectIfNeeded_code, collectIfNeeded_pc, decoded]
        exact collected
      · exact idle

theorem Fits.step (fits : machine.Fits limit) : machine.step.machine.Fits limit := by
  refine step_ensures fits ?_ fun instr size => execute_fits ?_ instr
  · unfold collectIfNeeded
    split <;> exact ⟨fits.limited, fits.stack, fits.locals⟩
  · unfold ready traceInstr collectIfNeeded
    split <;> split <;> exact ⟨fits.limited, fits.stack, fits.locals⟩

theorem step_reopens (machine : Machine) : machine.Reopens machine.step.machine := by
  refine step_ensures (.inl rfl) (.inl ?_) fun instr size => ?_
  · unfold collectIfNeeded
    split <;> rfl
  · have reopens := (machine.ready instr size).execute_reopens instr
    unfold Reopens at reopens ⊢
    rwa [ready_activations] at reopens

/-- A machine with an account of the first slots of its open activations: each is on the stack and
below what the activations inside have for their own, or the run up to here has taken it away. -/
structure Owns (first machine : Machine) : Prop where
  fits : machine.Fits first.stackLimit
  slots : ∀ {activation : Activation} {inner outer : List Activation},
    machine.activations = inner ++ activation :: outer →
      (activation.base < machine.stack.size ∧ ∀ deeper ∈ inner, activation.base < deeper.base) ∨
        first.Cedes (activation :: outer) activation.base machine

namespace Owns

/-- An activation that stays open keeps its first slot, or this step takes it away. -/
theorem carry {count : Nat} {activation : Activation} {before inner outer : List Activation}
    (owns : Owns first machine) (runs : first.Runs count machine)
    (opened : machine.activations = before ++ activation :: outer)
    (still : activation :: outer <:+ machine.step.machine.activations)
    (inside : ∀ deeper ∈ inner,
      deeper ∈ before ∨ machine.step.machine.activations = deeper :: machine.activations) :
    (activation.base < machine.step.machine.stack.size ∧
        ∀ deeper ∈ inner, activation.base < deeper.base) ∨
      first.Cedes (activation :: outer) activation.base machine.step.machine := by
  have standing : activation :: outer <:+ machine.activations := ⟨before, opened.symm⟩
  rcases owns.slots opened with ⟨held, above⟩ | ceded
  · rcases Nat.lt_or_ge activation.base machine.step.machine.stack.size with kept | gone
    · by_cases handed : ∃ deeper ∈ inner, deeper.base ≤ activation.base
      · obtain ⟨deeper, listed, lower⟩ := handed
        rcases inside deeper listed with older | entered
        · exact absurd (above deeper older) (Nat.not_lt.mpr lower)
        · exact .inr (.here runs standing held (.inr ⟨deeper, entered, lower⟩) still)
      · refine .inl ⟨kept, fun deeper listed => Nat.lt_of_not_le fun lower => ?_⟩
        exact handed ⟨deeper, listed, lower⟩
    · exact .inr (.here runs standing held (.inl gone) still)
  · exact .inr (.later runs ceded still)

theorem step {count : Nat} (owns : Owns first machine) (runs : first.Runs count machine) :
    Owns first machine.step.machine := by
  have fits := owns.fits.step
  refine ⟨fits, fun {activation inner outer} opened => ?_⟩
  have still : activation :: outer <:+ machine.step.machine.activations := ⟨inner, opened.symm⟩
  rcases machine.step_reopens with same | ⟨left, current⟩ | ⟨entered, now, filled⟩
  · exact owns.carry runs (same ▸ opened) still fun _ => .inl
  · have before : machine.activations = (left :: inner) ++ activation :: outer := by
      rw [current, opened, List.cons_append]
    refine owns.carry runs before still fun deeper listed => ?_
    exact .inl (List.mem_cons_of_mem _ listed)
  · rw [now] at opened
    cases inner with
    | nil =>
        obtain ⟨rfl, -⟩ := List.cons.inj opened
        have counted := fits.locals entered (now ▸ List.mem_cons_self)
        exact .inl ⟨by omega, fun _ listed => absurd listed List.not_mem_nil⟩
    | cons deepest inner =>
        obtain ⟨rfl, before⟩ := List.cons.inj opened
        refine owns.carry runs before still fun deeper listed => ?_
        rcases List.mem_cons.mp listed with rfl | older
        · exact .inr now
        · exact .inl older

/-- However a run ends or is broken off, the slots are accounted for. -/
theorem run {count : Nat} (owns : Owns first machine) (runs : first.Runs count machine)
    (fuel : Nat) : Owns first (Machine.run fuel machine).2 := by
  induction fuel generalizing machine count with
  | zero => exact owns
  | succ fuel ih =>
      have stepped := owns.step runs
      rw [Machine.run]
      cases progress : machine.step with
      | halted halt last =>
          rw [progress] at stepped
          exact stepped
      | running next =>
          rw [progress] at stepped
          exact ih stepped (runs.trans (.single progress))

end Owns

theorem owns_new (options : MachineOptions) (code : Code) :
    Owns ((new options).prepare code 0) ((new options).prepare code 0) := by
  refine ⟨⟨rfl, Nat.zero_le _, ?_⟩, fun {_ inner _} opened => ?_⟩
  · exact fun activation listed => absurd listed List.not_mem_nil
  · cases inner <;> cases opened

end Steps

/-- At every point of every run the stack is within its limit, and there are no more open
activations than there are values on the stack and activations without a slot of their own. Each
of the latter has been opened with its closure on the stack, and some step of the run has cut the
stack down to below that slot or called a closure that took it over. So the limit bounds the depth
of calls of all code that leaves to each open activation its first slot. -/
theorem runFrom_depth_le (code : Code) (options : MachineOptions) (fuel : Nat) :
    let machine := ((new options).runFrom fuel code 0).2
    machine.stack.size ≤ (new options).stackLimit ∧
      machine.activations.length ≤
        machine.stack.size + (bareFrames machine.stack.size machine.activations).length ∧
      ∀ activation outer,
        activation :: outer ∈ bareFrames machine.stack.size machine.activations →
          ((new options).prepare code 0).Cedes (activation :: outer) activation.base machine := by
  intro machine
  have owns : Owns ((new options).prepare code 0) machine := by
    rw [show machine = (run fuel ((new options).prepare code 0)).2 from
      congrArg Prod.snd (runFrom_zero _ _ _)]
    exact (owns_new options code).run (.refl _) fuel
  refine ⟨owns.fits.stack, length_le_add_bareFrames _ _, fun activation outer bare => ?_⟩
  obtain ⟨inner, opened, low⟩ := of_mem_bareFrames bare
  refine (owns.slots opened).resolve_left ?_
  rintro ⟨held, above⟩
  rcases low with gone | ⟨deeper, listed, lower⟩
  · exact Nat.not_le.mpr held gone
  · exact Nat.not_le.mpr (above deeper listed) lower

end Machine

/-! ## Calls without a bound -/

/-- The code of a call of a function that does nothing but call itself from the slot that holds it,
so that the slot is handed on. -/
def selfCallCode : Code :=
  (Instr.encodeAll [.jump 11, .call 0, .ret, .makeLambda 5 0 0, .call 0]).toArray

/-- That code packed without a source. -/
def selfCallBundle : Bundle :=
  Bundle.new [] selfCallCode predefinedNames

theorem selfCallBundle_verify : selfCallBundle.verify = .ok () := by
  have targets : Bundle.targetFault? selfCallCode = none := by decide +kernel
  exact Bundle.verify_new (by decide) targets

namespace Machine

/-- A machine with room for one value at the start of that code. -/
def selfCallStart : Machine :=
  (new { stackLimit := 1 }).prepare selfCallCode 0

/-- The same machine at the start of the body of that function. -/
def selfCalling (frames : List Activation) : Machine :=
  { selfCallStart with
    pc := 5
    stack := #[.closure 1 0]
    heap := (selfCallStart.heap.alloc ⟨0, [], 5⟩).2
    activations := frames }

theorem selfCalling_step (frames : List Activation) :
    (selfCalling frames).step = .running (selfCalling (⟨10, 0, 1, 1⟩ :: frames)) := by
  have call : selfCallCode.instrAt 5 = .ok (.call 0, 5) := by decide +kernel
  have decoded : (selfCalling frames).code.instrAt (selfCalling frames).pc = .ok (.call 0, 5) :=
    call
  rw [step_of_instrAt decoded]
  rfl

/-- The first three instructions make the function and enter it. -/
theorem run_selfCallStart (fuel : Nat) :
    run (fuel + 3) selfCallStart = run fuel (selfCalling [⟨29, 0, 1, 1⟩]) := by
  let made : Machine := { selfCalling [] with pc := 24 }
  have jump : selfCallStart.code.instrAt selfCallStart.pc = .ok (.jump 11, 5) := by
    decide +kernel
  have make : (selfCallStart.goTo 11).code.instrAt (selfCallStart.goTo 11).pc =
      .ok (.makeLambda 5 0 0, 13) := by
    decide +kernel
  have call : made.code.instrAt made.pc = .ok (.call 0, 5) := by decide +kernel
  have first : selfCallStart.step = .running (selfCallStart.goTo 11) := by
    rw [step_of_instrAt jump]
    rfl
  have second : (selfCallStart.goTo 11).step = .running made := by
    rw [step_of_instrAt make]
    rfl
  have third : made.step = .running (selfCalling [⟨29, 0, 1, 1⟩]) := by
    rw [step_of_instrAt call]
    rfl
  simp only [run, first, second, third]

/-- Each further step opens an activation on the same slot. -/
theorem run_selfCalling (fuel : Nat) (frames : List Activation) :
    run fuel (selfCalling frames) =
      (.outOfFuel, selfCalling (List.replicate fuel ⟨10, 0, 1, 1⟩ ++ frames)) := by
  induction fuel generalizing frames with
  | zero => rfl
  | succ fuel ih =>
      rw [run, selfCalling_step]
      dsimp only
      rw [ih, List.replicate_succ', List.append_assoc, List.singleton_append]

end Machine

/-- Under a limit of one value the bundle opens any number of activations. -/
theorem selfCallBundle_deepens (depth : Nat) :
    ((Machine.new { stackLimit := 1 }).runFrom (depth + 3) selfCallBundle.code
      0).2.activations.length = depth + 1 := by
  have ran := Machine.run_selfCallStart depth
  rw [Machine.run_selfCalling] at ran
  rw [selfCallBundle, Bundle.code_new, Machine.runFrom_zero]
  rw [show (Machine.new { stackLimit := 1 }).prepare selfCallCode 0 = Machine.selfCallStart from
    rfl, ran]
  simp [Machine.selfCalling]

/-- Verification does not bound the depth of calls by the stack limit. -/
theorem Bundle.verify_not_shallow :
    ¬ ∀ bundle : Bundle, bundle.verify = .ok () → ∀ (options : MachineOptions) (fuel : Nat),
      ((Machine.new options).runFrom fuel bundle.code 0).2.stack.size ≤
          (Machine.new options).stackLimit ∧
        ((Machine.new options).runFrom fuel bundle.code 0).2.activations.length ≤
          (Machine.new options).stackLimit := by
  intro shallow
  have bound := (shallow selfCallBundle selfCallBundle_verify { stackLimit := 1 } 4).2
  rw [selfCallBundle_deepens 1] at bound
  exact absurd bound (by decide)

end ClosureLisp
