import ClosureLisp.Proofs.Instructions

/-!
# Calls

The call instruction on the machine's form of arguments and a callee: primitives treat handles
as opaque, so they give corresponding results, and a closure is entered with the layout that
its frame prescribes. Entering and leaving a closure are separate statements, because the run
of its body lies between them.
-/

namespace ClosureLisp

/-! ## Primitives -/

namespace Primitive

/-- The machine's form of what a primitive yields. -/
def Yield.onMachine (yielded : Yield) : Yield :=
  ⟨yielded.result.onMachine, yielded.shown.map Value.onMachine⟩

theorem onInts_onMachine {operation : Int32 → Int32 → Value}
    (plain : ∀ left right, (operation left right).onMachine = operation left right)
    (left right : Value) :
    onInts operation left.onMachine right.onMachine =
      (onInts operation left right).map Yield.onMachine := by
  cases left with
  | int number =>
      cases right with
      | int other =>
          change _ = Except.ok (Yield.mk (operation number other).onMachine none)
          rw [plain]
          rfl
      | _ => rfl
  | _ => cases right <;> rfl

theorem compare_onMachine (left right : Value) :
    compare left.onMachine right.onMachine = (compare left right).map Yield.onMachine := by
  cases left <;> cases right <;> rfl

theorem check_onMachine (condition : Value) :
    check condition.onMachine = (check condition).map Yield.onMachine := by
  cases condition with
  | bool flag => cases flag <;> rfl
  | _ => rfl

/-- Primitives do not look into handles. -/
theorem apply_onMachine (primitive : Primitive) (arguments : List Value) :
    primitive.apply (arguments.map Value.onMachine) =
      (primitive.apply arguments).map Yield.onMachine := by
  match arguments with
  | [] => cases primitive <;> rfl
  | [value] =>
      cases primitive with
      | assert => exact check_onMachine value
      | isNil => cases value <;> rfl
      | _ => rfl
  | [left, right] =>
      cases primitive with
      | add | subtract | multiply | less => exact onInts_onMachine (fun _ _ => rfl) left right
      | equal => exact compare_onMachine left right
      | _ => rfl
  | first :: second :: third :: rest => cases primitive <;> simp [apply, Except.map]

theorem applyNamed_onMachine (name : Name) (arguments : List Value) :
    applyNamed name (arguments.map Value.onMachine) =
      (applyNamed name arguments).map Yield.onMachine := by
  unfold applyNamed
  split
  · rfl
  · exact apply_onMachine _ arguments

theorem onInts_error {operation : Int32 → Int32 → Value} {left right : Value} {cause : Fault}
    (failed : onInts operation left right = .error cause) : cause.kind.IsOrdinary := by
  unfold onInts at failed
  split at failed
  · cases failed
  · cases failed
    exact .inr (.inl rfl)
  · cases failed
    exact .inr (.inl rfl)

/-- Only an assertion on one argument fails other than by arity, type or an unknown name. -/
theorem applyNamed_error {name : Name} {arguments : List Value} {cause : Fault}
    (failed : applyNamed name arguments = .error cause) :
    cause.kind.IsOrdinary ∨ name = Primitive.assert.name ∧ arguments.length = 1 := by
  unfold applyNamed at failed
  split at failed
  · cases failed
    exact .inl (.inr (.inr rfl))
  · next primitive found =>
      have named : primitive.name = name := by
        simpa using List.find?_some found
      unfold apply at failed
      split at failed
      · exact .inl (onInts_error failed)
      · exact .inl (onInts_error failed)
      · exact .inl (onInts_error failed)
      · exact .inl (onInts_error failed)
      · unfold compare at failed
        split at failed
        · cases failed
        · cases failed
        · cases failed
          exact .inl (.inr (.inl rfl))
      · cases failed
      · exact .inr ⟨named.symm, rfl⟩
      · cases failed
      · cases failed
        exact .inl (.inl rfl)

end Primitive

namespace Machine

variable {start : Machine} {pc : Nat} {values : List Value} {heap : Heap} {events : List Event}

/-- A call takes the callee from the stack and goes by its kind. -/
theorem execute_call (callee : Value) (fits : values.length < Expr.operandRange) :
    (start.advance pc (values ++ [callee]) heap events).execute
        (.call (Expr.word values.length)) =
      match callee.onMachine with
      | .builtin name _ => (start.advance pc values heap events).callBuiltin name values.length
      | .closure handle arity =>
          (start.advance pc values heap events).enter handle arity values.length
      | other => .fault (.notCallable other) (start.advance pc values heap events) := by
  have available : ¬ ((values.length : Int) < 0 ∨
      ((start.advance pc values heap events).stack.size : Int) < values.length) := by
    rw [size_advance]
    omega
  rw [execute, call, pop_advance]
  cases callee.onMachine <;>
    simp only [Expr.toInt_word fits, if_neg available, Int.toNat_natCast]

/-- The events behind what a primitive shows. -/
def shownEvents (yielded : Primitive.Yield) (events : List Event) : List Event :=
  match yielded.shown with
  | none => events
  | some value => .displayed value :: events

theorem callBuiltin_advance (name : Name) :
    (start.advance pc values heap events).callBuiltin name values.length =
      match Primitive.applyNamed name (values.map Value.onMachine) with
      | .error cause => .fault cause (start.advance pc [] heap events)
      | .ok yielded =>
          (start.advance pc [] heap (shownEvents yielded events)).push yielded.result := by
  have below : (start.advance pc values heap events).stack.size - values.length =
      start.stack.size := by
    rw [size_advance, Nat.add_sub_cancel]
  rw [callBuiltin]
  simp only [below, extract_advance, shrink_advance, advance_nil]
  cases Primitive.applyNamed name (values.map Value.onMachine) with
  | error cause => rfl
  | ok yielded =>
      obtain ⟨result, shown⟩ := yielded
      cases shown <;> rfl

end Machine

section Primitives

variable {deep : Prop} {older : List Event} {count : Nat} {evaluator : Evaluator}
  {start : Machine} {pc size : Nat} {values : List Value} {heap : Heap} {events : List Event}

/-- A call of a primitive follows the evaluation of it. -/
theorem Follows.of_primitive {name : Name} {arity : Int} {place : Position}
    (agrees : Agrees count older evaluator
      (start.advance pc (values ++ [.builtin name arity]) heap events))
    (decoded : start.code.instrAt pc = .ok (.call (Expr.word values.length), size))
    (fits : values.length < Expr.operandRange) :
    Follows deep older evaluator.failures
      (fun value => Arrived start (pc + size) older evaluator [value]) count
      (start.advance pc (values ++ [.builtin name arity]) heap events)
      (Evaluator.callBuiltin place name values evaluator) := by
  obtain ⟨laterHeap, laterEvents, stepped, prepared, same⟩ := agrees.step decoded
  rw [Machine.execute_call _ fits] at stepped
  simp only [Value.onMachine] at stepped
  rw [Machine.callBuiltin_advance, Primitive.applyNamed_onMachine] at stepped
  have bare := prepared.bare (pc + size)
  rcases Evaluator.callBuiltin_cases place name values with
    ⟨condition, rfl, rfl, called⟩ | ⟨other, called⟩
  · have checked : Primitive.applyNamed Primitive.assert.name [condition] =
        Primitive.check condition := rfl
    rw [checked] at stepped
    rw [called]
    cases condition with
    | bool flag =>
        cases flag with
        | true => exact .of_result stepped same bare (linkedValue_constant _ _ .nil) rfl
        | false => exact .asserted (Nat.lt_succ_self _) ⟨_, _, _, .of_step stepped⟩
    | _ => exact .of_fault stepped (.inr (.inl rfl)) rfl bare.prints
  · rw [called]
    unfold Evaluator.applyPrimitive
    cases applied : Primitive.applyNamed name values with
    | error cause =>
        rw [applied] at stepped
        rcases Primitive.applyNamed_error applied with ordinary | ⟨asserted, single⟩
        · exact .of_fault stepped ordinary rfl bare.prints
        · exact absurd single (other asserted)
    | ok yielded =>
        rw [applied] at stepped
        obtain ⟨result, shown⟩ := yielded
        obtain ⟨constant, rfl⟩ := Primitive.applyNamed_ok applied
        have linked : ∀ evaluator machine,
            LinkedValue evaluator machine constant.value.onMachine := by
          intro evaluator machine
          rw [constant.onMachine_value]
          exact linkedValue_constant evaluator machine constant
        cases shown with
        | none => exact .of_result stepped same bare (linked _ _) rfl
        | some value => exact .of_result stepped same (bare.display value) (linked _ _) rfl

end Primitives

/-! ## Entering a closure -/

theorem Expr.word_toNat (number : UInt32) : word number.toNat = number.toInt32 := by
  exact congrArg Int32.ofUInt32 (UInt32.ofNat_toNat)

namespace Machine

/-- Values are pushed, or the stack becomes full. -/
theorem pushAll_cases (machine : Machine) (values : List Value) :
    (∃ last, machine.pushAll values = .fault (.stackLimit machine.stackLimit) last) ∨
      machine.pushAll values = .next { machine with stack := machine.stack ++ values.toArray } ∧
        (values = [] ∨ machine.stack.size < machine.stackLimit) := by
  induction values generalizing machine with
  | nil => exact .inr ⟨by simp [pushAll], .inl rfl⟩
  | cons value rest ih =>
      rw [pushAll, push]
      split
      · exact .inl ⟨machine, rfl⟩
      · next free =>
          rcases ih { machine with stack := machine.stack.push value } with
            ⟨last, full⟩ | ⟨pushed, -⟩
          · exact .inl ⟨last, full⟩
          · refine .inr ⟨?_, .inr (Nat.not_le.mp free)⟩
            rw [Effect.andThen, pushed]
            simp

/-- A machine at the entry of a closure: behind the arguments stand the closure itself and what it
has captured, in an activation of their own. -/
def entered (start : Machine) (returnTo entry : Nat) (handle : UInt32) (arity : Int)
    (arguments captured : List Value) (heap : Heap) (events : List Event) : Machine :=
  { start.advance entry (arguments ++ .closure handle arity :: captured) heap events with
    activations :=
      ⟨returnTo, start.stack.size, arguments.length + 1 + captured.length, handle + 1⟩ ::
        start.activations }

variable {start : Machine} {pc : Nat} {values captured : List Value} {heap : Heap}
  {events : List Event} {handle : UInt32} {arity : Int} {closure : Closure}

/-- A closure is entered if it takes as many arguments, unless the stack becomes full. -/
theorem enter_cases (stored : heap.objects[handle + 1]? = some closure)
    (captures : closure.captures = captured.map Value.onMachine)
    (expected : closure.arity.toNat = values.length)
    (fits : closure.entry.toNat < Expr.operandRange)
    (inside : closure.entry.toNat ≤ start.code.size) :
    (∃ limit last, (start.advance pc values heap events).enter (handle + 1) arity values.length =
        .fault (.stackLimit limit) last) ∨
      (start.advance pc values heap events).enter (handle + 1) arity values.length =
          .next (start.entered pc closure.entry.toNat handle arity values captured heap events) ∧
        start.stack.size < start.stackLimit := by
  have got : (start.advance pc values heap events).heap.get (handle + 1) = .ok closure := by
    change heap.get (handle + 1) = _
    rw [Heap.get, stored]
  rw [enter, got]
  simp only [expected, ne_eq, not_true_eq_false, if_false, ← Expr.word_toNat,
    checkTarget_of_le (start.advance _ _ _ _) fits inside]
  rcases pushAll_cases (start.advance pc values heap events)
      (.closure (handle + 1) arity :: closure.captures) with ⟨last, full⟩ | ⟨pushed, room⟩
  · exact .inl ⟨start.stackLimit, last, by rw [full]; rfl⟩
  · refine .inr ⟨?_, ?_⟩
    · rw [pushed]
      simp [Effect.andThen, entered, advance, captures, Value.onMachine]
    · rcases room with empty | free
      · cases empty
      · rw [size_advance] at free
        exact Nat.lt_of_le_of_lt (Nat.le_add_right _ _) free

theorem enter_arity (stored : heap.objects[handle + 1]? = some closure)
    (differs : closure.arity.toNat ≠ values.length) :
    (start.advance pc values heap events).enter (handle + 1) arity values.length =
      .fault (.closureArity (handle + 1) closure.arity.toNat values.length)
        (start.advance pc values heap events) := by
  have got : (start.advance pc values heap events).heap.get (handle + 1) = .ok closure := by
    change heap.get (handle + 1) = _
    rw [Heap.get, stored]
  rw [enter, got]
  exact if_pos differs

end Machine

section Closures

variable {deep : Prop} {older : List Event} {count : Nat} {evaluator : Evaluator}
  {start : Machine} {pc size : Nat} {values : List Value} {heap : Heap} {events : List Event}
  {handle : UInt32} {arity : Int} {done : Value → Nat → Evaluator → Machine → Prop}

/-- A call of a closure follows the application of its function, if the entered closure follows
the body of the function. -/
theorem Follows.of_closure {depth : Nat}
    (agrees : Agrees count older evaluator
      (start.advance pc (values ++ [.closure handle arity]) heap events))
    (decoded : start.code.instrAt pc = .ok (.call (Expr.word values.length), size))
    (fits : values.length < Expr.operandRange)
    (body : ∀ {function entry frame captured heap events},
      BodyAt start.code evaluator.names function entry frame →
      values.length = function.parameters.length →
      frame.captures.map (fun capture => function.environment.lookup? capture.name) =
        captured.map some →
      start.stack.size < start.stackLimit →
      Agrees count older evaluator
        (start.entered (pc + size) entry handle arity values captured heap events) →
      Follows deep older evaluator.failures done count
        (start.entered (pc + size) entry handle arity values captured heap events)
        (Evaluator.enterWithin depth handle arity values function evaluator)) :
    Follows deep older evaluator.failures done count
      (start.advance pc (values ++ [.closure handle arity]) heap events)
      (Evaluator.applyWithin depth handle arity values evaluator) := by
  obtain ⟨laterHeap, laterEvents, stepped, prepared, same⟩ := agrees.step decoded
  rw [Machine.execute_call _ fits] at stepped
  simp only [Value.onMachine] at stepped
  have stacked : ∀ value ∈ start.stack.toList ++ values.map Value.onMachine ++
      [.closure (handle + 1) arity], LinkedValue evaluator
        (start.advance (pc + size) (values ++ [.closure handle arity]) laterHeap laterEvents)
        value := by
    intro value listed
    refine prepared.linked_of_stack value ?_
    rw [Machine.advance_stack, Array.toList_append, List.map_append, ← List.append_assoc]
    exact listed
  have callee : Linked evaluator.functions laterHeap.objects start.code evaluator.names
      (handle + 1) :=
    stacked _ (List.mem_append_right _ List.mem_cons_self) _ arity rfl
  cases callee with
  | @intro _ function closure frame captured defined stored placed expected captures bound linked =>
      rw [UInt32.add_sub_cancel] at defined
      rw [Evaluator.applyWithin_of_getElem? defined]
      by_cases differs : values.length ≠ function.parameters.length
      · rw [if_pos differs]
        rw [Machine.enter_arity stored (expected ▸ differs.symm)] at stepped
        exact .of_fault stepped (.inl rfl) rfl (prepared.drop (pc + size)).prints
      · rw [if_neg differs]
        have equal := Decidable.not_not.mp differs
        obtain ⟨-, -, -, -, -, code, small⟩ := id placed
        rcases Machine.enter_cases stored captures (expected.trans equal.symm) small
            (Nat.le_trans (Nat.le_add_right _ _) code.stop_le) with
          ⟨limit, last, full⟩ | ⟨entered, room⟩
        · rw [full] at stepped
          exact .strays (.inr ⟨limit, last, _, _, _, .of_step stepped⟩)
        · rw [entered] at stepped
          refine .of_step stepped same (body placed equal bound room ?_)
          refine prepared.restack rfl rfl rfl rfl rfl ?_ prepared.linked_of_result
          have layout : (start.entered (pc + size) closure.entry.toNat handle arity values captured
              laterHeap laterEvents).stack.toList =
              (start.stack.toList ++ values.map Value.onMachine ++
                [.closure (handle + 1) arity]) ++ captured.map Value.onMachine := by
            simp [Machine.entered, Value.onMachine]
          rw [layout, List.forall_mem_append]
          refine ⟨stacked, ?_⟩
          intro value listed inner innerArity same
          obtain ⟨other, otherArity, rfl, isCaptured⟩ :=
            Value.mem_handlesOf_onMachine (Value.mem_handlesOf.mpr ⟨innerArity, same ▸ listed⟩)
          exact linked other otherArity isCaptured

end Closures

/-! ## The layout of an activation -/

section Layout

variable {handle : UInt32} {arity : Int} {values captured : List Value} {function : Function}
  {frame : Frame}

/-- The layout of an activation: the slot of a name holds the value that the name has inside the
call. -/
theorem Frame.layout_of_slot? (grown : Extends ⟨function.parameters, function.self, []⟩ frame)
    (regular : frame.Regular) (equal : values.length = function.parameters.length)
    (bound : frame.captures.map (fun capture => function.environment.lookup? capture.name) =
      captured.map some) {name : Name} {slot : Nat} (found : frame.slot? name = some slot) :
    ∃ value, (values ++ .closure handle arity :: captured)[slot]? = some value ∧
      Environment.lookup? (function.scope (.closure handle arity) values :: function.environment)
        name = some value := by
  have size : frame.arity = values.length := by rw [Frame.arity, grown.parameters, equal]
  unfold slot? at found
  rw [grown.parameters, grown.self, size] at found
  unfold Environment.lookup?
  split at found
  · next index place =>
      cases found
      obtain ⟨value, listed, zipped⟩ := lookup_zip_of_idxOf? place equal
      refine ⟨value, ?_, ?_⟩
      · rw [List.getElem?_append_left (List.getElem?_eq_some_iff.mp listed).1, listed]
      · rw [List.findSome?_cons, Function.scope, List.lookup_append, zipped]
        rfl
  · next place =>
      have missing : name ∉ function.parameters := List.idxOf?_eq_none_iff.mp place
      split at found
      · next own =>
          cases found
          refine ⟨.closure handle arity, by simp, ?_⟩
          rw [List.findSome?_cons, Function.lookup_scope_of_not_mem missing, if_pos own]
      · next other =>
          obtain ⟨capture, known, rfl⟩ := Option.map_eq_some_iff.mp found
          obtain rfl : capture.name = name := by simpa using List.find?_some known
          obtain ⟨index, inside, place⟩ := List.mem_iff_getElem.mp (List.mem_of_find?_eq_some known)
          have listed : frame.captures[index]? = some capture := by
            rw [List.getElem?_eq_getElem inside, place]
          obtain ⟨value, held, looked⟩ : ∃ value, captured[index]? = some value ∧
              function.environment.lookup? capture.name = some value := by
            have same := congrArg (·[index]?) bound
            simp only [List.getElem?_map, listed, Option.map_some] at same
            obtain ⟨value, held, looked⟩ := Option.map_eq_some_iff.mp same.symm
            exact ⟨value, held, looked.symm⟩
          refine ⟨value, ?_, ?_⟩
          · rw [regular index capture listed, size, Nat.add_assoc,
              List.getElem?_append_right (Nat.le_add_right _ _), Nat.add_sub_cancel_left,
              Nat.add_comm 1, List.getElem?_cons_succ, held]
          · rw [List.findSome?_cons, Function.lookup_scope_of_not_mem missing, if_neg other]
            exact looked

/-- At the entry of a closure the slots of its frame hold the values of its scope and of the
environment it was made in. -/
theorem Window.of_entered {start : Machine} {returnTo entry : Nat} {heap : Heap}
    {events : List Event} {outer : List Frame}
    (grown : Frame.Extends ⟨function.parameters, function.self, []⟩ frame)
    (regular : frame.Regular) (equal : values.length = function.parameters.length)
    (bound : frame.captures.map (fun capture => function.environment.lookup? capture.name) =
      captured.map some) :
    Window (frame :: outer)
      (function.scope (.closure handle arity) values :: function.environment)
      (start.entered returnTo entry handle arity values captured heap events) := by
  intro name slot found
  obtain ⟨value, held, looked⟩ := Frame.layout_of_slot? grown regular equal bound found
  refine ⟨⟨returnTo, start.stack.size, values.length + 1 + captured.length, handle + 1⟩,
    start.activations, value, rfl, ?_, looked, ?_⟩
  · obtain ⟨inside, -⟩ := List.getElem?_eq_some_iff.mp held
    simp only [List.length_append, List.length_cons] at inside
    change slot < values.length + 1 + captured.length
    omega
  · change (start.stack ++ ((values ++ .closure handle arity :: captured).map
      Value.onMachine).toArray)[start.stack.size + slot]? = some value.onMachine
    rw [Array.getElem?_append_right (Nat.le_add_right _ _), Nat.add_sub_cancel_left,
      List.getElem?_toArray, List.getElem?_map, held]
    rfl

end Layout

/-! ## Leaving a closure -/

theorem Machine.leave_entered {start : Machine} {returnTo entry stop : Nat} {handle : UInt32}
    {arity : Int} {values captured : List Value} {heap laterHeap : Heap}
    {events laterEvents : List Event} (result : Value) :
    ((start.entered returnTo entry handle arity values captured heap events).advance stop
        [result] laterHeap laterEvents).leave =
      (start.advance returnTo [] laterHeap laterEvents).push result.onMachine := by
  have active : ((start.entered returnTo entry handle arity values captured heap events).advance
      stop [result] laterHeap laterEvents).activations =
      ⟨returnTo, start.stack.size, values.length + 1 + captured.length, handle + 1⟩ ::
        start.activations := rfl
  have above : ¬ ((start.entered returnTo entry handle arity values captured heap events).advance
      stop [] laterHeap laterEvents).stack.size < start.stack.size := by
    simp [entered]
  have below : ((start.entered returnTo entry handle arity values captured heap events).advance
      stop [] laterHeap laterEvents).stack.shrink start.stack.size = start.stack := by
    apply Array.ext'
    simp [entered]
  rw [leave, active]
  dsimp only
  rw [pop_advance_single, if_neg above, below, advance_nil]
  rfl

/-- A return leaves a closure with the result on top of the stack as it was before the call. -/
theorem Follows.of_ret {deep : Prop} {older : List Event} {count size : Nat}
    {evaluator former : Evaluator} {start : Machine} {returnTo entry stop : Nat}
    {handle : UInt32} {arity : Int} {values captured : List Value} {heap laterHeap : Heap}
    {events laterEvents : List Event} {result : Value}
    (agrees : Agrees count older evaluator
      ((start.entered returnTo entry handle arity values captured heap events).advance stop
        [result] laterHeap laterEvents))
    (decoded : start.code.instrAt stop = .ok (.ret, size))
    (same : evaluator.setting = former.setting) :
    Follows deep older evaluator.failures
      (fun value => Arrived start returnTo older former [value]) count
      ((start.entered returnTo entry handle arity values captured heap events).advance stop
        [result] laterHeap laterEvents)
      (.ok result evaluator) := by
  obtain ⟨lastHeap, lastEvents, stepped, prepared, made⟩ := agrees.step decoded
  have executed : ((start.entered returnTo entry handle arity values captured heap events).advance
      (stop + size) [result] lastHeap lastEvents).execute .ret =
      (start.advance returnTo [] lastHeap lastEvents).push result.onMachine :=
    Machine.leave_entered result
  rw [executed] at stepped
  have onStack : ∀ value ∈ result.onMachine :: start.stack.toList, LinkedValue evaluator
      ((start.entered returnTo entry handle arity values captured heap events).advance
        (stop + size) [result] lastHeap lastEvents) value := by
    intro value listed
    refine prepared.linked_of_stack value ?_
    simp only [Machine.advance_stack, Machine.entered, Array.toList_append, List.map_cons,
      List.map_nil, List.mem_append, List.mem_cons] at listed ⊢
    rcases listed with rfl | below
    · exact .inr (.inl rfl)
    · exact .inl (.inl below)
  obtain ⟨top, below⟩ := List.forall_mem_cons.mp onStack
  refine .of_result stepped made ?_ top same
  refine prepared.restack rfl rfl rfl rfl rfl ?_ prepared.linked_of_result
  simpa using below

end ClosureLisp
