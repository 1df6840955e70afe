import ClosureLisp.Proofs.Placement
import ClosureLisp.Proofs.Reachability
import ClosureLisp.Proofs.Runs

/-!
# Machines in lockstep

Two machines that differ in what their heaps hold beyond reach execute the same instructions to
the same effect, whatever the code is. `Machine.Alike` is the relation that every instruction
keeps. Collections only drop what no root leads to, so when they take place does not matter: a run
is the same for every threshold.

The relation also lets the one machine run a longer stream than the other and have another last
result, as long as it is not yet settled. A machine can leave the shorter stream only by a fault.
-/

namespace ClosureLisp

/-! ## Machines that differ beyond reach -/

/-- Two machines at the same point. The second one may run a longer stream, its heap may differ
from that of the first one in what neither the stack nor the globals lead to, and its last result
may be another one unless it is settled. -/
inductive Machine.Alike (short long : Code) (settled : Prop) (left : Machine) :
    Machine → Prop where
  | intro {heap : Heap} {result : Option Value} (runs : left.code = short)
      (next : heap.next = left.heap.next)
      (stack : ∀ value ∈ left.stack.toList, left.heap.SameFrom heap value)
      (globals : ∀ value ∈ left.globals.toList, left.heap.SameFrom heap value)
      (last : settled →
        result = left.result ∧ ∀ value ∈ left.result.toList, left.heap.SameFrom heap value) :
      Alike short long settled left { left with code := long, heap := heap, result := result }

/-- Two effects that keep machines alike. If the one stream is shorter, the first machine may also
stop where the second one goes on. -/
inductive Effect.Alike (short long : Code) (settled : Prop) : Effect → Effect → Prop where
  | next {left right : Machine} (alike : left.Alike short long settled right) :
      Alike short long settled (.next left) (.next right)
  | fault {left right : Machine} (cause : Fault) (alike : left.Alike short long settled right) :
      Alike short long settled (.fault cause left) (.fault cause right)
  | overrun {left right : Machine} (alike : left.Alike short long settled right) :
      Alike short long settled (.overrun left) (.overrun right)
  | astray {cause : Fault} {left : Machine} {effect : Effect} (shorter : short ≠ long) :
      Alike short long settled (.fault cause left) effect

theorem Effect.Alike.andThen {short long : Code} {settled : Prop} {first second : Effect}
    {further : Machine → Effect} (effects : first.Alike short long settled second)
    (onward : ∀ {left right : Machine}, left.Alike short long settled right →
      (further left).Alike short long settled (further right)) :
    (first.andThen further).Alike short long settled (second.andThen further) := by
  cases effects with
  | next alike => exact onward alike
  | fault cause alike => exact .fault cause alike
  | overrun alike => exact .overrun alike
  | astray shorter => exact .astray shorter

namespace Machine.Alike

variable {short long : Code} {settled : Prop} {left right : Machine}

theorem imp {other : Prop} (alike : left.Alike short long settled right)
    (implied : other → settled) : left.Alike short long other right := by
  cases alike with
  | intro runs next stack globals last =>
      exact .intro runs next stack globals fun done => last (implied done)

theorem pc_eq (alike : left.Alike short long settled right) : right.pc = left.pc := by
  cases alike with
  | intro => rfl

theorem stack_eq (alike : left.Alike short long settled right) : right.stack = left.stack := by
  cases alike with
  | intro => rfl

theorem activations_eq (alike : left.Alike short long settled right) :
    right.activations = left.activations := by
  cases alike with
  | intro => rfl

theorem events_eq (alike : left.Alike short long settled right) :
    right.events = left.events := by
  cases alike with
  | intro => rfl

theorem next_eq (alike : left.Alike short long settled right) :
    right.heap.next = left.heap.next := by
  cases alike with
  | intro _ next _ _ _ => exact next

/-- Both machines move and have the same values on their stacks. -/
theorem move (alike : left.Alike short long settled right) (pc : Nat) (stack : Array Value)
    (activations : List Activation) (events : List Event)
    (values : ∀ value ∈ stack.toList, left.heap.SameFrom right.heap value) :
    Alike short long settled
      { left with pc := pc, stack := stack, activations := activations, events := events }
      { right with pc := pc, stack := stack, activations := activations, events := events } := by
  cases alike with
  | intro runs next _ globals last => exact .intro runs next values globals last

theorem sameFrom_of_stack (alike : left.Alike short long settled right) :
    ∀ value ∈ left.stack.toList, left.heap.SameFrom right.heap value := by
  cases alike with
  | intro _ _ stack _ _ => exact stack

theorem sameFrom_of_globals (alike : left.Alike short long settled right) :
    ∀ value ∈ left.globals.toList, left.heap.SameFrom right.heap value := by
  cases alike with
  | intro _ _ _ globals _ => exact globals

/-! ## One instruction -/

/-- Both machines have a full stack or none has. -/
theorem push_cases (alike : left.Alike short long settled right) (value : Value) :
    (∃ cause, left.push value = .fault cause left ∧ right.push value = .fault cause right) ∨
      left.push value = .next { left with stack := left.stack.push value } ∧
        right.push value = .next { right with stack := left.stack.push value } := by
  cases alike with
  | intro =>
      unfold Machine.push
      dsimp only
      split
      · exact .inl ⟨_, rfl, rfl⟩
      · exact .inr ⟨rfl, rfl⟩

theorem pushed (alike : left.Alike short long settled right) {value : Value}
    (same : left.heap.SameFrom right.heap value) :
    Alike short long settled { left with stack := left.stack.push value }
      { right with stack := left.stack.push value } := by
  have values : ∀ other ∈ (left.stack.push value).toList,
      left.heap.SameFrom right.heap other := by
    intro other listed
    rcases List.mem_append.mp (Array.toList_push ▸ listed) with known | added
    · exact alike.sameFrom_of_stack other known
    · rw [List.mem_singleton.mp added]
      exact same
  cases alike with
  | intro runs next _ globals last => exact .intro runs next values globals last

theorem push (alike : left.Alike short long settled right) {value : Value}
    (same : left.heap.SameFrom right.heap value) :
    (left.push value).Alike short long settled (right.push value) := by
  rcases alike.push_cases value with ⟨cause, first, second⟩ | ⟨first, second⟩ <;>
    rw [first, second]
  · exact .fault cause alike
  · exact .next (alike.pushed same)

theorem pushAll (alike : left.Alike short long settled right) {values : List Value}
    (same : ∀ value ∈ values, left.heap.SameFrom right.heap value) :
    (left.pushAll values).Alike short long settled (right.pushAll values) := by
  induction values generalizing left right with
  | nil => exact .next alike
  | cons value rest ih =>
      obtain ⟨head, tail⟩ := List.forall_mem_cons.mp same
      rw [Machine.pushAll, Machine.pushAll]
      rcases alike.push_cases value with ⟨cause, first, second⟩ | ⟨first, second⟩ <;>
        rw [first, second]
      · exact .fault cause alike
      · exact ih (alike.pushed head) tail

theorem popped (alike : left.Alike short long settled right) :
    Alike short long settled { left with stack := left.stack.pop }
      { right with stack := right.stack.pop } := by
  cases alike with
  | intro runs next stack globals last =>
      refine .intro runs next (fun value listed => stack value ?_) globals last
      rw [Array.toList_pop] at listed
      exact (List.dropLast_sublist _).subset listed

/-- Both machines pop the same value. -/
theorem pop (alike : left.Alike short long settled right) {further : Value → Machine → Effect}
    (onward : ∀ {value : Value} {left right : Machine}, left.Alike short long settled right →
      left.heap.SameFrom right.heap value →
      (further value left).Alike short long settled (further value right)) :
    (left.pop further).Alike short long settled (right.pop further) := by
  have popped := alike.popped
  cases alike with
  | intro runs next stack globals last =>
      unfold Machine.pop
      dsimp only
      split
      · exact .fault _ (.intro runs next stack globals last)
      · next value top =>
          exact onward popped (stack value (Array.mem_toList_iff.mpr (Array.mem_of_back? top)))

/-- A target inside the shorter stream is one inside the longer stream. -/
theorem checkTarget (extended : short.toList <+: long.toList)
    (alike : left.Alike short long settled right) {target : Int32} {further : Machine → Effect}
    (onward : (further left).Alike short long settled (further right)) :
    (left.checkTarget target further).Alike short long settled
      (right.checkTarget target further) := by
  have sizes : short.size ≤ long.size := by
    rw [← Array.length_toList, ← Array.length_toList]
    exact extended.length_le
  unfold Machine.checkTarget
  cases alike with
  | intro runs next stack globals last =>
      subst runs
      by_cases inside : left.isTarget target = true
      · have further : Machine.isTarget { left with code := long } target = true := by
          simp only [isTarget, Bool.and_eq_true, decide_eq_true_eq] at inside ⊢
          omega
        rw [if_pos inside, if_pos]
        · exact onward
        · exact further
      · rw [if_neg inside]
        by_cases same : left.code = long
        · subst same
          rw [if_neg]
          · exact .fault _ (.intro rfl next stack globals last)
          · exact inside
        · exact .astray same

theorem load (alike : left.Alike short long settled right) (slot : Int32) :
    (left.load slot).Alike short long settled (right.load slot) := by
  have pushed : ∀ {value : Value}, value ∈ left.stack →
      (left.push value).Alike short long settled (right.push value) :=
    fun listed => alike.push (alike.sameFrom_of_stack _ (Array.mem_toList_iff.mpr listed))
  unfold Machine.load
  have same := alike
  cases alike with
  | intro =>
      dsimp only
      split
      · exact .fault _ same
      · split
        · exact .fault _ same
        · split
          · next held => exact pushed (Array.mem_of_getElem? held)
          · exact .overrun same

theorem loadGlobal (alike : left.Alike short long settled right) (slot : Int32) :
    (left.loadGlobal slot).Alike short long settled (right.loadGlobal slot) := by
  have pushed : ∀ {value : Value}, value ∈ left.globals →
      (left.push value).Alike short long settled (right.push value) :=
    fun listed => alike.push (alike.sameFrom_of_globals _ (Array.mem_toList_iff.mpr listed))
  unfold Machine.loadGlobal
  have same := alike
  cases alike with
  | intro =>
      dsimp only
      split
      · exact .fault _ same
      · split
        · next held => exact pushed (Array.mem_of_getElem? held)
        · exact .fault _ same

theorem atOffset (alike : left.Alike short long settled right) (pc : Nat) :
    Alike short long settled { left with pc := pc } { right with pc := pc } := by
  cases alike with
  | intro runs next stack globals last => exact .intro runs next stack globals last

theorem goTo (alike : left.Alike short long settled right) (target : Int32) :
    (left.goTo target).Alike short long settled (right.goTo target) :=
  alike.atOffset _

theorem branch (extended : short.toList <+: long.toList)
    (alike : left.Alike short long settled right) (target : Int32) :
    (left.branch target).Alike short long settled (right.branch target) := by
  refine alike.checkTarget extended (alike.pop fun alike _ => ?_)
  split
  · exact .next (alike.goTo target)
  · exact .next alike
  · exact .fault _ alike

theorem sameFrom_of_shrink (alike : left.Alike short long settled right) (base : Nat) :
    ∀ value ∈ (left.stack.shrink base).toList, left.heap.SameFrom right.heap value := by
  intro value listed
  rw [Array.toList_shrink] at listed
  exact alike.sameFrom_of_stack value (List.mem_of_mem_take listed)

theorem callBuiltin (alike : left.Alike short long settled right) (name : Name) (count : Nat) :
    (left.callBuiltin name count).Alike short long settled (right.callBuiltin name count) := by
  have shrunk := alike.sameFrom_of_shrink (left.stack.size - count)
  have moved := fun events => alike.move left.pc (left.stack.shrink (left.stack.size - count))
    left.activations events shrunk
  unfold Machine.callBuiltin
  cases alike with
  | intro =>
      dsimp only
      split
      · exact .fault _ (moved left.events)
      · next yielded applied =>
          have constant : yielded.result.handle? = none := by
            obtain ⟨constant, same⟩ := Primitive.applyNamed_ok applied
            rw [same]
            cases constant <;> rfl
          split
          · exact (moved left.events).push (.of_handle? constant)
          · exact (moved _).push (.of_handle? constant)

/-- The closure that both machines enter is the same, and so are its captures. -/
theorem enter (extended : short.toList <+: long.toList)
    (alike : left.Alike short long settled right) {handle : UInt32} {arity : Int}
    (same : left.heap.SameFrom right.heap (.closure handle arity)) (count : Nat) :
    (left.enter handle arity count).Alike short long settled (right.enter handle arity count) := by
  unfold Machine.enter
  rw [same.get]
  split
  · exact .fault _ alike
  · next closure found =>
      have stored : left.heap.objects[handle]? = some closure := by
        unfold Heap.get at found
        split at found
        · next stored =>
            cases found
            exact stored
        · cases found
      split
      · exact .fault _ alike
      · refine alike.checkTarget extended ?_
        have values : ∀ value ∈ .closure handle arity :: closure.captures,
            left.heap.SameFrom right.heap value :=
          List.forall_mem_cons.mpr ⟨same, fun value listed => same.capture stored listed⟩
        have pushed := alike.pushAll values
        cases alike with
        | intro =>
            refine pushed.andThen fun entered => ?_
            cases entered with
            | intro runs next stack globals last =>
                exact .next (.intro runs next stack globals last)

theorem call (extended : short.toList <+: long.toList)
    (alike : left.Alike short long settled right) (count : Int32) :
    (left.call count).Alike short long settled (right.call count) := by
  refine alike.pop fun {callee left right} alike same => ?_
  rw [alike.stack_eq]
  split
  · exact .fault _ alike
  · split
    · exact alike.callBuiltin _ _
    · exact alike.enter extended same _
    · exact .fault _ alike

theorem leave (alike : left.Alike short long settled right) :
    left.leave.Alike short long settled right.leave := by
  unfold Machine.leave
  rw [alike.activations_eq]
  split
  · exact .fault _ alike
  · next activation outer _ =>
      refine alike.pop fun {result left right} alike same => ?_
      rw [alike.stack_eq, alike.events_eq]
      split
      · exact .fault _ alike
      · have shrunk := alike.sameFrom_of_shrink activation.base
        exact (alike.move activation.returnTo _ outer left.events shrunk).push same

/-- With the same value as their last result, machines are settled. -/
theorem settle (alike : left.Alike short long settled right) {value : Value}
    (same : left.heap.SameFrom right.heap value) :
    Alike short long True { left with result := some value }
      { right with result := some value } := by
  cases alike with
  | intro runs next stack globals _ =>
      refine .intro runs next stack globals fun _ => ⟨rfl, ?_⟩
      exact List.forall_mem_singleton.mpr same

theorem define (alike : left.Alike short long settled right) {value : Value}
    (same : left.heap.SameFrom right.heap value) :
    Alike short long settled { left with globals := left.globals.push value }
      { right with globals := right.globals.push value } := by
  cases alike with
  | intro runs next stack globals last =>
      refine .intro runs next stack (fun other listed => ?_) last
      rcases List.mem_append.mp (Array.toList_push ▸ listed) with known | added
      · exact globals other known
      · rw [List.mem_singleton.mp added]
        exact same

/-- Both machines make the same closure and take values from their stacks for it. -/
theorem alloc (alike : left.Alike short long settled right) (base : Nat) (closure : Closure)
    (arity : Int) (captured : ∀ value ∈ closure.captures, left.heap.SameFrom right.heap value) :
    Effect.Alike short long settled
      (Machine.push
        { left with
          stack := left.stack.shrink base
          heap := (left.heap.alloc closure).2 }
        (.closure (left.heap.alloc closure).1 arity))
      (Machine.push
        { right with
          stack := left.stack.shrink base
          heap := (right.heap.alloc closure).2 }
        (.closure (right.heap.alloc closure).1 arity)) := by
  have shrunk := alike.sameFrom_of_shrink base
  cases alike with
  | @intro heap result runs next stack globals last =>
      have made : Alike short long settled
          { left with
            stack := left.stack.shrink base
            heap := (left.heap.alloc closure).2 }
          { left with
            code := long
            stack := left.stack.shrink base
            heap := (heap.alloc closure).2
            result := result } := by
        refine .intro runs (congrArg (· + 1) next) ?_ ?_ ?_
        · exact fun value listed => (shrunk value listed).alloc next captured
        · exact fun value listed => (globals value listed).alloc next captured
        · intro done
          obtain ⟨same, values⟩ := last done
          exact ⟨same, fun value listed => (values value listed).alloc next captured⟩
      have handle : (heap.alloc closure).1 = (left.heap.alloc closure).1 := next
      rw [handle]
      exact made.push (.alloc_next next captured arity)

theorem makeLambda (extended : short.toList <+: long.toList)
    (alike : left.Alike short long settled right) (entry arity captures : Int32) :
    (left.makeLambda entry arity captures).Alike short long settled
      (right.makeLambda entry arity captures) := by
  have sizes : right.stack = left.stack := by cases alike with | intro => rfl
  unfold Machine.makeLambda
  rw [sizes]
  split
  · exact .fault _ alike
  · split
    · exact .fault _ alike
    · refine alike.checkTarget extended ?_
      have captured : ∀ value ∈ (left.stack.extract
          (left.stack.size - captures.toInt.toNat) left.stack.size).toList,
          left.heap.SameFrom right.heap value := by
        intro value listed
        rw [Array.toList_extract, List.extract_eq_take_drop] at listed
        exact alike.sameFrom_of_stack value (List.mem_of_mem_drop (List.mem_of_mem_take listed))
      dsimp only
      rw [alike.stack_eq]
      exact alike.alloc _ _ _ captured

/-- Executing the same instruction keeps machines alike. -/
theorem execute (extended : short.toList <+: long.toList)
    (alike : left.Alike short long settled right) (instr : Instr) :
    (left.execute instr).Alike short long settled (right.execute instr) := by
  cases instr with
  | push constant => exact alike.push (.of_handle? (by cases constant <;> rfl))
  | pop =>
      rw [Machine.execute, Machine.execute]
      refine alike.pop fun {value left right} alike same => ?_
      have agreed := alike.settle same
      have unchanged := alike
      cases alike with
      | intro =>
          dsimp only
          split
          · exact .next (agreed.imp fun _ => True.intro)
          · exact .next unchanged
  | get slot => exact alike.load slot
  | defGlobal =>
      rw [Machine.execute, Machine.execute]
      refine alike.pop fun {value left right} alike same => .next ?_
      exact alike.define same
  | getGlobal slot => exact alike.loadGlobal slot
  | jump target =>
      rw [Machine.execute, Machine.execute]
      exact alike.checkTarget extended (.next (alike.goTo target))
  | jumpIf target => exact alike.branch extended target
  | call count => exact alike.call extended count
  | ret => exact alike.leave
  | makeLambda entry arity captures => exact alike.makeLambda extended entry arity captures

/-! ## Steps -/

/-- A collection may take place on either side. -/
theorem collectIfNeeded (alike : left.Alike short long settled right) :
    left.collectIfNeeded.Alike short long settled right.collectIfNeeded := by
  have kept : ∀ (machine : Machine) (value : Value), value ∈ machine.roots →
      machine.heap.SameFrom machine.collectIfNeeded.heap value := by
    intro machine value listed
    unfold Machine.collectIfNeeded
    split
    · exact .collect machine.heap listed
    · exact .refl _ _
  have same : ∀ machine : Machine,
      machine.collectIfNeeded = { machine with heap := machine.collectIfNeeded.heap } := by
    intro machine
    unfold Machine.collectIfNeeded
    split <;> rfl
  have passes : ∀ value, value ∈ left.roots → value ∈ right.roots →
      left.heap.SameFrom right.heap value →
      left.collectIfNeeded.heap.SameFrom right.collectIfNeeded.heap value :=
    fun value first second agreed =>
      (kept left value first).symm.trans (agreed.trans (kept right value second))
  have next := right.collectIfNeeded_next.trans
    (alike.next_eq.trans left.collectIfNeeded_next.symm)
  rw [same left, same right]
  cases alike with
  | intro runs _ stack globals last =>
      refine .intro runs next ?_ ?_ ?_
      · intro value listed
        have root := List.mem_append_left left.globals.toList listed
        exact passes value (List.mem_append_left _ root) (List.mem_append_left _ root)
          (stack value listed)
      · intro value listed
        have root := List.mem_append_right left.stack.toList listed
        exact passes value (List.mem_append_left _ root) (List.mem_append_left _ root)
          (globals value listed)
      · intro done
        obtain ⟨rfl, values⟩ := last done
        refine ⟨rfl, fun value listed => ?_⟩
        exact passes value (List.mem_append_right _ listed) (List.mem_append_right _ listed)
          (values value listed)

theorem traceInstr (alike : left.Alike short long settled right) (instr : Instr) :
    (left.traceInstr instr).Alike short long settled (right.traceInstr instr) := by
  unfold Machine.traceInstr
  cases alike with
  | intro runs next stack globals last =>
      dsimp only
      split
      · exact .intro runs next stack globals last
      · exact .intro runs next stack globals last

theorem ready (alike : left.Alike short long settled right) (instr : Instr) (size : Nat) :
    (left.ready instr size).Alike short long settled (right.ready instr size) := by
  unfold Machine.ready
  rw [alike.pc_eq]
  exact (alike.collectIfNeeded.traceInstr instr).atOffset _

theorem code_eq (alike : left.Alike short long settled right) :
    left.code = short ∧ right.code = long := by
  cases alike with
  | intro runs _ _ _ _ => exact ⟨runs, rfl⟩

theorem instrAt_eq (extended : short.toList <+: long.toList)
    (alike : left.Alike short long settled right) {found : Instr × Nat}
    (decoded : left.code.instrAt left.pc = .ok found) :
    right.code.instrAt right.pc = .ok found := by
  rw [alike.code_eq.1] at decoded
  rw [alike.code_eq.2, alike.pc_eq]
  exact Code.instrAt_of_isPrefix extended decoded

/-- As long as the machine with the shorter stream goes on, so does the other one. -/
theorem step_running (extended : short.toList <+: long.toList)
    (alike : left.Alike short long settled right) {next : Machine}
    (stepped : left.step = .running next) :
    ∃ after, right.step = .running after ∧ next.Alike short long settled after := by
  cases decoded : left.code.instrAt left.pc with
  | error error =>
      rw [Machine.step] at stepped
      split at stepped
      · simp only [collectIfNeeded_code, collectIfNeeded_pc, decoded] at stepped
        cases stepped
      · cases stepped
  | ok found =>
      obtain ⟨instr, size⟩ := found
      rw [step_of_instrAt decoded] at stepped
      rw [step_of_instrAt (alike.instrAt_eq extended decoded)]
      have effects := (alike.ready instr size).execute extended instr
      generalize (left.ready instr size).execute instr = first at effects stepped
      generalize (right.ready instr size).execute instr = second at effects
      cases effects with
      | next alike =>
          cases stepped
          exact ⟨_, rfl, alike⟩
      | fault cause alike => cases stepped
      | overrun alike => cases stepped
      | astray shorter => cases stepped

theorem givenOut_eq {other : Prop} {next after : Machine}
    (alike : left.Alike short long settled right) (later : next.Alike short long other after) :
    right.givenOut after = left.givenOut next := by
  rw [givenOut, givenOut, later.next_eq, alike.next_eq]

/-- The other machine passes through the same states and gives out the same handles. -/
theorem gives (extended : short.toList <+: long.toList)
    (alike : left.Alike short long settled right) {handles : List UInt32} {last : Machine}
    (ran : left.Gives handles last) :
    ∃ after, right.Gives handles after ∧ last.Alike short long settled after := by
  induction ran generalizing right with
  | refl => exact ⟨right, .refl right, alike⟩
  | @step machine next last handles stepped _ ih =>
      obtain ⟨middle, again, stillAlike⟩ := alike.step_running extended stepped
      obtain ⟨after, rest, finallyAlike⟩ := ih stillAlike
      rw [← alike.givenOut_eq stillAlike]
      exact ⟨after, .step again rest, finallyAlike⟩

/-- A value that is popped at top level settles the last result. -/
theorem execute_pop (alike : left.Alike short long settled right)
    (outermost : left.activations = []) {next : Machine}
    (executed : left.execute .pop = .next next) :
    ∃ after, right.execute .pop = .next after ∧ next.Alike short long True after := by
  have popped := alike.popped
  have held := alike.sameFrom_of_stack
  rw [Machine.execute, Machine.pop] at executed ⊢
  cases alike with
  | intro runs _ _ _ _ =>
      dsimp only
      cases top : left.stack.back? with
      | none =>
          rw [top] at executed
          cases executed
      | some value =>
          rw [top] at executed
          dsimp only at executed ⊢
          split at executed
          · cases executed
            refine ⟨_, ?_,
              popped.settle (held value (Array.mem_toList_iff.mpr (Array.mem_of_back? top)))⟩
            simp only [outermost]
          · next active =>
              rw [outermost] at active
              cases active

/-- The same for a step. -/
theorem gives_pop (extended : short.toList <+: long.toList)
    (alike : left.Alike short long settled right) {next : Machine} {size : Nat}
    (decoded : left.code.instrAt left.pc = .ok (.pop, size)) (outermost : left.activations = [])
    (stepped : left.step = .running next) :
    ∃ after, right.Gives (left.givenOut next ++ []) after ∧ next.Alike short long True after := by
  have bare : (left.ready .pop size).activations = [] := by rw [ready_activations, outermost]
  have again := step_of_instrAt (alike.instrAt_eq extended decoded)
  rw [step_of_instrAt decoded] at stepped
  cases executed : (left.ready .pop size).execute .pop with
  | next machine =>
      rw [executed] at stepped
      cases stepped
      obtain ⟨after, popped, settled⟩ := (alike.ready .pop size).execute_pop bare executed
      rw [popped] at again
      rw [← alike.givenOut_eq settled]
      exact ⟨after, .single again, settled⟩
  | fault cause machine =>
      rw [executed] at stepped
      cases stepped
  | overrun machine =>
      rw [executed] at stepped
      cases stepped

/-- Between two runs the machine with the shorter stream may be given another one. -/
theorem prepare (alike : left.Alike short long settled right) (stack : left.stack = #[])
    (activations : left.activations = []) (other : Code) :
    (left.prepare other left.pc).Alike other long False right := by
  cases alike with
  | @intro heap result runs next _ globals _ =>
      have same : { left with code := long, heap := heap, result := result } =
          { left.prepare other left.pc with code := long, heap := heap, result := result } := by
        simp [Machine.prepare, stack, activations]
      rw [same]
      exact .intro rfl next (fun _ listed => absurd listed List.not_mem_nil) globals False.elim

end Machine.Alike

/-! ## Runs with different thresholds -/

namespace Machine

variable {code : Code} {left right : Machine}

theorem Alike.finalValue_eq {short long : Code} (alike : left.Alike short long True right) :
    right.finalValue = left.finalValue := by
  cases alike with
  | intro _ _ _ _ last =>
      obtain ⟨rfl, -⟩ := last True.intro
      rfl

/-- Two steps that both go on, or both halt in the same way. -/
inductive SameProgress (code : Code) : Progress → Progress → Prop where
  | running {left right : Machine} (alike : left.Alike code code True right) :
      SameProgress code (.running left) (.running right)
  | halted {left right : Machine} (halt : Halt) (alike : left.Alike code code True right) :
      SameProgress code (.halted halt left) (.halted halt right)

/-- Settled machines with the same stream take the same step. -/
theorem Alike.step (alike : left.Alike code code True right) :
    SameProgress code left.step right.step := by
  cases decoded : left.code.instrAt left.pc with
  | error error =>
      have again : right.code.instrAt right.pc = .error error := by
        rw [alike.code_eq.2, alike.pc_eq, ← alike.code_eq.1]
        exact decoded
      rw [Machine.step, Machine.step, alike.code_eq.2, alike.pc_eq, alike.code_eq.1]
      split
      · simp only [collectIfNeeded_code, collectIfNeeded_pc, decoded, again]
        exact .halted _ alike.collectIfNeeded
      · rw [alike.finalValue_eq]
        exact .halted _ alike
  | ok found =>
      obtain ⟨instr, size⟩ := found
      have again : right.code.instrAt right.pc = .ok (instr, size) := by
        rw [alike.code_eq.2, alike.pc_eq, ← alike.code_eq.1]
        exact decoded
      rw [step_of_instrAt decoded, step_of_instrAt again, alike.pc_eq]
      have effects := (alike.ready instr size).execute (List.prefix_refl _) instr
      generalize (left.ready instr size).execute instr = first at effects
      generalize (right.ready instr size).execute instr = second at effects
      cases effects with
      | next alike => exact .running alike
      | fault cause alike => exact .halted _ alike
      | overrun alike => exact .halted _ alike
      | astray shorter => exact absurd rfl shorter

/-- The instructions that a run with the given fuel executes, each with the offset where it
stands. -/
def executed : (fuel : Nat) → Machine → List (Nat × Instr)
  | 0, _ => []
  | fuel + 1, machine =>
      match machine.code.instrAt machine.pc with
      | .error _ => []
      | .ok (instr, _) =>
          (machine.pc, instr) ::
            match machine.step with
            | .halted _ _ => []
            | .running next => executed fuel next

theorem Alike.executed_eq (alike : left.Alike code code True right) (fuel : Nat) :
    executed fuel left = executed fuel right := by
  induction fuel generalizing left right with
  | zero => rfl
  | succ fuel ih =>
      rw [executed, executed, alike.code_eq.2, alike.pc_eq, ← alike.code_eq.1]
      split
      · rfl
      · have steps := alike.step
        generalize left.step = first at steps
        generalize right.step = second at steps
        cases steps with
        | running alike => exact congrArg (_ :: ·) (ih alike)
        | halted halt alike => rfl

theorem Alike.run (alike : left.Alike code code True right) (fuel : Nat) :
    (Machine.run fuel left).1 = (Machine.run fuel right).1 ∧
      (Machine.run fuel left).2.Alike code code True (Machine.run fuel right).2 := by
  induction fuel generalizing left right with
  | zero => exact ⟨rfl, alike⟩
  | succ fuel ih =>
      rw [Machine.run, Machine.run]
      have steps := alike.step
      generalize left.step = first at steps
      generalize right.step = second at steps
      cases steps with
      | running alike => exact ih alike
      | halted halt alike => exact ⟨rfl, alike⟩

/-- Two machines that differ at most in the garbage on their heaps: in the closures that neither
the stack nor the globals nor the last result lead to. -/
structure SameButGarbage (left right : Machine) : Prop where
  stackLimit : left.stackLimit = right.stackLimit
  trace : left.trace = right.trace
  code : left.code = right.code
  pc : left.pc = right.pc
  stack : left.stack = right.stack
  activations : left.activations = right.activations
  globals : left.globals = right.globals
  result : left.result = right.result
  events : left.events = right.events
  next : left.heap.next = right.heap.next
  reached : ∀ handle,
    left.heap.Reaches left.roots handle ↔ right.heap.Reaches right.roots handle
  objects : ∀ handle, left.heap.Reaches left.roots handle →
    left.heap.objects[handle]? = right.heap.objects[handle]?

theorem Alike.sameButGarbage (alike : left.Alike code code True right) :
    left.SameButGarbage right := by
  cases alike with
  | intro runs next stack globals last =>
      obtain ⟨rfl, values⟩ := last True.intro
      have agreed : ∀ value ∈ left.roots, left.heap.SameFrom _ value :=
        List.forall_mem_append.mpr ⟨List.forall_mem_append.mpr ⟨stack, globals⟩, values⟩
      exact ⟨rfl, rfl, runs, rfl, rfl, rfl, rfl, rfl, rfl, next.symm,
        fun _ => Heap.reaches_iff_of_sameFrom agreed, fun _ => Heap.getElem?_of_sameFrom agreed⟩

/-- A machine with another threshold for collections. -/
def withThreshold (machine : Machine) (threshold : Int) : Machine :=
  { machine with heap := { machine.heap with threshold := threshold } }

/-- The instructions that a run of code from an offset executes. -/
def executedFrom (fuel : Nat) (machine : Machine) (code : Code) (start : Int) :
    List (Nat × Instr) :=
  if start < 0 ∨ code.size < start then [] else executed fuel (machine.prepare code start.toNat)

/-- When collections take place cannot be observed. Whatever the code, the start and the machine,
runs with two thresholds execute the same instructions, step for step, halt in the same way or go
on both, and leave machines that differ in garbage only. -/
theorem runFrom_sameButGarbage (machine : Machine) (code : Code) (start : Int)
    (first second : Int) (fuel : Nat) :
    executedFrom fuel (machine.withThreshold first) code start =
        executedFrom fuel (machine.withThreshold second) code start ∧
      ((machine.withThreshold first).runFrom fuel code start).1 =
        ((machine.withThreshold second).runFrom fuel code start).1 ∧
      ((machine.withThreshold first).runFrom fuel code start).2.SameButGarbage
        ((machine.withThreshold second).runFrom fuel code start).2 := by
  have alike : ((machine.withThreshold first).prepare code start.toNat).Alike code code True
      ((machine.withThreshold second).prepare code start.toNat) :=
    .intro rfl rfl (fun _ _ _ _ => rfl) (fun _ _ _ _ => rfl) fun _ => ⟨rfl, fun _ _ _ _ => rfl⟩
  unfold executedFrom runFrom
  dsimp only
  split
  · exact ⟨rfl, rfl, alike.sameButGarbage⟩
  · exact ⟨alike.executed_eq fuel, (alike.run fuel).1, (alike.run fuel).2.sameButGarbage⟩

end Machine

end ClosureLisp
