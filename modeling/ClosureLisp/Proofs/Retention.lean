import ClosureLisp.Proofs.Reachability
import ClosureLisp.Proofs.Runs

/-!
# What every run keeps

Whatever code a machine runs and however the run ends, its globals are only appended to, every
closure they led to is kept, and handles are given out in order. `Machine.execute_evolves` says
once what an instruction can do to globals and heap; the rest follows from it.
-/

namespace ClosureLisp

/-- The machine of an effect has a property, however the effect ends. -/
def Effect.Ensures (holds : Machine → Prop) : Effect → Prop
  | .next machine => holds machine
  | .fault _ machine => holds machine
  | .overrun machine => holds machine

theorem Effect.Ensures.andThen {holds wanted : Machine → Prop} {effect : Effect}
    {further : Machine → Effect} (first : effect.Ensures holds)
    (stopped : ∀ machine, holds machine → wanted machine)
    (onward : ∀ machine, holds machine → (further machine).Ensures wanted) :
    (effect.andThen further).Ensures wanted := by
  cases effect with
  | next machine => exact onward machine first
  | fault cause machine => exact stopped machine first
  | overrun machine => exact stopped machine first

/-- The machine after a step. -/
def Progress.machine : Progress → Machine
  | .running machine => machine
  | .halted _ machine => machine

namespace Machine

/-- What an instruction can do: the settings and the code stay, globals are appended, and at most
one closure is made. -/
structure Evolves (before after : Machine) : Prop where
  code : after.code = before.code
  trace : after.trace = before.trace
  stackLimit : after.stackLimit = before.stackLimit
  globals : before.globals.toList <+: after.globals.toList
  heap : after.heap = before.heap ∨ ∃ closure, after.heap = (before.heap.alloc closure).2

section Instructions

variable {start machine : Machine}

theorem Evolves.refl (machine : Machine) : Evolves machine machine :=
  ⟨rfl, rfl, rfl, List.prefix_refl _, .inl rfl⟩

theorem push_ensures (evolves : Evolves start machine) (value : Value) :
    (machine.push value).Ensures (Evolves start) := by
  unfold push
  split
  · exact evolves
  · exact ⟨evolves.code, evolves.trace, evolves.stackLimit, evolves.globals, evolves.heap⟩

theorem pushAll_ensures (evolves : Evolves start machine) (values : List Value) :
    (machine.pushAll values).Ensures (Evolves start) := by
  induction values generalizing machine with
  | nil => exact evolves
  | cons value rest ih =>
      exact (push_ensures evolves value).andThen (fun _ => id) fun _ evolved => ih evolved

theorem pop_ensures {further : Value → Machine → Effect} (evolves : Evolves start machine)
    (onward : ∀ value machine, Evolves start machine →
      (further value machine).Ensures (Evolves start)) :
    (machine.pop further).Ensures (Evolves start) := by
  unfold pop
  split
  · exact evolves
  · exact onward _ _
      ⟨evolves.code, evolves.trace, evolves.stackLimit, evolves.globals, evolves.heap⟩

theorem checkTarget_ensures {further : Machine → Effect} {target : Int32}
    (evolves : Evolves start machine)
    (onward : (further machine).Ensures (Evolves start)) :
    (machine.checkTarget target further).Ensures (Evolves start) := by
  unfold checkTarget
  split
  · exact onward
  · exact evolves

theorem Evolves.goTo (evolves : Evolves start machine) (target : Int32) :
    Evolves start (machine.goTo target) :=
  ⟨evolves.code, evolves.trace, evolves.stackLimit, evolves.globals, evolves.heap⟩

theorem callBuiltin_ensures (evolves : Evolves start machine) (name : Name) (count : Nat) :
    (machine.callBuiltin name count).Ensures (Evolves start) := by
  have shrunk : ∀ events stack, Evolves start { machine with stack := stack, events := events } :=
    fun _ _ =>
      ⟨evolves.code, evolves.trace, evolves.stackLimit, evolves.globals, evolves.heap⟩
  unfold callBuiltin
  dsimp only
  split
  · exact shrunk _ _
  · split
    · exact push_ensures (shrunk _ _) _
    · exact push_ensures (shrunk _ _) _

theorem enter_ensures (evolves : Evolves start machine) (handle : UInt32) (arity : Int)
    (count : Nat) : (machine.enter handle arity count).Ensures (Evolves start) := by
  unfold enter
  split
  · exact evolves
  · split
    · exact evolves
    · refine checkTarget_ensures evolves ?_
      refine (pushAll_ensures evolves _).andThen (fun _ => id) fun _ evolved => ?_
      exact ⟨evolved.code, evolved.trace, evolved.stackLimit, evolved.globals, evolved.heap⟩

theorem call_ensures (evolves : Evolves start machine) (count : Int32) :
    (machine.call count).Ensures (Evolves start) := by
  refine pop_ensures evolves fun callee machine evolved => ?_
  split
  · exact evolved
  · split
    · exact callBuiltin_ensures evolved _ _
    · exact enter_ensures evolved _ _ _
    · exact evolved

theorem leave_ensures (evolves : Evolves start machine) :
    machine.leave.Ensures (Evolves start) := by
  unfold leave
  split
  · exact evolves
  · refine pop_ensures evolves fun result machine evolved => ?_
    split
    · exact evolved
    · refine push_ensures ?_ result
      exact ⟨evolved.code, evolved.trace, evolved.stackLimit, evolved.globals, evolved.heap⟩

theorem makeLambda_ensures (machine : Machine) (entry arity captures : Int32) :
    (machine.makeLambda entry arity captures).Ensures (Evolves machine) := by
  unfold makeLambda
  split
  · exact .refl machine
  · split
    · exact .refl machine
    · refine checkTarget_ensures (.refl machine) ?_
      refine push_ensures ?_ _
      exact ⟨rfl, rfl, rfl, List.prefix_refl _, .inr ⟨_, rfl⟩⟩

/-- What executing an instruction can do. -/
theorem execute_evolves (machine : Machine) (instr : Instr) :
    (machine.execute instr).Ensures (Evolves machine) := by
  have same := Evolves.refl machine
  cases instr with
  | push constant => exact push_ensures same _
  | pop =>
      rw [execute]
      refine pop_ensures same fun value machine evolved => ?_
      split
      · exact ⟨evolved.code, evolved.trace, evolved.stackLimit, evolved.globals, evolved.heap⟩
      · exact evolved
  | get slot =>
      rw [execute, load]
      split
      · exact same
      · split
        · exact same
        · split
          · exact push_ensures same _
          · exact same
  | defGlobal =>
      rw [execute]
      refine pop_ensures same fun value machine evolved => ?_
      refine ⟨evolved.code, evolved.trace, evolved.stackLimit, ?_, evolved.heap⟩
      rw [Array.toList_push]
      exact evolved.globals.trans (List.prefix_append _ _)
  | getGlobal slot =>
      rw [execute, loadGlobal]
      split
      · exact same
      · split
        · exact push_ensures same _
        · exact same
  | jump target =>
      rw [execute]
      refine checkTarget_ensures same ?_
      exact same.goTo target
  | jumpIf target =>
      rw [execute, branch]
      refine checkTarget_ensures same ?_
      refine pop_ensures same fun value machine evolved => ?_
      split
      · exact evolved.goTo target
      · exact evolved
      · exact evolved
  | call count => exact call_ensures same count
  | ret => exact leave_ensures same
  | makeLambda entry arity captures => exact makeLambda_ensures machine entry arity captures

end Instructions

/-! ## Steps -/

theorem Evolves.of_ready {machine after : Machine} {instr : Instr} {size : Nat}
    (evolves : Evolves (machine.ready instr size) after) :
    Evolves machine.collectIfNeeded after := by
  have same : ∀ other : Machine, other.traceInstr instr = other ∨
      ∃ events, other.traceInstr instr = { other with events := events } := by
    intro other
    unfold traceInstr
    split
    · exact .inr ⟨_, rfl⟩
    · exact .inl rfl
  unfold ready at evolves
  rcases same machine.collectIfNeeded with noted | ⟨events, noted⟩ <;> rw [noted] at evolves <;>
    exact ⟨evolves.code, evolves.trace, evolves.stackLimit, evolves.globals, evolves.heap⟩

/-- A step collects the heap if need be and executes one instruction, unless the code has come to
its end. -/
theorem step_evolves (machine : Machine) :
    machine.step.machine = machine ∨ Evolves machine.collectIfNeeded machine.step.machine := by
  cases decoded : machine.code.instrAt machine.pc with
  | ok found =>
      obtain ⟨instr, size⟩ := found
      have evolves := execute_evolves (machine.ready instr size) instr
      rw [step_of_instrAt decoded]
      cases executed : (machine.ready instr size).execute instr <;> rw [executed] at evolves <;>
        exact .inr evolves.of_ready
  | error error =>
      rw [step]
      split
      · simp only [collectIfNeeded_code, collectIfNeeded_pc, decoded]
        exact .inr (.refl _)
      · exact .inl rfl

/-- What no step changes, no run changes. -/
theorem run_keeps {α : Type} {field : Machine → α}
    (kept : ∀ machine : Machine, field machine.step.machine = field machine) (machine : Machine)
    (fuel : Nat) : field (run fuel machine).2 = field machine := by
  induction fuel generalizing machine with
  | zero => rfl
  | succ fuel ih =>
      have stepped := kept machine
      rw [run]
      cases progress : machine.step with
      | halted halt last =>
          rw [progress] at stepped
          exact stepped
      | running next =>
          rw [progress] at stepped
          exact (ih next).trans stepped

/-- The handles that a machine has given out are the first ones. -/
structure Numbered (count : Nat) (machine : Machine) : Prop where
  next : machine.heap.next = UInt32.ofNat count + 1
  below : ∀ {handle : UInt32} {closure : Closure},
    machine.heap.objects[handle]? = some closure → handle.toNat ≤ count

/-- What a machine has kept of a former state after making closures. -/
structure Retains (before : Machine) (count : Nat) (after : Machine) : Prop where
  trace : after.trace = before.trace
  globals : before.globals.toList <+: after.globals.toList
  numbered : after.Numbered count
  kept : ∀ {handle : UInt32} {closure : Closure},
    before.heap.Reaches before.globals.toList handle →
      before.heap.objects[handle]? = some closure → after.heap.objects[handle]? = some closure

namespace Retains

variable {before machine after : Machine} {count : Nat}

theorem refl (numbered : machine.Numbered count) : Retains machine count machine :=
  ⟨rfl, List.prefix_refl _, numbered, fun _ => id⟩

/-- What the old globals led to, the roots lead to still. -/
theorem reaches (retains : Retains before count machine) {handle : UInt32}
    (reached : before.heap.Reaches before.globals.toList handle) :
    machine.heap.Reaches machine.roots handle := by
  induction reached with
  | root listed =>
      obtain ⟨arity, member⟩ := Value.mem_handlesOf.mp listed
      refine Table.Reaches.root (Value.mem_handlesOf.mpr ⟨arity, ?_⟩)
      refine List.mem_append_left _ (List.mem_append_right _ ?_)
      exact retains.globals.subset member
  | step reached found referred ih =>
      exact Table.Reaches.step ih (retains.kept reached found) referred

theorem collect (retains : Retains before count machine) :
    Retains before count machine.collectIfNeeded := by
  unfold collectIfNeeded
  split
  · have next := (machine.heap.next_collect machine.roots).trans retains.numbered.next
    refine ⟨retains.trace, retains.globals, ⟨next, fun found => ?_⟩, ?_⟩
    · exact retains.numbered.below ((Heap.getElem?_collect_iff _ _ _ _).mp found).1
    · intro handle closure reached found
      refine (Heap.getElem?_collect_iff _ _ _ _).mpr ⟨retains.kept reached found, ?_⟩
      exact retains.reaches reached
  · exact retains

theorem evolve (retains : Retains before count machine) (evolves : Evolves machine after)
    (room : count + machine.made after < handleRange) :
    Retains before (count + machine.made after) after := by
  have globals := retains.globals.trans evolves.globals
  have trace := evolves.trace.trans retains.trace
  rcases evolves.heap with same | ⟨closure, allocated⟩
  · have none : machine.made after = 0 := by rw [made, same, if_pos rfl]
    rw [none]
    refine ⟨trace, globals, ⟨same ▸ retains.numbered.next, ?_⟩, ?_⟩
    · rw [same]
      exact retains.numbered.below
    · rw [same]
      exact retains.kept
  · have next : after.heap.next = machine.heap.next + 1 := congrArg Heap.next allocated
    have one : machine.made after = 1 := by
      rw [made, next, if_neg (by simp)]
    rw [one] at room ⊢
    have fresh : machine.heap.next.toNat = count + 1 := by
      rw [retains.numbered.next, ← UInt32.ofNat_one, ← UInt32.ofNat_add]
      exact UInt32.toNat_ofNat_of_lt room
    refine ⟨trace, globals, ⟨?_, ?_⟩, ?_⟩
    · rw [next, retains.numbered.next, UInt32.ofNat_add]
      rfl
    · intro handle known found
      rw [allocated, Heap.alloc, Std.TreeMap.getElem?_insert] at found
      split at found
      · next same =>
          rw [← Std.LawfulEqCmp.eq_of_compare same]
          exact Nat.le_of_eq fresh
      · exact Nat.le_succ_of_le (retains.numbered.below found)
    · intro handle known reached found
      have old := retains.kept reached found
      have other : machine.heap.next ≠ handle := by
        rintro rfl
        have below := retains.numbered.below old
        rw [fresh] at below
        exact Nat.not_succ_le_self _ below
      simpa [allocated, Heap.alloc, Std.TreeMap.getElem?_insert, other] using old

theorem step (retains : Retains before count machine)
    (room : count + machine.made machine.step.machine < handleRange) :
    Retains before (count + machine.made machine.step.machine) machine.step.machine := by
  rcases machine.step_evolves with same | evolves
  · rw [same, made, if_pos rfl]
    exact retains
  · have made : machine.collectIfNeeded.made machine.step.machine =
        machine.made machine.step.machine := by
      rw [Machine.made, Machine.made, collectIfNeeded_next]
    rw [← made] at room ⊢
    exact retains.collect.evolve evolves room

/-- However a run ends or is broken off, the closures that its globals led to are kept. -/
theorem run (retains : Retains before count machine) {fuel : Nat}
    (room : count + closuresMade fuel machine < handleRange) :
    Retains before (count + closuresMade fuel machine) (Machine.run fuel machine).2 := by
  induction fuel generalizing count machine with
  | zero => exact retains
  | succ fuel ih =>
      have stepped := retains.step
      rw [closuresMade] at room ⊢
      rw [Machine.run]
      cases progress : machine.step with
      | halted halt last =>
          rw [progress] at stepped room
          exact stepped room
      | running next =>
          rw [progress] at stepped room
          simp only at room ⊢
          rw [← Nat.add_assoc] at room ⊢
          exact ih (stepped (Nat.lt_of_le_of_lt (Nat.le_add_right _ _) room)) room

end Retains

end Machine

end ClosureLisp
