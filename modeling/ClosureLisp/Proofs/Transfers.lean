import ClosureLisp.Proofs.Calls
import ClosureLisp.Proofs.Confinement
import ClosureLisp.Proofs.Decoding

/-!
# Where control goes

`Machine.execute_yields` says once what executing an instruction can come to: what it finds on the
stack, where control goes on, which activations are open then and which closure has been made. From
this it follows that code which passes verification only ever runs what its linear decoding lists:
control, the places to return to and the entries of closures stay where an instruction starts.
-/

namespace ClosureLisp

/-- The places that an instruction names: where it jumps to or where its closure is entered. -/
def Instr.targets : Instr → List Int32
  | .jump target | .jumpIf target => [target]
  | .makeLambda entry _ _ => [entry]
  | _ => []

namespace Machine

/-! ## What an instruction can do -/

/-- Control is the same: at most the stack, the globals, the last result and what is printed
differ. -/
structure Keeps (before after : Machine) : Prop where
  code : after.code = before.code
  pc : after.pc = before.pc
  activations : after.activations = before.activations
  heap : after.heap = before.heap

/-- Where control goes on behind an instruction: to the next one, to a target of the instruction,
into a closure, or back out of one; or a closure is made on the way. -/
inductive Moves (instr : Instr) (before after : Machine) : Prop where
  | stays (keeps : before.Keeps after)
  | jumps {target : Int32} (jump : instr = .jump target ∨ instr = .jumpIf target)
      (keeps : (before.goTo target).Keeps after)
  | enters {handle : UInt32} {closure : Closure} {activation : Activation}
      (stored : before.heap.objects[handle]? = some closure)
      (returns : activation.returnTo = before.pc)
      (filled : after.stack.size = activation.base + activation.locals)
      (keeps : Keeps
        { before with
          activations := activation :: before.activations
          pc := closure.entry.toNat } after)
  | leaves {activation : Activation} {outer : List Activation}
      (current : before.activations = activation :: outer)
      (keeps : Keeps { before with activations := outer, pc := activation.returnTo } after)
  | makes {entry arity captures : Int32} (values : List Value)
      (making : instr = .makeLambda entry arity captures)
      (keeps : Keeps
        { before with
          heap := (before.heap.alloc ⟨arity.toUInt32, values, entry.toUInt32⟩).2 } after)

/-- All that an instruction takes from the stack stands on it: what it takes off the top, the local
that it loads, and what it cuts the stack down to. -/
def Supplies (machine : Machine) : Instr → Prop
  | .push _ | .getGlobal _ | .jump _ => True
  | .pop | .defGlobal | .jumpIf _ => 0 < machine.stack.size
  | .get slot => 0 ≤ slot.toInt ∧ ∃ activation ∈ machine.activations.head?,
      activation.base + slot.toInt.toNat < machine.stack.size
  | .call count => 0 ≤ count.toInt ∧ count.toInt < machine.stack.size
  | .ret => ∃ activation ∈ machine.activations.head?, activation.base < machine.stack.size
  | .makeLambda _ _ captures => 0 ≤ captures.toInt ∧ captures.toInt ≤ machine.stack.size

/-- A place where an instruction could send control: it names the place itself, or a closure on the
heap is entered there. -/
def Aims (machine : Machine) (instr : Instr) (target : Int32) : Prop :=
  target ∈ instr.targets ∨ ∃ (handle : UInt32) (closure : Closure),
    machine.heap.objects[handle]? = some closure ∧ target = closure.entry.toInt32

/-- A local slot counts among those of the current activation, but the stack ends below it. -/
structure Lacks (machine : Machine) (activation : Activation) (outer : List Activation)
    (slot : Int32) : Prop where
  current : machine.activations = activation :: outer
  nonnegative : 0 ≤ slot.toInt
  counted : slot.toInt < activation.locals
  missing : machine.stack.size ≤ activation.base + slot.toInt.toNat

/-- What executing an instruction can come to. Only a load of a local can overrun, and a jump is bad
only if the instruction or a closure aims at a place outside the code. -/
inductive Yields (machine : Machine) (instr : Instr) : Effect → Prop where
  | next {after : Machine} (supplied : machine.Supplies instr) (moves : machine.Moves instr after) :
      Yields machine instr (.next after)
  | fault {cause : Fault} {after : Machine} (moves : machine.Moves instr after)
      (blamed : cause.kind = .badJump →
        ∃ target, machine.Aims instr target ∧ machine.isTarget target = false) :
      Yields machine instr (.fault cause after)
  | overrun {slot : Int32} {activation : Activation} {outer : List Activation}
      (load : instr = .get slot) (lacks : machine.Lacks activation outer slot) :
      Yields machine instr (.overrun machine)

end Machine

/-- An effect that leaves control where a machine has it. -/
def Effect.Stays (machine : Machine) : Effect → Prop
  | .next after => machine.Keeps after
  | .fault cause after => machine.Keeps after ∧ cause.kind ≠ .badJump
  | .overrun _ => False

namespace Heap

variable {heap : Heap} {handle : UInt32}

theorem get_eq_ok {closure : Closure} (found : heap.get handle = .ok closure) :
    heap.objects[handle]? = some closure := by
  unfold get at found
  split at found
  · next stored =>
      cases found
      exact stored
  · cases found

theorem get_eq_error {cause : Fault} (missing : heap.get handle = .error cause) :
    cause = .unknownHandle handle := by
  unfold get at missing
  split at missing <;> cases missing
  rfl

end Heap

/-- A primitive does not jump. -/
theorem Primitive.kind_ne_badJump {name : Name} {arguments : List Value} {cause : Fault}
    (failed : applyNamed name arguments = .error cause) : cause.kind ≠ .badJump := by
  rcases applyNamed_error failed with (arity | type | callable) | ⟨rfl, single⟩
  · simp [arity]
  · simp [type]
  · simp [callable]
  · obtain ⟨condition, rfl⟩ := List.length_eq_one_iff.mp single
    have checked : check condition = .error cause := failed
    unfold check at checked
    split at checked <;> cases checked <;> nofun

namespace Machine

section Instructions

variable {start machine : Machine} {instr : Instr}

theorem Keeps.refl (machine : Machine) : machine.Keeps machine :=
  ⟨rfl, rfl, rfl, rfl⟩

theorem Keeps.isTarget_eq (keeps : start.Keeps machine) (target : Int32) :
    machine.isTarget target = start.isTarget target := by
  rw [isTarget, isTarget, keeps.code]

theorem push_stays (keeps : start.Keeps machine) (value : Value) :
    (machine.push value).Stays start := by
  unfold push
  split
  · exact ⟨keeps, nofun⟩
  · exact ⟨keeps.code, keeps.pc, keeps.activations, keeps.heap⟩

theorem pushAll_stays (keeps : start.Keeps machine) (values : List Value) :
    (machine.pushAll values).Stays start := by
  induction values generalizing machine with
  | nil => exact keeps
  | cons value rest ih =>
      have first := push_stays keeps value
      rw [pushAll]
      cases effect : machine.push value with
      | next pushed =>
          rw [effect] at first
          exact ih first
      | fault cause stopped =>
          rw [effect] at first
          exact first
      | overrun stopped =>
          rw [effect] at first
          exact first.elim

theorem callBuiltin_stays (keeps : start.Keeps machine) (name : Name) (count : Nat) :
    (machine.callBuiltin name count).Stays start := by
  have shrunk : ∀ events stack, start.Keeps { machine with stack := stack, events := events } :=
    fun _ _ => ⟨keeps.code, keeps.pc, keeps.activations, keeps.heap⟩
  unfold callBuiltin
  dsimp only
  split
  · next cause failed => exact ⟨shrunk _ _, Primitive.kind_ne_badJump failed⟩
  · split
    · exact push_stays (shrunk _ _) _
    · exact push_stays (shrunk _ _) _

namespace Yields

/-- A fault that is no bad jump and leaves control as it is. -/
theorem of_fault {cause : Fault} (keeps : start.Keeps machine) (other : cause.kind ≠ .badJump) :
    start.Yields instr (.fault cause machine) :=
  .fault (.stays keeps) fun bad => absurd bad other

/-- An effect that leaves control where a transfer has put it. -/
theorem of_moves {moved : Machine} {effect : Effect} (supplied : start.Supplies instr)
    (moves : ∀ {after}, moved.Keeps after → start.Moves instr after)
    (stays : effect.Stays moved) : start.Yields instr effect := by
  cases effect with
  | next after => exact .next supplied (moves stays)
  | fault cause after => exact .fault (moves stays.1) fun bad => absurd bad stays.2
  | overrun after => exact stays.elim

theorem of_stays {effect : Effect} (supplied : start.Supplies instr)
    (stays : effect.Stays start) : start.Yields instr effect :=
  .of_moves supplied .stays stays

theorem pop {further : Value → Machine → Effect}
    (onward : ∀ value, 0 < start.stack.size →
      start.Yields instr (further value { start with stack := start.stack.pop })) :
    start.Yields instr (start.pop further) := by
  unfold Machine.pop
  split
  · exact .of_fault (.refl start) nofun
  · next value top =>
      refine onward value (Nat.pos_of_ne_zero fun empty => ?_)
      rw [Array.eq_empty_of_size_eq_zero empty] at top
      cases top

theorem checkTarget {target : Int32} {further : Machine → Effect} (keeps : start.Keeps machine)
    (aims : start.Aims instr target)
    (onward : start.isTarget target = true → start.Yields instr (further machine)) :
    start.Yields instr (machine.checkTarget target further) := by
  unfold Machine.checkTarget
  rw [keeps.isTarget_eq]
  split
  · next inside => exact onward inside
  · next outside =>
      exact .fault (.stays keeps) fun _ => ⟨target, aims, Bool.eq_false_iff.mpr outside⟩

end Yields

theorem load_yields (machine : Machine) (slot : Int32) :
    machine.Yields (.get slot) (machine.load slot) := by
  unfold load
  split
  · exact .of_fault (.refl machine) nofun
  · next activation outer current =>
      split
      · exact .of_fault (.refl machine) nofun
      · next counted =>
          split
          · next value held =>
              refine .of_stays ⟨by omega, activation, ?_, ?_⟩ (push_stays (.refl machine) value)
              · rw [current]
                rfl
              · exact (Array.getElem?_eq_some_iff.mp held).1
          · next missing =>
              exact .overrun rfl
                ⟨current, by omega, by omega, Array.getElem?_eq_none_iff.mp missing⟩

/-- A closure that is entered finds its arguments, itself and its captures on the stack. -/
theorem enter_yields {count : Int32} {handle : UInt32} {arity : Int}
    (keeps : start.Keeps machine) (supplied : start.Supplies (.call count))
    (enough : count.toInt.toNat ≤ machine.stack.size) :
    start.Yields (.call count) (machine.enter handle arity count.toInt.toNat) := by
  unfold enter
  split
  · next cause missing =>
      cases Heap.get_eq_error missing
      exact .of_fault keeps nofun
  · next closure found =>
      have stored : start.heap.objects[handle]? = some closure :=
        keeps.heap ▸ Heap.get_eq_ok found
      split
      · exact .of_fault keeps nofun
      · refine .checkTarget keeps (.inr ⟨handle, closure, stored, rfl⟩) fun _ => ?_
        have pushed := pushAll_stays keeps (.closure handle arity :: closure.captures)
        rcases pushAll_cases machine (.closure handle arity :: closure.captures) with
          ⟨last, full⟩ | ⟨entered, -⟩
        · rw [full] at pushed ⊢
          exact .of_fault pushed.1 pushed.2
        · rw [entered] at pushed ⊢
          refine .next supplied (.enters stored keeps.pc ?_
            ⟨pushed.code, rfl, congrArg (List.cons _) pushed.activations, pushed.heap⟩)
          simp only [Array.size_append, List.size_toArray, List.length_cons]
          omega

theorem call_yields (machine : Machine) (count : Int32) :
    machine.Yields (.call count) (machine.call count) := by
  refine .pop fun callee occupied => ?_
  have keeps : machine.Keeps { machine with stack := machine.stack.pop } := ⟨rfl, rfl, rfl, rfl⟩
  split
  · exact .of_fault keeps nofun
  · next enough =>
      rw [Array.size_pop] at enough
      have supplied : machine.Supplies (.call count) := ⟨by omega, by omega⟩
      split
      · exact .of_stays supplied (callBuiltin_stays keeps _ _)
      · refine enter_yields keeps supplied ?_
        rw [Array.size_pop]
        omega
      · exact .of_fault keeps nofun

theorem leave_yields (machine : Machine) : machine.Yields .ret machine.leave := by
  unfold leave
  split
  · exact .of_fault (.refl machine) nofun
  · next activation outer current =>
      refine .pop fun result occupied => ?_
      split
      · exact .of_fault ⟨rfl, rfl, rfl, rfl⟩ nofun
      · next reached =>
          rw [Array.size_pop] at reached
          have supplied : machine.Supplies .ret := by
            refine ⟨activation, ?_, by omega⟩
            rw [current]
            rfl
          refine .of_moves supplied (.leaves current) (push_stays ?_ result)
          exact ⟨rfl, rfl, rfl, rfl⟩

theorem makeLambda_yields (machine : Machine) (entry arity captures : Int32) :
    machine.Yields (.makeLambda entry arity captures)
      (machine.makeLambda entry arity captures) := by
  unfold makeLambda
  split
  · exact .of_fault (.refl machine) nofun
  · next enough =>
      split
      · exact .of_fault (.refl machine) nofun
      · refine .checkTarget (.refl machine) (.inl List.mem_cons_self) fun _ => ?_
        have supplied : machine.Supplies (.makeLambda entry arity captures) :=
          ⟨by omega, by omega⟩
        let base := machine.stack.size - captures.toInt.toNat
        let values := (machine.stack.extract base machine.stack.size).toList
        refine .of_moves supplied (.makes values rfl) (push_stays ?_ _)
        exact ⟨rfl, rfl, rfl, rfl⟩

theorem branch_yields (machine : Machine) (target : Int32) :
    machine.Yields (.jumpIf target) (machine.branch target) := by
  refine .checkTarget (.refl machine) (.inl List.mem_cons_self) fun _ => ?_
  refine .pop fun condition occupied => ?_
  split
  · exact .next occupied (.jumps (.inr rfl) ⟨rfl, rfl, rfl, rfl⟩)
  · exact .next occupied (.stays ⟨rfl, rfl, rfl, rfl⟩)
  · exact .of_fault ⟨rfl, rfl, rfl, rfl⟩ nofun

theorem loadGlobal_yields (machine : Machine) (slot : Int32) :
    machine.Yields (.getGlobal slot) (machine.loadGlobal slot) := by
  unfold loadGlobal
  split
  · exact .of_fault (.refl machine) nofun
  · split
    · exact .of_stays True.intro (push_stays (.refl machine) _)
    · exact .of_fault (.refl machine) nofun

/-- What every instruction comes to. -/
theorem execute_yields (machine : Machine) (instr : Instr) :
    machine.Yields instr (machine.execute instr) := by
  cases instr with
  | push constant => exact .of_stays True.intro (push_stays (.refl machine) constant.value)
  | pop =>
      rw [execute]
      refine .pop fun value occupied => ?_
      split <;> exact .next occupied (.stays ⟨rfl, rfl, rfl, rfl⟩)
  | get slot => exact machine.load_yields slot
  | defGlobal =>
      rw [execute]
      exact .pop fun value occupied => .next occupied (.stays ⟨rfl, rfl, rfl, rfl⟩)
  | getGlobal slot => exact machine.loadGlobal_yields slot
  | jump target =>
      rw [execute]
      refine .checkTarget (.refl machine) (.inl List.mem_cons_self) fun _ => ?_
      exact .next True.intro (.jumps (.inl rfl) (.refl _))
  | jumpIf target => exact machine.branch_yields target
  | call count => exact machine.call_yields count
  | ret => exact machine.leave_yields
  | makeLambda entry arity captures => exact machine.makeLambda_yields entry arity captures

end Instructions

end Machine

/-! ## Checked code -/

namespace Code

variable {code : Code}

/-- Where the linear decoding lists an instruction. -/
def Starts (code : Code) (offset : Nat) : Prop :=
  ∃ located ∈ code.decodeAll.1, located.offset = offset

/-- Where a run can go on: at an instruction that the linear decoding lists, or at the end. -/
def Continues (code : Code) (offset : Nat) : Prop :=
  code.Starts offset ∨ offset = code.size

/-- Code that decodes to its end and transfers control only to where an instruction starts. -/
structure Checked (code : Code) : Prop where
  decodes : code.decodeAll.2 = none
  lands : ∀ located ∈ code.decodeAll.1,
    Bundle.landsOnStart code.size code.decodeAll.1 located.instr = true

/-- A target where an instruction starts, as verification finds it. -/
theorem starts_of_isStart {target : Int32}
    (start : Bundle.isStart code.decodeAll.1 target = true) :
    0 ≤ target.toInt ∧ code.Starts target.toInt.toNat := by
  obtain ⟨located, listed, same⟩ := List.any_eq_true.mp start
  have equal : (located.offset : Int) = target.toInt := by simpa using same
  exact ⟨by omega, located, listed, by omega⟩

theorem continues_of_jump {target : Int32}
    (lands : (Bundle.isStart code.decodeAll.1 target || target.toInt == code.size) = true) :
    0 ≤ target.toInt ∧ code.Continues target.toInt.toNat := by
  rcases Bool.or_eq_true_iff.mp lands with start | stop
  · obtain ⟨nonnegative, starts⟩ := starts_of_isStart start
    exact ⟨nonnegative, .inl starts⟩
  · have equal : target.toInt = code.size := by simpa using stop
    exact ⟨by omega, .inr (by omega)⟩

/-- Control goes on inside the code or at its end. -/
theorem Continues.le_size {offset : Nat} (continues : code.Continues offset) :
    offset ≤ code.size := by
  rcases continues with ⟨located, listed, rfl⟩ | rfl
  · exact Nat.le_of_lt (instrAt_offset_lt (instrAt_of_mem_decodeFrom listed))
  · exact Nat.le_refl _

/-- What stands where control goes on is what the decoding lists there. -/
theorem Continues.mem_decodeAll {pc size : Nat} {instr : Instr} (continues : code.Continues pc)
    (decoded : code.instrAt pc = .ok (instr, size)) : ⟨pc, size, instr⟩ ∈ code.decodeAll.1 := by
  rcases continues with ⟨located, listed, rfl⟩ | rfl
  · have same := decoded.symm.trans (instrAt_of_mem_decodeFrom listed)
    obtain ⟨rfl, rfl⟩ := Prod.mk.inj (Except.ok.inj same)
    exact listed
  · exact absurd (instrAt_offset_lt decoded) (Nat.lt_irrefl _)

namespace Checked

theorem continues_zero (checked : code.Checked) : code.Continues 0 := by
  rcases exists_mem_decodeFrom checked.decodes with stop | starts
  · exact .inr (Nat.le_zero.mp stop).symm
  · exact .inl starts

/-- Behind an instruction that is listed control can go on. -/
theorem continues_behind (checked : code.Checked) {pc size : Nat} {instr : Instr}
    (listed : ⟨pc, size, instr⟩ ∈ code.decodeAll.1) : code.Continues (pc + size) := by
  rcases exists_next_of_mem_decodeFrom checked.decodes listed with stop | next
  · exact .inr (Nat.le_antisymm (instrAt_stop_le (instrAt_of_mem_decodeFrom listed)) stop)
  · exact .inl next

end Checked

end Code

/-- Verification checks the code. -/
theorem Bundle.code_checked {bundle : Bundle} (verified : bundle.verify = .ok ()) :
    bundle.code.Checked := by
  obtain ⟨-, targets, -⟩ := faults_of_verify verified
  unfold targetFault? at targets
  split at targets
  · cases targets
  · next instrs decoded =>
      refine ⟨congrArg Prod.snd decoded, ?_⟩
      rw [congrArg Prod.fst decoded]
      simpa using targets

/-! ## The invariant of control -/

namespace Machine

/-- A machine whose control keeps to the instructions that the linear decoding of its code lists:
it is at one of them or at the end, it will return to one or to the end, and a closure is entered
at one. -/
structure OnBoundaries (code : Code) (machine : Machine) : Prop where
  runs : machine.code = code
  pc : code.Continues machine.pc
  returns : ∀ activation ∈ machine.activations, code.Continues activation.returnTo
  entries : ∀ {handle : UInt32} {closure : Closure},
    machine.heap.objects[handle]? = some closure →
      code.Starts closure.entry.toNat ∧ 0 ≤ closure.entry.toInt32.toInt

section Boundaries

variable {code : Code} {before machine after : Machine} {instr : Instr}

theorem Keeps.onBoundaries (keeps : before.Keeps after) (bounded : before.OnBoundaries code) :
    after.OnBoundaries code := by
  refine ⟨keeps.code ▸ bounded.runs, keeps.pc ▸ bounded.pc, ?_, ?_⟩
  · rw [keeps.activations]
    exact bounded.returns
  · rw [keeps.heap]
    exact bounded.entries

namespace OnBoundaries

/-- A closure made of a checked entry is entered where an instruction starts. -/
theorem alloc (bounded : before.OnBoundaries code) {entry : Int32} (arity : UInt32)
    (values : List Value) (start : Bundle.isStart code.decodeAll.1 entry = true) :
    OnBoundaries code
      { before with heap := (before.heap.alloc ⟨arity, values, entry.toUInt32⟩).2 } := by
  refine ⟨bounded.runs, bounded.pc, bounded.returns, fun {handle closure} found => ?_⟩
  obtain ⟨nonnegative, starts⟩ := Code.starts_of_isStart start
  rw [Heap.alloc, Std.TreeMap.getElem?_insert] at found
  split at found
  · cases found
    have same : entry.toUInt32.toNat = entry.toInt.toNat := by
      rw [Int32.toNat_toUInt32_of_le (Int32.le_iff_toInt_le.mpr nonnegative)]
      rfl
    rw [same, Int32.toInt32_toUInt32]
    exact ⟨starts, nonnegative⟩
  · exact bounded.entries found

/-- Wherever an instruction that is checked sends control, an instruction starts or the code
ends. -/
theorem moves (bounded : before.OnBoundaries code)
    (lands : Bundle.landsOnStart code.size code.decodeAll.1 instr = true)
    (moves : before.Moves instr after) : after.OnBoundaries code := by
  cases moves with
  | stays keeps => exact keeps.onBoundaries bounded
  | jumps jump keeps =>
      refine keeps.onBoundaries ⟨bounded.runs, ?_, bounded.returns, bounded.entries⟩
      rcases jump with rfl | rfl <;> exact (Code.continues_of_jump lands).2
  | enters stored returns filled keeps =>
      refine keeps.onBoundaries ⟨bounded.runs, ?_, ?_, bounded.entries⟩
      · exact .inl (bounded.entries stored).1
      · exact List.forall_mem_cons.mpr ⟨returns ▸ bounded.pc, bounded.returns⟩
  | leaves current keeps =>
      obtain ⟨back, returns⟩ := List.forall_mem_cons.mp (current ▸ bounded.returns)
      exact keeps.onBoundaries ⟨bounded.runs, back, returns, bounded.entries⟩
  | makes values making keeps =>
      subst making
      exact keeps.onBoundaries (bounded.alloc _ values lands)

/-- No instruction that is checked aims outside the code. -/
theorem isTarget_of_aims (bounded : machine.OnBoundaries code)
    (lands : Bundle.landsOnStart code.size code.decodeAll.1 instr = true) {target : Int32}
    (aims : machine.Aims instr target) : machine.isTarget target = true := by
  have inside : 0 ≤ target.toInt ∧ code.Continues target.toInt.toNat := by
    rcases aims with named | ⟨handle, closure, stored, rfl⟩
    · cases instr with
      | jump | jumpIf =>
          cases List.mem_singleton.mp named
          exact Code.continues_of_jump lands
      | makeLambda =>
          cases List.mem_singleton.mp named
          exact (Code.starts_of_isStart lands).imp_right .inl
      | _ => exact absurd named List.not_mem_nil
    · obtain ⟨starts, nonnegative⟩ := bounded.entries stored
      have same : closure.entry.toInt32.toInt.toNat = closure.entry.toNat := by
        have := Int32.toNat_toUInt32_of_le (Int32.le_iff_toInt_le.mpr nonnegative)
        exact this.symm
      exact ⟨nonnegative, .inl (same ▸ starts)⟩
  have low := inside.2.le_size
  simp only [isTarget, bounded.runs, Bool.and_eq_true, decide_eq_true_eq]
  omega

/-! ## Steps and runs -/

theorem collectIfNeeded (bounded : machine.OnBoundaries code) :
    machine.collectIfNeeded.OnBoundaries code := by
  unfold Machine.collectIfNeeded
  split
  · refine ⟨bounded.runs, bounded.pc, bounded.returns, fun found => ?_⟩
    exact bounded.entries ((Heap.getElem?_collect_iff _ _ _ _).mp found).1
  · exact bounded

/-- A machine about to execute what is listed at its program counter. -/
theorem ready (checked : code.Checked) (bounded : machine.OnBoundaries code) {size : Nat}
    (listed : ⟨machine.pc, size, instr⟩ ∈ code.decodeAll.1) :
    (machine.ready instr size).OnBoundaries code := by
  refine ⟨?_, checked.continues_behind listed, ?_, ?_⟩
  · rw [ready_code]
    exact bounded.runs
  · rw [ready_activations]
    exact bounded.returns
  · rw [ready_heap]
    exact bounded.collectIfNeeded.entries

/-- A step of checked code ends at the end of the code, or executes what is listed at the program
counter. -/
theorem step_cases (bounded : machine.OnBoundaries code) :
    machine.step = .halted (.value machine.finalValue) machine ∨
      ∃ instr size effect, ⟨machine.pc, size, instr⟩ ∈ code.decodeAll.1 ∧
        (machine.ready instr size).Yields instr effect ∧
        machine.step = Progress.ofEffect machine.pc instr effect := by
  rcases bounded.pc with ⟨located, listed, start⟩ | stop
  · have decoded := Code.instrAt_of_mem_decodeFrom listed
    rw [start, ← bounded.runs] at decoded
    refine .inr ⟨located.instr, located.size, _, ?_, execute_yields _ _, step_of_instrAt decoded⟩
    rw [← start]
    exact listed
  · refine .inl ?_
    rw [Machine.step, bounded.runs, stop, if_neg (Nat.lt_irrefl _)]

end OnBoundaries

end Boundaries

end Machine

/-- A run that stops neither at a malformed place nor at a bad jump. -/
def Halt.Tracked : Halt → Prop
  | .error (.malformed _) => False
  | .error (.fault _ _ cause) => cause.kind ≠ .badJump
  | .value _ | .overrun | .outOfFuel => True

/-- A step that keeps control on boundaries, however it ends. -/
def Progress.Tracks (code : Code) : Progress → Prop
  | .running next => next.OnBoundaries code
  | .halted halt last => halt.Tracked ∧ last.OnBoundaries code

namespace Machine

variable {code : Code} {machine : Machine}

theorem Yields.tracks {instr : Instr} {effect : Effect} (bounded : machine.OnBoundaries code)
    (lands : Bundle.landsOnStart code.size code.decodeAll.1 instr = true)
    (yields : machine.Yields instr effect) (pc : Nat) :
    (Progress.ofEffect pc instr effect).Tracks code := by
  cases yields with
  | next _ moves => exact bounded.moves lands moves
  | fault moves blamed =>
      refine ⟨fun bad => ?_, bounded.moves lands moves⟩
      obtain ⟨target, aims, outside⟩ := blamed bad
      rw [bounded.isTarget_of_aims lands aims] at outside
      cases outside
  | overrun _ _ => exact ⟨True.intro, bounded⟩

theorem OnBoundaries.step (checked : code.Checked) (bounded : machine.OnBoundaries code) :
    machine.step.Tracks code := by
  rcases bounded.step_cases with ended | ⟨instr, size, effect, listed, yields, executed⟩
  · rw [ended]
    exact ⟨True.intro, bounded⟩
  · rw [executed]
    exact yields.tracks (bounded.ready checked listed) (checked.lands _ listed) machine.pc

theorem OnBoundaries.run (checked : code.Checked) (bounded : machine.OnBoundaries code)
    (fuel : Nat) : (run fuel machine).1.Tracked ∧ (run fuel machine).2.OnBoundaries code := by
  induction fuel generalizing machine with
  | zero => exact ⟨True.intro, bounded⟩
  | succ fuel ih =>
      have stepped := bounded.step checked
      rw [Machine.run]
      cases progress : machine.step with
      | halted halt last =>
          rw [progress] at stepped
          exact stepped
      | running next =>
          rw [progress] at stepped
          exact ih stepped

theorem onBoundaries_new (checked : code.Checked) (options : MachineOptions) :
    ((new options).prepare code 0).OnBoundaries code := by
  refine ⟨rfl, checked.continues_zero, ?_, ?_⟩
  · exact fun activation listed => absurd listed List.not_mem_nil
  · intro handle closure found
    simp [prepare, new, Heap.new] at found

end Machine

/-- A run of a verified bundle executes only what the linear decoding of its code lists. After any
number of steps control is at a listed instruction or at the end of the code, every open activation
returns to such a place, and every closure on the heap is entered at a listed instruction; and no
run ends at a malformed place or with a bad jump. -/
theorem Bundle.run_onBoundaries_of_verify (bundle : Bundle) (verified : bundle.verify = .ok ())
    (options : MachineOptions) (fuel : Nat) (halt : Halt) (machine : Machine)
    (ran : (Machine.new options).runFrom fuel bundle.code 0 = (halt, machine)) :
    bundle.code.Continues machine.pc ∧
      (∀ instr size, bundle.code.instrAt machine.pc = .ok (instr, size) →
        ⟨machine.pc, size, instr⟩ ∈ bundle.code.decodeAll.1) ∧
      (∀ activation ∈ machine.activations, bundle.code.Continues activation.returnTo) ∧
      (∀ (handle : UInt32) (closure : Closure), machine.heap.objects[handle]? = some closure →
        bundle.code.Starts closure.entry.toNat) ∧
      (∀ error, halt ≠ .error (.malformed error)) ∧
      ∀ pc opcode cause, halt = .error (.fault pc opcode cause) → cause.kind ≠ .badJump := by
  have checked := code_checked verified
  obtain ⟨tracked, bounded⟩ := (Machine.onBoundaries_new checked options).run checked fuel
  rw [← Machine.runFrom_zero, ran] at tracked bounded
  refine ⟨bounded.pc, fun instr size decoded => bounded.pc.mem_decodeAll decoded,
    bounded.returns, fun handle closure stored => (bounded.entries stored).1, ?_, ?_⟩
  · rintro error rfl
    exact tracked
  · rintro pc opcode cause rfl
    exact tracked

/-- After four steps the function that adds one is entered, and control will return behind the
call. -/
theorem Bundle.run_onBoundaries_of_verify_entered :
    incrementBundle.verify = .ok () ∧
      ∃ machine, (Machine.new {}).runFrom 4 incrementBundle.code 0 = (.outOfFuel, machine) ∧
        machine.pc = 11 ∧ incrementBundle.code.Continues 11 ∧
        machine.activations.map Activation.returnTo = [51] ∧
        incrementBundle.code.Continues 51 := by
  have targets : targetFault? incrementCode = none := by decide +kernel
  have verified : incrementBundle.verify = .ok () := verify_new (by decide) targets
  have same : incrementBundle.code = incrementCode := code_new _ _ _
  rw [same]
  have halt : ((Machine.new {}).runFrom 4 incrementCode 0).1 = .outOfFuel := by
    decide +kernel
  have entered : ((Machine.new {}).runFrom 4 incrementCode 0).2.pc = 11 := by decide +kernel
  have back : ((Machine.new {}).runFrom 4 incrementCode 0).2.activations.map
      Activation.returnTo = [51] := by
    decide +kernel
  generalize ran : (Machine.new {}).runFrom 4 incrementCode 0 = reached at halt entered back ⊢
  obtain ⟨outcome, machine⟩ := reached
  cases halt
  obtain ⟨pc, -, returns, -⟩ :=
    run_onBoundaries_of_verify incrementBundle verified {} 4 .outOfFuel machine (same.symm ▸ ran)
  rw [same] at pc returns
  refine ⟨verified, machine, rfl, entered, entered ▸ pc, back, ?_⟩
  have listed : 51 ∈ machine.activations.map Activation.returnTo :=
    back ▸ List.mem_singleton_self 51
  obtain ⟨activation, opened, returnsTo⟩ := List.mem_map.mp listed
  exact returnsTo ▸ returns activation opened

end ClosureLisp
