import ClosureLisp.Bundle.Basic
import ClosureLisp.Proofs.Retention
import Mathlib

/-!
# Verified bundles keep to their capabilities

A bundle may hold any code. If it passes verification, control never leaves the places where
the linear decoding starts an instruction, so a run executes only instructions that the decoding
lists. If none of these loads `display`, no value that the run can get hold of stands for it,
and nothing is ever displayed. `Machine.Silent` is the invariant of such a run; one lemma for
each kind of instruction says that it is kept.
-/

namespace ClosureLisp

/-! ## Where control can come to -/

namespace Code

variable {code : Code} {offset : Nat} {located : Located}

/-- The places that control can come to in a stream that decodes: where an instruction starts, and
all behind the last one. -/
def IsBoundary (code : Code) (offset : Nat) : Prop :=
  code.size ≤ offset ∨ ∃ located ∈ code.decodeAll.1, located.offset = offset

/-- The linear decoding lists what stands in the stream. -/
theorem instrAt_of_mem_decodeFrom (listed : located ∈ (code.decodeFrom offset).1) :
    code.instrAt located.offset = .ok (located.instr, located.size) := by
  fun_induction decodeFrom code offset with
  | case1 offset inside error decoded => cases listed
  | case2 offset inside instr size decoded rest ih =>
      rcases List.mem_cons.mp listed with rfl | behind
      · exact decoded
      · exact ih behind
  | case3 offset outside => cases listed

/-- A linear decoding that meets no error starts where it is told to. -/
theorem exists_mem_decodeFrom (whole : (code.decodeFrom offset).2 = none) :
    code.size ≤ offset ∨ ∃ located ∈ (code.decodeFrom offset).1, located.offset = offset := by
  fun_induction decodeFrom code offset with
  | case1 offset inside error decoded => cases whole
  | case2 offset inside instr size decoded rest ih =>
      exact .inr ⟨⟨offset, size, instr⟩, List.mem_cons_self, rfl⟩
  | case3 offset outside => exact .inl (Nat.not_lt.mp outside)

/-- Behind each instruction that is listed stands the next one, or the stream ends. -/
theorem exists_next_of_mem_decodeFrom (whole : (code.decodeFrom offset).2 = none)
    (listed : located ∈ (code.decodeFrom offset).1) :
    code.size ≤ located.offset + located.size ∨
      ∃ next ∈ (code.decodeFrom offset).1, next.offset = located.offset + located.size := by
  fun_induction decodeFrom code offset with
  | case1 offset inside error decoded => cases whole
  | case2 offset inside instr size decoded rest ih =>
      rcases List.mem_cons.mp listed with rfl | behind
      · refine (exists_mem_decodeFrom whole).imp_right ?_
        rintro ⟨next, found, placed⟩
        exact ⟨next, List.mem_cons_of_mem _ found, placed⟩
      · refine (ih whole behind).imp_right ?_
        rintro ⟨next, found, placed⟩
        exact ⟨next, List.mem_cons_of_mem _ found, placed⟩
  | case3 offset outside => cases listed

end Code

/-- A value that does not stand for `display`. -/
def Value.IsSilent : Value → Prop
  | .builtin name _ => name ≠ Primitive.display.name
  | _ => True

instance (value : Value) : Decidable value.IsSilent :=
  match value with
  | .builtin name _ => inferInstanceAs (Decidable (name ≠ Primitive.display.name))
  | .nil | .int _ | .bool _ | .closure _ _ => isTrue True.intro

/-- Code that decodes to its end, transfers control to boundaries only, and never loads
`display`. -/
structure Code.Silent (code : Code) : Prop where
  decodes : code.decodeAll.2 = none
  lands : ∀ located ∈ code.decodeAll.1,
    Bundle.landsOnStart code.size code.decodeAll.1 located.instr = true
  loads : ∀ located ∈ code.decodeAll.1,
    Capability.ofInstr? predefinedNames located.instr = none

namespace Code.Silent

variable {code : Code}

theorem boundary_zero (silent : code.Silent) : code.IsBoundary 0 :=
  exists_mem_decodeFrom silent.decodes

/-- What stands at a boundary is listed, and behind it is a boundary again. -/
theorem of_instrAt (silent : code.Silent) {pc size : Nat} {instr : Instr}
    (boundary : code.IsBoundary pc) (decoded : code.instrAt pc = .ok (instr, size)) :
    Bundle.landsOnStart code.size code.decodeAll.1 instr = true ∧
      Capability.ofInstr? predefinedNames instr = none ∧ code.IsBoundary (pc + size) := by
  rcases boundary with outside | ⟨located, listed, rfl⟩
  · exact absurd (instrAt_offset_lt decoded) (Nat.not_lt.mpr outside)
  · have same := decoded.symm.trans (instrAt_of_mem_decodeFrom listed)
    obtain ⟨rfl, rfl⟩ := Prod.mk.inj (Except.ok.inj same)
    exact ⟨silent.lands located listed, silent.loads located listed,
      exists_next_of_mem_decodeFrom silent.decodes listed⟩

/-- A target where an instruction starts is a boundary. -/
theorem boundary_of_isStart {target : Int32}
    (start : Bundle.isStart code.decodeAll.1 target = true) :
    code.IsBoundary target.toInt.toNat := by
  obtain ⟨located, listed, same⟩ := List.any_eq_true.mp start
  have equal : (located.offset : Int) = target.toInt := by simpa using same
  exact .inr ⟨located, listed, by omega⟩

/-- So is the target of a jump, which may also be the end of the stream. -/
theorem boundary_of_jump {target : Int32}
    (lands : (Bundle.isStart code.decodeAll.1 target || target.toInt == code.size) = true) :
    code.IsBoundary target.toInt.toNat := by
  rcases Bool.or_eq_true_iff.mp lands with start | stop
  · exact boundary_of_isStart start
  · have equal : target.toInt = code.size := by simpa using stop
    exact .inl (by omega)

end Code.Silent

/-- A predefined value is silent, unless the slot that it is loaded from needs a capability. -/
theorem isSilent_of_ofInstr?_eq_none {slot : Int32} {value : Value} (nonnegative : ¬ slot.toInt < 0)
    (unneeded : Capability.ofInstr? predefinedNames (.getGlobal slot) = none)
    (found : predefinedValues[slot.toInt.toNat]? = some value) : value.IsSilent := by
  have small : slot.toInt.toNat < predefinedNames.length :=
    (List.getElem?_eq_some_iff.mp found).1
  have positive : 0 ≤ slot := by
    rw [Int32.le_iff_toInt_le]
    exact Int.not_lt.mp nonnegative
  rw [Capability.ofInstr?, if_pos ⟨positive, small⟩] at unneeded
  generalize slot.toInt.toNat = index at small unneeded found
  have table : ∀ index < predefinedNames.length,
      (predefinedNames[index]?).bind Capability.ofGlobal? = none →
        ∀ value ∈ predefinedValues[index]?, value.IsSilent := by
    decide
  exact table index small unneeded value found

theorem Constant.isSilent_value (constant : Constant) : constant.value.IsSilent := by
  cases constant <;> exact True.intro

/-- Only `display` shows anything. -/
theorem Primitive.shown_of_applyNamed {name : Name} {arguments : List Value} {yielded : Yield}
    (other : name ≠ display.name) (applied : applyNamed name arguments = .ok yielded) :
    yielded.shown = none := by
  have ints : ∀ {operation : Int32 → Int32 → Value} {left right : Value},
      onInts operation left right = .ok yielded → yielded.shown = none := by
    intro operation left right applied
    unfold onInts at applied
    split at applied <;> cases applied
    rfl
  unfold applyNamed at applied
  split at applied
  · cases applied
  · next primitive found =>
      have named : primitive.name = name := by simpa using List.find?_some found
      unfold apply at applied
      split at applied
      · exact ints applied
      · exact ints applied
      · exact ints applied
      · exact ints applied
      · unfold compare at applied
        split at applied <;> cases applied <;> rfl
      · exact absurd named.symm other
      · unfold check at applied
        split at applied <;> cases applied
        rfl
      · cases applied
        rfl
      · cases applied

/-! ## The invariant of a silent run -/

namespace Machine

/-- A machine that runs silent code and has not got hold of `display`: control is at a boundary,
will return to boundaries and can enter closures at boundaries only, and no value that the code
can reach stands for `display`. What has been printed is what tracing notes. -/
structure Silent (code : Code) (machine : Machine) : Prop where
  runs : machine.code = code
  pc : code.IsBoundary machine.pc
  returns : ∀ activation ∈ machine.activations, code.IsBoundary activation.returnTo
  stack : ∀ value ∈ machine.stack.toList, value.IsSilent
  globals : ∃ defined, machine.globals.toList = predefinedValues ++ defined ∧
    ∀ value ∈ defined, value.IsSilent
  closures : ∀ {handle : UInt32} {closure : Closure},
    machine.heap.objects[handle]? = some closure →
      code.IsBoundary closure.entry.toNat ∧ ∀ value ∈ closure.captures, value.IsSilent
  events : ∀ event ∈ machine.events, machine.trace = true ∧ ∀ value, event ≠ .displayed value

namespace Silent

variable {code : Code} {machine : Machine}

/-- Of the stack only the values matter, of the last result nothing. -/
theorem restack (silent : machine.Silent code) {stack : Array Value}
    (values : ∀ value ∈ stack.toList, value.IsSilent) :
    { machine with stack := stack }.Silent code :=
  ⟨silent.runs, silent.pc, silent.returns, values, silent.globals, silent.closures, silent.events⟩

theorem shrink (silent : machine.Silent code) (base : Nat) :
    { machine with stack := machine.stack.shrink base }.Silent code := by
  refine silent.restack fun value listed => ?_
  rw [Array.toList_shrink] at listed
  exact silent.stack value (List.mem_of_mem_take listed)

theorem goTo (silent : machine.Silent code) {target : Int32}
    (boundary : code.IsBoundary target.toInt.toNat) : (machine.goTo target).Silent code :=
  ⟨silent.runs, boundary, silent.returns, silent.stack, silent.globals, silent.closures,
    silent.events⟩

theorem push (silent : machine.Silent code) {value : Value} (harmless : value.IsSilent) :
    (machine.push value).Ensures (Silent code) := by
  unfold Machine.push
  split
  · exact silent
  · refine silent.restack fun other listed => ?_
    rcases List.mem_append.mp (Array.toList_push ▸ listed) with known | added
    · exact silent.stack other known
    · rw [List.mem_singleton.mp added]
      exact harmless

theorem pushAll (silent : machine.Silent code) {values : List Value}
    (harmless : ∀ value ∈ values, value.IsSilent) :
    (machine.pushAll values).Ensures (Silent code) := by
  induction values generalizing machine with
  | nil => exact silent
  | cons value rest ih =>
      obtain ⟨head, tail⟩ := List.forall_mem_cons.mp harmless
      exact (silent.push head).andThen (fun _ => id) fun _ pushed => ih pushed tail

/-- What is popped is silent. -/
theorem pop (silent : machine.Silent code) {further : Value → Machine → Effect}
    (onward : ∀ value machine, value.IsSilent → machine.Silent code →
      (further value machine).Ensures (Silent code)) :
    (machine.pop further).Ensures (Silent code) := by
  unfold Machine.pop
  split
  · exact silent
  · next value top =>
      have harmless := silent.stack value (Array.mem_toList_iff.mpr (Array.mem_of_back? top))
      refine onward _ _ harmless (silent.restack ?_)
      intro other listed
      rw [Array.toList_pop] at listed
      exact silent.stack other ((List.dropLast_sublist _).subset listed)

theorem checkTarget (silent : machine.Silent code) {target : Int32} {further : Machine → Effect}
    (onward : machine.isTarget target = true → (further machine).Ensures (Silent code)) :
    (machine.checkTarget target further).Ensures (Silent code) := by
  unfold Machine.checkTarget
  split
  · next inside => exact onward inside
  · exact silent

theorem load (silent : machine.Silent code) (slot : Int32) :
    (machine.load slot).Ensures (Silent code) := by
  unfold Machine.load
  split
  · exact silent
  · split
    · exact silent
    · split
      · next held =>
          exact silent.push
            (silent.stack _ (Array.mem_toList_iff.mpr (Array.mem_of_getElem? held)))
      · exact silent

theorem loadGlobal (silent : machine.Silent code) {slot : Int32}
    (unneeded : Capability.ofInstr? predefinedNames (.getGlobal slot) = none) :
    (machine.loadGlobal slot).Ensures (Silent code) := by
  unfold Machine.loadGlobal
  split
  · exact silent
  · next nonnegative =>
      split
      · next value held =>
          refine silent.push ?_
          obtain ⟨defined, table, harmless⟩ := silent.globals
          rw [← Array.getElem?_toList, table] at held
          by_cases first : slot.toInt.toNat < predefinedValues.length
          · rw [List.getElem?_append_left first] at held
            exact isSilent_of_ofInstr?_eq_none nonnegative unneeded held
          · rw [List.getElem?_append_right (Nat.not_lt.mp first)] at held
            exact harmless value (List.mem_of_getElem? held)
      · exact silent

theorem branch (silent : machine.Silent code) {target : Int32}
    (boundary : code.IsBoundary target.toInt.toNat) :
    (machine.branch target).Ensures (Silent code) := by
  refine silent.checkTarget fun _ => silent.pop fun condition machine _ silent => ?_
  split
  · exact silent.goTo boundary
  · exact silent
  · exact silent

theorem callBuiltin (silent : machine.Silent code) {name : Name}
    (other : name ≠ Primitive.display.name) (count : Nat) :
    (machine.callBuiltin name count).Ensures (Silent code) := by
  unfold Machine.callBuiltin
  dsimp only
  split
  · exact silent.shrink _
  · next yielded applied =>
      obtain ⟨constant, same⟩ := Primitive.applyNamed_ok applied
      rw [Primitive.shown_of_applyNamed other applied, same]
      exact (silent.shrink _).push constant.isSilent_value

/-- Control will return to where it is now, and goes to where the closure is entered. -/
theorem enter (silent : machine.Silent code) (handle : UInt32) (arity : Int) (count : Nat) :
    (machine.enter handle arity count).Ensures (Silent code) := by
  unfold Machine.enter
  split
  · exact silent
  · next closure found =>
      obtain ⟨entry, captured⟩ : code.IsBoundary closure.entry.toNat ∧
          ∀ value ∈ closure.captures, value.IsSilent := by
        unfold Heap.get at found
        split at found
        · next stored =>
            cases found
            exact silent.closures stored
        · cases found
      split
      · exact silent
      · refine silent.checkTarget fun _ => ?_
        have harmless : ∀ value ∈ .closure handle arity :: closure.captures, value.IsSilent :=
          List.forall_mem_cons.mpr ⟨True.intro, captured⟩
        refine (silent.pushAll harmless).andThen (fun _ => id) fun entered pushed => ?_
        refine ⟨pushed.runs, entry, ?_, pushed.stack, pushed.globals, pushed.closures,
          pushed.events⟩
        exact List.forall_mem_cons.mpr ⟨silent.pc, pushed.returns⟩

theorem call (silent : machine.Silent code) (count : Int32) :
    (machine.call count).Ensures (Silent code) := by
  refine silent.pop fun callee machine harmless silent => ?_
  split
  · exact silent
  · split
    · exact silent.callBuiltin harmless _
    · exact silent.enter _ _ _
    · exact silent

theorem leave (silent : machine.Silent code) : machine.leave.Ensures (Silent code) := by
  unfold Machine.leave
  split
  · exact silent
  · next activation outer active =>
      obtain ⟨back, returns⟩ := List.forall_mem_cons.mp (active ▸ silent.returns)
      refine silent.pop fun result machine harmless silent => ?_
      split
      · exact silent
      · have shrunk := silent.shrink activation.base
        have left : Silent code
            { machine with
              activations := outer
              stack := machine.stack.shrink activation.base
              pc := activation.returnTo } :=
          ⟨shrunk.runs, back, returns, shrunk.stack, shrunk.globals, shrunk.closures,
            shrunk.events⟩
        exact left.push harmless

theorem makeLambda (silent : machine.Silent code) {entry : Int32}
    (boundary : code.IsBoundary entry.toInt.toNat) (arity captures : Int32) :
    (machine.makeLambda entry arity captures).Ensures (Silent code) := by
  unfold Machine.makeLambda
  split
  · exact silent
  · split
    · exact silent
    · refine silent.checkTarget fun inside => ?_
      have nonnegative : 0 ≤ entry.toInt := by
        simp only [isTarget, Bool.and_eq_true, decide_eq_true_eq] at inside
        exact inside.1
      have same : entry.toUInt32.toNat = entry.toInt.toNat := by
        rw [Int32.toNat_toUInt32_of_le (Int32.le_iff_toInt_le.mpr nonnegative)]
        rfl
      have captured : ∀ value ∈ (machine.stack.extract
          (machine.stack.size - captures.toInt.toNat) machine.stack.size).toList,
          value.IsSilent := by
        intro value listed
        rw [Array.toList_extract, List.extract_eq_take_drop] at listed
        exact silent.stack value (List.mem_of_mem_drop (List.mem_of_mem_take listed))
      have shrunk := silent.shrink (machine.stack.size - captures.toInt.toNat)
      have made : Silent code
          { machine with
            stack := machine.stack.shrink (machine.stack.size - captures.toInt.toNat)
            heap := (machine.heap.alloc ⟨arity.toUInt32, (machine.stack.extract
              (machine.stack.size - captures.toInt.toNat) machine.stack.size).toList,
              entry.toUInt32⟩).2 } := by
        refine ⟨shrunk.runs, shrunk.pc, shrunk.returns, shrunk.stack, shrunk.globals, ?_,
          shrunk.events⟩
        intro handle closure found
        rw [Heap.alloc, Std.TreeMap.getElem?_insert] at found
        split at found
        · cases found
          exact ⟨same ▸ boundary, captured⟩
        · exact silent.closures found
      have harmless : (Value.closure machine.heap.next arity.toInt).IsSilent := True.intro
      exact made.push harmless

/-- Executing an instruction that the decoding lists keeps a machine silent. -/
theorem execute (silent : machine.Silent code) {instr : Instr}
    (lands : Bundle.landsOnStart code.size code.decodeAll.1 instr = true)
    (unneeded : Capability.ofInstr? predefinedNames instr = none) :
    (machine.execute instr).Ensures (Silent code) := by
  cases instr with
  | push constant => exact silent.push constant.isSilent_value
  | pop =>
      rw [Machine.execute]
      refine silent.pop fun value machine _ silent => ?_
      split
      · exact ⟨silent.runs, silent.pc, silent.returns, silent.stack, silent.globals,
          silent.closures, silent.events⟩
      · exact silent
  | get slot => exact silent.load slot
  | defGlobal =>
      rw [Machine.execute]
      refine silent.pop fun value machine harmless silent => ?_
      obtain ⟨defined, table, others⟩ := silent.globals
      refine ⟨silent.runs, silent.pc, silent.returns, silent.stack, ⟨defined ++ [value], ?_, ?_⟩,
        silent.closures, silent.events⟩
      · rw [Array.toList_push, table, List.append_assoc]
      · exact List.forall_mem_append.mpr ⟨others, List.forall_mem_singleton.mpr harmless⟩
  | getGlobal slot => exact silent.loadGlobal unneeded
  | jump target =>
      rw [Machine.execute]
      refine silent.checkTarget fun _ => ?_
      exact silent.goTo (Code.Silent.boundary_of_jump lands)
  | jumpIf target => exact silent.branch (Code.Silent.boundary_of_jump lands)
  | call count => exact silent.call count
  | ret => exact silent.leave
  | makeLambda entry arity captures =>
      exact silent.makeLambda (Code.Silent.boundary_of_isStart lands) arity captures

/-! ## Steps and runs -/

/-- A collection only drops closures. -/
theorem collectIfNeeded (silent : machine.Silent code) :
    machine.collectIfNeeded.Silent code := by
  unfold Machine.collectIfNeeded
  split
  · refine ⟨silent.runs, silent.pc, silent.returns, silent.stack, silent.globals, fun found => ?_,
      silent.events⟩
    exact silent.closures ((Heap.getElem?_collect_iff _ _ _ _).mp found).1
  · exact silent

theorem ready (silent : machine.Silent code) (instr : Instr) {size : Nat}
    (boundary : code.IsBoundary (machine.pc + size)) :
    (machine.ready instr size).Silent code := by
  have collected := silent.collectIfNeeded
  refine ⟨?_, boundary, ?_, ?_, ?_, ?_, ?_⟩
  · rw [ready_code]
    exact silent.runs
  · rw [ready_activations]
    exact silent.returns
  · rw [ready_stack]
    exact silent.stack
  · rw [ready_globals]
    exact silent.globals
  · rw [ready_heap]
    exact collected.closures
  · rw [ready_trace]
    rcases machine.ready_events instr size with same | ⟨traced, event, noted, added⟩
    · rw [same]
      exact silent.events
    · rw [added]
      exact List.forall_mem_cons.mpr ⟨⟨traced, noted⟩, silent.events⟩

/-- A step of silent code keeps the machine silent, however it ends. -/
theorem step (checked : code.Silent) (silent : machine.Silent code) :
    machine.step.machine.Silent code := by
  cases decoded : machine.code.instrAt machine.pc with
  | ok found =>
      obtain ⟨instr, size⟩ := found
      obtain ⟨lands, unneeded, boundary⟩ :=
        checked.of_instrAt silent.pc (silent.runs ▸ decoded)
      have executed := (silent.ready instr boundary).execute lands unneeded
      rw [step_of_instrAt decoded]
      cases effect : (machine.ready instr size).execute instr <;> rw [effect] at executed <;>
        exact executed
  | error error =>
      rw [Machine.step]
      split
      · simp only [collectIfNeeded_code, collectIfNeeded_pc, decoded]
        exact silent.collectIfNeeded
      · exact silent

theorem run (checked : code.Silent) (silent : machine.Silent code) (fuel : Nat) :
    (Machine.run fuel machine).2.Silent code := by
  induction fuel generalizing machine with
  | zero => exact silent
  | succ fuel ih =>
      have stepped := silent.step checked
      rw [Machine.run]
      cases progress : machine.step with
      | halted halt last =>
          rw [progress] at stepped
          exact stepped
      | running next =>
          rw [progress] at stepped
          exact ih stepped

end Silent

end Machine

/-! ## What verification gives -/

namespace Bundle

variable {bundle : Bundle}

theorem faults_of_verify (verified : bundle.verify = .ok ()) :
    globalsFault? bundle.globals = none ∧ targetFault? bundle.code = none ∧
      capabilityFault? bundle.code bundle.globals bundle.capabilities = none := by
  unfold verify at verified
  simp only [bind, Except.bind, pure, Except.pure, throw, throwThe, MonadExceptOf.throw] at verified
  split at verified
  · cases verified
  split at verified
  · cases verified
  split at verified
  · cases verified
  · next table =>
      split at verified
      · cases verified
      · next targets =>
          split at verified
          · cases verified
          · next declared =>
              exact ⟨Option.eq_none_iff_forall_ne_some.mpr table,
                Option.eq_none_iff_forall_ne_some.mpr targets,
                Option.eq_none_iff_forall_ne_some.mpr declared⟩

/-- Code that is packed here passes verification if its names and its control transfers are
right. -/
theorem verify_new {source : Bytes} {code : Code} {globals : List Name}
    (table : globalsFault? globals = none) (targets : targetFault? code = none) :
    (new source code globals).verify = .ok () := by
  have declared : capabilityFault? code globals (new source code globals).capabilities = none := by
    unfold targetFault? at targets
    split at targets
    · cases targets
    · next decoded => simp [capabilityFault?, new, Capability.required, decoded, Except.toOption]
  have digest : digestOf code = (new source code globals).codeDigest := rfl
  have version : (new source code globals).version = currentVersion := rfl
  unfold verify
  rw [code_new, globals_new, version, digest, table, targets, declared]
  simp only [ne_eq, not_true, if_false]
  rfl

/-- A table of names without a wrong one starts with the expected names. -/
theorem isPrefix_of_wrongGlobal? {slot : Nat} {expected found : List Name}
    (right : wrongGlobal? slot expected found = none)
    (enough : expected.length ≤ found.length) : expected <+: found := by
  induction expected generalizing slot found with
  | nil => exact List.nil_prefix
  | cons name expected ih =>
      cases found with
      | nil => exact absurd enough (Nat.not_succ_le_zero _)
      | cons other found =>
          rw [wrongGlobal?] at right
          split at right
          · next same =>
              subst same
              exact (List.prefix_cons_inj _).mpr (ih right (Nat.le_of_succ_le_succ enough))
          · cases right

theorem predefinedNames_isPrefix (right : globalsFault? bundle.globals = none) :
    predefinedNames <+: bundle.globals := by
  unfold globalsFault? at right
  split at right
  · cases right
  · next enough => exact isPrefix_of_wrongGlobal? right (Nat.not_lt.mp enough)

end Bundle

namespace Capability

/-- Only the predefined names count. -/
theorem ofInstr?_of_isPrefix {globals : List Name} (table : predefinedNames <+: globals)
    (instr : Instr) : ofInstr? globals instr = ofInstr? predefinedNames instr := by
  cases instr with
  | getGlobal slot =>
      rw [ofInstr?, ofInstr?]
      split
      · next inside =>
          obtain ⟨more, rfl⟩ := table
          rw [List.getElem?_append_left inside.2]
      · rfl
  | _ => rfl

theorem ofInstr?_eq_none_of_neededBy {globals : List Name} {instrs : List Code.Located}
    (undeclared : output.name ∉ neededBy globals instrs) {located : Code.Located}
    (listed : located ∈ instrs) : ofInstr? globals located.instr = none := by
  cases needs : ofInstr? globals located.instr with
  | none => rfl
  | some capability =>
      cases capability
      refine absurd ?_ undeclared
      have needed : output ∈ instrs.filterMap fun located => ofInstr? globals located.instr :=
        List.mem_filterMap.mpr ⟨located, listed, needs⟩
      refine List.mem_map_of_mem (List.mem_filter.mpr ⟨List.mem_cons_self, ?_⟩)
      exact List.contains_iff_mem.mpr needed

end Capability

/-- The code of a verified bundle that does not declare output is silent. -/
theorem Bundle.code_silent {bundle : Bundle} (verified : bundle.verify = .ok ())
    (undeclared : Capability.output.name ∉ bundle.capabilities) : bundle.code.Silent := by
  obtain ⟨table, targets, declared⟩ := faults_of_verify verified
  unfold targetFault? at targets
  unfold capabilityFault? Capability.required at declared
  split at targets
  · cases targets
  · next instrs decoded =>
      rw [decoded] at declared
      simp only at declared
      split at declared
      · next same =>
          have lists : bundle.code.decodeAll.1 = instrs := congrArg Prod.fst decoded
          rw [← same] at undeclared
          refine ⟨congrArg Prod.snd decoded, ?_, ?_⟩
          · rw [lists]
            simpa using targets
          · rw [lists]
            intro located listed
            rw [← Capability.ofInstr?_of_isPrefix (predefinedNames_isPrefix table)]
            exact Capability.ofInstr?_eq_none_of_neededBy undeclared listed
      · cases declared

/-! ## Runs of verified bundles -/

/-- A policy that does not grant a capability. -/
def Policy.Withholds (policy : Policy) (capability : Capability) : Prop :=
  capability.name ∈ policy.denied ∨
    ∃ allowed, policy.allowed = some allowed ∧ capability.name ∉ allowed

/-- A bundle that a policy admits does not declare what the policy withholds. -/
theorem Bundle.undeclared_of_admittedBy {bundle : Bundle} {policy : Policy}
    {capability : Capability} (admitted : bundle.admittedBy policy = .ok ())
    (withheld : policy.Withholds capability) : capability.name ∉ bundle.capabilities := by
  intro declared
  unfold admittedBy at admitted
  split at admitted
  · cases admitted
  · next granted =>
      have accepted := List.findSome?_eq_none_iff.mp granted _ declared
      unfold Policy.refusal? at accepted
      split at accepted
      · cases accepted
      · next undenied =>
          split at accepted
          · cases accepted
          · next among =>
              rcases withheld with denied | ⟨allowed, listed, missing⟩
              · exact undenied (List.contains_iff_mem.mpr denied)
              · refine among ?_
                rw [listed]
                simpa using missing

namespace Machine

/-- A machine that has not got hold of `display` and has displayed nothing so far: no reference to
it stands on the stack, among the globals behind the predefined ones or among the captures of a
closure. -/
structure WithoutDisplay (machine : Machine) : Prop where
  stack : ∀ value ∈ machine.stack.toList, value.IsSilent
  globals : ∀ value ∈ machine.globals.toList.drop predefinedValues.length, value.IsSilent
  captures : ∀ (handle : UInt32) (closure : Closure),
    machine.heap.objects[handle]? = some closure →
    ∀ value ∈ closure.captures, value.IsSilent
  events : ∀ value, .displayed value ∉ machine.events

theorem Silent.withoutDisplay {code : Code} {machine : Machine} (silent : machine.Silent code) :
    machine.WithoutDisplay := by
  refine ⟨silent.stack, ?_, fun handle closure found => (silent.closures found).2, ?_⟩
  · obtain ⟨defined, table, harmless⟩ := silent.globals
    rw [table, List.drop_left]
    exact harmless
  · exact fun value listed => (silent.events _ listed).2 value rfl

theorem silent_new {code : Code} (checked : code.Silent) (options : MachineOptions) :
    ((new options).prepare code 0).Silent code := by
  refine ⟨rfl, checked.boundary_zero, ?_, ?_, ⟨[], ?_, ?_⟩, ?_, ?_⟩
  · exact fun activation listed => absurd listed List.not_mem_nil
  · exact fun value listed => absurd listed List.not_mem_nil
  · exact (List.append_nil _).symm
  · exact fun value listed => absurd listed List.not_mem_nil
  · intro handle closure found
    simp [prepare, new, Heap.new] at found
  · exact fun event listed => absurd listed List.not_mem_nil

/-- Every run of silent code on a new machine is silent, for any number of steps. -/
theorem silent_runFrom {code : Code} (checked : code.Silent) (options : MachineOptions)
    (fuel : Nat) : ((new options).runFrom fuel code 0).2.Silent code := by
  rw [runFrom_zero]
  exact (silent_new checked options).run checked fuel

theorem step_trace (machine : Machine) : machine.step.machine.trace = machine.trace := by
  have collected : machine.collectIfNeeded.trace = machine.trace := by
    unfold collectIfNeeded
    split <;> rfl
  rcases machine.step_evolves with same | evolves
  · rw [same]
  · rw [evolves.trace, collected]

/-- Tracing is neither turned on nor off by a run. -/
theorem run_trace (machine : Machine) (fuel : Nat) :
    (run fuel machine).2.trace = machine.trace :=
  run_keeps step_trace machine fuel

/-- A silent machine that does not trace has printed nothing. -/
theorem Silent.takeOutput {code : Code} {machine : Machine} (silent : machine.Silent code)
    (untraced : machine.trace = false) : machine.takeOutput.1 = [] := by
  have none : machine.events = [] := by
    refine List.eq_nil_iff_forall_not_mem.mpr fun event listed => ?_
    rw [(silent.events event listed).1] at untraced
    cases untraced
  rw [Machine.takeOutput, none]
  rfl

end Machine

/-- A verified bundle is confined to its capabilities. A policy that admits it and withholds output
sees no run of it on a new machine print anything, as long as the machine does not trace,
whatever its options and however many steps it takes. And if the bundle does not declare output,
the machine never gets hold of `display` and never displays a value. -/
theorem Bundle.run_confined_of_verify (bundle : Bundle) (verified : bundle.verify = .ok ())
    (options : MachineOptions) :
    (∀ policy : Policy, bundle.admittedBy policy = .ok () → policy.Withholds .output →
      options.trace = false →
      ∀ fuel, ((Machine.new options).runFrom fuel bundle.code 0).2.takeOutput.1 = []) ∧
    (Capability.output.name ∉ bundle.capabilities →
      ∀ fuel, ((Machine.new options).runFrom fuel bundle.code 0).2.WithoutDisplay) := by
  constructor
  · intro policy admitted withheld untraced fuel
    have checked := code_silent verified (undeclared_of_admittedBy admitted withheld)
    refine (Machine.silent_runFrom checked options fuel).takeOutput ?_
    rw [Machine.runFrom_zero, Machine.run_trace]
    exact untraced
  · intro undeclared fuel
    exact (Machine.silent_runFrom (code_silent verified undeclared) options fuel).withoutDisplay

/-- The code of a call of a function that adds one. -/
def incrementCode : Code :=
  (Instr.encodeAll
    [.push (.int 4), .jump 33, .get 0, .push (.int 1), .getGlobal 0, .call 2, .ret,
      .makeLambda 11 1 0, .call 1, .pop]).toArray

/-- That code packed with its source. -/
def incrementBundle : Bundle :=
  Bundle.new (utf8 "((lambda (x) (+ x 1)) 4)") incrementCode predefinedNames

theorem Bundle.run_confined_of_verify_increment :
    incrementBundle.verify = .ok () ∧
      incrementBundle.admittedBy (Policy.restricted []) = .ok () ∧
      (∀ fuel, ((Machine.new {}).runFrom fuel incrementBundle.code 0).2.takeOutput.1 = []) ∧
      ∀ fuel, ((Machine.new {}).runFrom fuel incrementBundle.code 0).2.WithoutDisplay := by
  have targets : targetFault? incrementCode = none := by cbv
  have verified : incrementBundle.verify = .ok () := verify_new (by decide) targets
  have required : Capability.required incrementCode predefinedNames = .ok [] := by cbv
  have undeclared : incrementBundle.capabilities = [] := by
    simp only [incrementBundle, new, required]
    rfl
  have admitted : incrementBundle.admittedBy (Policy.restricted []) = .ok () := by
    rw [admittedBy, undeclared]
    rfl
  obtain ⟨quiet, confined⟩ := run_confined_of_verify incrementBundle verified {}
  refine ⟨verified, admitted, ?_, ?_⟩
  · exact quiet _ admitted (.inr ⟨[], rfl, List.not_mem_nil⟩) rfl
  · exact confined (undeclared ▸ List.not_mem_nil)

end ClosureLisp
