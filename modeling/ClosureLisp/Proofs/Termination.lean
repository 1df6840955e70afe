import ClosureLisp.Proofs.Splitting

/-!
# Compiled code comes to an end

Jumps in compiled code only go forward, and the body of a closure runs on a higher stack than the
call it belongs to, because the closure itself lies below it. So the code of an expression stops
with a fault or comes to its end, by induction on the room left on the stack and, for equal room,
on the expression: `exprSettles`. A load of a local slot never misses the stack on the way, since
the activation of a body has all the slots that its frame has in the end.
-/

namespace ClosureLisp

/-! ## Frames and their slots -/

namespace Frame

theorem Extends.nextSlot_le {frame later : Frame} (grown : Extends frame later) :
    frame.nextSlot ≤ later.nextSlot := by
  have longer := grown.captures.length_le
  rw [nextSlot, nextSlot, arity, arity, grown.parameters]
  omega

/-- The slot of a name is one of those in use. -/
theorem lt_nextSlot_of_slot? {frame : Frame} {name : Name} {slot : Nat} (regular : frame.Regular)
    (found : frame.slot? name = some slot) : slot < frame.nextSlot := by
  unfold slot? at found
  split at found
  · next index listed =>
      cases found
      obtain ⟨inside, -⟩ := List.idxOf?_eq_some_iff.mp listed
      rw [nextSlot, arity]
      omega
  · split at found
    · cases found
      rw [nextSlot]
      omega
    · obtain ⟨capture, known, rfl⟩ := Option.map_eq_some_iff.mp found
      obtain ⟨index, inside, place⟩ := List.mem_iff_getElem.mp (List.mem_of_find?_eq_some known)
      rw [regular index capture (List.getElem?_eq_some_iff.mpr ⟨inside, place⟩), nextSlot]
      omega

end Frame

/-! ## Closures that fit their bodies -/

/-- The body of a closure stands in a stream, and the closure has captured as many values as the
frame of the body has captures in the end. -/
inductive Code.HoldsClosure (code : Code) (closure : Closure) : Prop where
  | intro {globals : Name → Option Nat} {parameters : List Name} {self : Option Name}
      {outer after : List Frame} {frame : Frame} {body : Expr} {bodyCode : List Instr}
      (threaded : Frame.Threaded outer)
      (counted : closure.arity.toNat = parameters.length)
      (generated : body.generate globals closure.entry.toNat (⟨parameters, self, []⟩ :: outer) =
        .ok (bodyCode, frame :: after))
      (fits : body.Fits globals closure.entry.toNat (⟨parameters, self, []⟩ :: outer))
      (placed : code.Places closure.entry.toNat (bodyCode ++ [.ret]))
      (small : closure.entry.toNat < Expr.operandRange)
      (captured : closure.captures.length = frame.captures.length) : HoldsClosure code closure

theorem Code.HoldsClosure.ofValues {code : Code} {globals : Name → Option Nat}
    {parameters : List Name} {self : Option Name} {outer after : List Frame} {frame : Frame}
    {body : Expr} {bodyCode : List Instr} {entry : Nat} {values : List Value}
    (threaded : Frame.Threaded outer)
    (generated : body.generate globals entry (⟨parameters, self, []⟩ :: outer) =
      .ok (bodyCode, frame :: after))
    (fits : body.Fits globals entry (⟨parameters, self, []⟩ :: outer))
    (placed : code.Places entry (bodyCode ++ [.ret])) (small : entry < Expr.operandRange)
    (aritySmall : parameters.length < Expr.operandRange)
    (captured : values.length = frame.captures.length) :
    code.HoldsClosure (.ofValues entry parameters.length values) := by
  have same : (Closure.ofValues entry parameters.length values).entry.toNat = entry :=
    Expr.toNat_toUInt32_word small
  rw [← same] at generated fits placed
  have copied : (Closure.ofValues entry parameters.length values).captures.length =
      frame.captures.length := by
    rw [← captured]
    exact List.length_map _
  exact .intro threaded (Expr.toNat_toUInt32_word aritySmall) generated fits placed
    (by rwa [same]) copied

namespace Machine

/-- The current activation has the slots that the innermost of some frames uses, and they lie on
the stack. -/
def Seated (frames : List Frame) (machine : Machine) : Prop :=
  ∀ frame ∈ frames.head?, ∃ activation outer, machine.activations = activation :: outer ∧
    frame.nextSlot ≤ activation.locals ∧
    activation.base + activation.locals ≤ machine.stack.size

/-- A machine inside code with the given frames: its closures fit their bodies, and no more than
the given number of values can still be pushed. -/
structure Poised (frames : List Frame) (room : Nat) (machine : Machine) : Prop where
  seated : machine.Seated frames
  closures : machine.heap.Each machine.code.HoldsClosure
  limited : machine.stackLimit ≤ machine.stack.size + room

namespace Poised

variable {frames later : List Frame} {room : Nat} {machine : Machine}

theorem shrink (poised : machine.Poised later room)
    (grown : List.Forall₂ Frame.Extends frames later) : machine.Poised frames room := by
  refine ⟨?_, poised.closures, poised.limited⟩
  cases grown with
  | nil => exact poised.seated
  | cons head tail =>
      intro frame listed
      cases listed
      obtain ⟨activation, outer, active, wide, inside⟩ := poised.seated _ rfl
      exact ⟨activation, outer, active, Nat.le_trans head.nextSlot_le wide, inside⟩

theorem advance (poised : machine.Poised frames room) {heap : Heap}
    (closures : heap.Each machine.code.HoldsClosure) (pc : Nat) (values : List Value)
    (events : List Event) : (machine.advance pc values heap events).Poised frames room := by
  refine ⟨fun frame listed => ?_, closures, ?_⟩
  · obtain ⟨activation, outer, active, wide, inside⟩ := poised.seated frame listed
    refine ⟨activation, outer, active, wide, ?_⟩
    rw [size_advance]
    exact Nat.le_add_right_of_le inside
  · rw [size_advance, advance_stackLimit]
    exact Nat.le_trans poised.limited (by omega)

end Poised

/-! ## Runs that settle -/

/-- A machine stops with a fault, or it comes to where a former state has gone on to an offset and
pushed a given number of values. -/
inductive Settles (start : Machine) (pc count : Nat) (machine : Machine) : Prop where
  | stops {cause : Fault} {last : Machine} (fails : machine.Fails cause last) :
      Settles start pc count machine
  | comes {values : List Value} {heap : Heap} {events : List Event} {made : Nat}
      (counted : values.length = count)
      (runs : machine.Runs made (start.advance pc values heap events))
      (closures : heap.Each start.code.HoldsClosure) : Settles start pc count machine

/-- An effect that is a fault, or after which a machine settles. -/
inductive SettlesAfter (start : Machine) (pc count : Nat) : Effect → Prop where
  | fault (cause : Fault) (machine : Machine) : SettlesAfter start pc count (.fault cause machine)
  | next {machine : Machine} (settles : Settles start pc count machine) :
      SettlesAfter start pc count (.next machine)

section Settling

variable {pc stop count more size target : Nat} {start machine next goal : Machine}
  {values : List Value} {heap : Heap} {events : List Event} {instr : Instr}

/-- A machine that has gone on executes its instruction where it has gone on past it. -/
theorem step_advance {property : Closure → Prop} (each : heap.Each property)
    (decoded : start.code.instrAt pc = .ok (instr, size)) :
    ∃ laterHeap laterEvents, laterHeap.Each property ∧
      (start.advance pc values heap events).step = Progress.ofEffect pc instr
        ((start.advance (pc + size) values laterHeap laterEvents).execute instr) := by
  have prepared := ready_eq_advance (start.advance pc values heap events) instr size
  rw [advance_advance, List.append_nil, advance_pc] at prepared
  refine ⟨_, ((start.advance pc values heap events).ready instr size).events,
    Heap.Each.ready (start.advance pc values heap events) each instr size, ?_⟩
  rw [← prepared]
  exact step_of_instrAt decoded

namespace Settles

theorem of_runs {made : Nat} (runs : machine.Runs made next)
    (settles : Settles start stop count next) : Settles start stop count machine := by
  cases settles with
  | stops fails => exact .stops (runs.fails fails)
  | comes counted onward closures => exact .comes counted (runs.trans onward) closures

theorem here (closures : machine.heap.Each machine.code.HoldsClosure) :
    Settles machine machine.pc 0 machine := by
  have runs : machine.Runs 0 (machine.advance machine.pc [] machine.heap machine.events) := by
    rw [advance_self]
    exact .refl machine
  exact .comes rfl runs closures

/-- A machine goes on from where it has come to. -/
theorem bind (first : Settles start pc count machine)
    (second : ∀ {values : List Value} {heap : Heap} {events : List Event}, values.length = count →
      heap.Each start.code.HoldsClosure →
      Settles start stop more (start.advance pc values heap events)) :
    Settles start stop more machine := by
  cases first with
  | stops fails => exact .stops fails
  | comes counted runs closures => exact .of_runs runs (second counted closures)

/-- What is pushed above some values. -/
theorem above (upper : Settles (start.advance pc values heap events) stop count machine) :
    Settles start stop (values.length + count) machine := by
  cases upper with
  | stops fails => exact .stops fails
  | comes counted runs closures =>
      rw [advance_advance] at runs
      refine .comes ?_ runs closures
      rw [List.length_append, counted]

/-- A machine that stands at an instruction settles if it does so after the instruction. -/
theorem of_instr (closures : heap.Each start.code.HoldsClosure)
    (decoded : start.code.instrAt pc = .ok (instr, size))
    (executes : ∀ (heap : Heap) (events : List Event), heap.Each start.code.HoldsClosure →
      SettlesAfter goal stop count
        ((start.advance (pc + size) values heap events).execute instr)) :
    Settles goal stop count (start.advance pc values heap events) := by
  obtain ⟨laterHeap, laterEvents, kept, stepped⟩ := step_advance closures decoded
  have after := executes laterHeap laterEvents kept
  generalize (start.advance (pc + size) values laterHeap laterEvents).execute instr = effect at *
  cases after with
  | fault cause last => exact .stops ⟨_, _, _, .of_step stepped⟩
  | next settles => exact .of_runs (.single stepped) settles

/-- The same for a machine that has not gone on yet. -/
theorem of_first_instr (closures : machine.heap.Each machine.code.HoldsClosure)
    (decoded : machine.code.instrAt machine.pc = .ok (instr, size))
    (executes : ∀ (heap : Heap) (events : List Event), heap.Each machine.code.HoldsClosure →
      SettlesAfter machine stop count
        ((machine.advance (machine.pc + size) [] heap events).execute instr)) :
    Settles machine stop count machine := by
  have settles : Settles machine stop count
      (machine.advance machine.pc [] machine.heap machine.events) :=
    .of_instr closures decoded executes
  rwa [advance_self] at settles

end Settles

namespace SettlesAfter

theorem of_push {value : Value} (closures : heap.Each start.code.HoldsClosure) :
    SettlesAfter start pc 1 ((start.advance pc [] heap events).push value) := by
  rw [push]
  split
  · exact .fault _ _
  · obtain ⟨other, rfl⟩ := value.exists_onMachine
    have same : { start.advance pc [] heap events with
        stack := (start.advance pc [] heap events).stack.push other.onMachine } =
        start.advance pc [other] heap events := by
      simp [Machine.advance]
    rw [same]
    exact .next (.comes rfl (.refl _) closures)

theorem of_getGlobal (closures : heap.Each start.code.HoldsClosure) (slot : Int32) :
    SettlesAfter start pc 1 ((start.advance pc [] heap events).execute (.getGlobal slot)) := by
  rw [execute, loadGlobal]
  split
  · exact .fault _ _
  · split
    · exact .of_push closures
    · exact .fault _ _

/-- A slot of the frame is found on the stack. -/
theorem of_get {frames : List Frame} {name : Name} {slot : Nat} (seated : start.Seated frames)
    (threaded : Frame.Threaded frames) (found : Frame.innermostSlot? frames name = some slot)
    (fits : slot < Expr.operandRange) (closures : heap.Each start.code.HoldsClosure) :
    SettlesAfter start pc 1
      ((start.advance pc [] heap events).execute (.get (Expr.word slot))) := by
  cases frames with
  | nil => cases found
  | cons frame frames =>
      obtain ⟨activation, outer, active, wide, inside⟩ := seated frame rfl
      have low : slot < frame.nextSlot := Frame.lt_nextSlot_of_slot? threaded.1 found
      have within : ¬ ((slot : Int) < 0 ∨ (activation.locals : Int) ≤ slot) := by omega
      have held : activation.base + slot < (start.advance pc [] heap events).stack.size := by
        rw [size_advance, List.length_nil]
        omega
      simp only [execute, load, advance_activations, active, Expr.toInt_word fits, if_neg within,
        Int.toNat_natCast, Array.getElem?_eq_getElem held]
      exact .of_push closures

theorem of_jump (closures : heap.Each start.code.HoldsClosure)
    (fits : target < Expr.operandRange) :
    SettlesAfter start target values.length
      ((start.advance pc values heap events).execute (.jump (Expr.word target))) := by
  rw [execute, checkTarget]
  split
  · rw [goTo_advance fits]
    exact .next (.comes rfl (.refl _) closures)
  · exact .fault _ _

/-- A branch takes its condition from the stack and goes one of two ways. -/
theorem of_branch {test : Value} (fits : target < Expr.operandRange)
    (jumped : Settles start stop count (start.advance target [] heap events))
    (passed : Settles start stop count (start.advance pc [] heap events)) :
    SettlesAfter start stop count
      ((start.advance pc [test] heap events).execute (.jumpIf (Expr.word target))) := by
  rw [execute, branch, checkTarget]
  split
  · rw [pop_advance_single]
    split
    · rw [goTo_advance fits]
      exact .next jumped
    · exact .next passed
    · exact .fault _ _
  · exact .fault _ _

theorem of_makeLambda {entry arity : Nat} (closures : heap.Each start.code.HoldsClosure)
    (made : start.code.HoldsClosure (.ofValues entry arity values))
    (small : entry < Expr.operandRange) (inside : entry ≤ start.code.size)
    (aritySmall : arity < Expr.operandRange) (capturesSmall : values.length < Expr.operandRange) :
    SettlesAfter start pc 1 ((start.advance pc values heap events).execute
      (.makeLambda (Expr.word entry) (Expr.word arity) (Expr.word values.length))) := by
  rw [execute_makeLambda small aritySmall capturesSmall inside]
  exact .of_push (closures.alloc made)

end SettlesAfter

/-- Values that have been pushed stay when the machine jumps. -/
theorem Settles.then_jump (settles : Settles start pc count machine)
    (decoded : start.code.instrAt pc = .ok (.jump (Expr.word target), size))
    (fits : target < Expr.operandRange) : Settles start target count machine := by
  refine settles.bind fun counted closures => ?_
  rw [← counted]
  exact .of_instr closures decoded fun heap events closures => .of_jump closures fits

end Settling

end Machine

open Machine

/-! ## Expressions -/

/-- The code of an expression settles on one value, if no more than the given number of values can
still be pushed. -/
def ExprSettles (room : Nat) (expr : Expr) : Prop :=
  ∀ {globals : Name → Option Nat} {frames after : List Frame} {code : List Instr}
    {machine : Machine},
    Frame.Threaded frames →
    expr.generate globals machine.pc frames = .ok (code, after) →
    expr.Fits globals machine.pc frames → machine.code.Places machine.pc code →
    machine.Poised after room →
    Settles machine (machine.pc + Instr.sizeAll code) 1 machine

section Forms

variable {room : Nat} {globals : Name → Option Nat} {frames after : List Frame}
  {code : List Instr} {machine : Machine}

theorem exprSettles_constant {expr : Expr} {constant : Constant}
    (generates : ∀ globals offset frames,
      expr.generate globals offset frames = .ok ([.push constant], frames)) :
    ExprSettles room expr := by
  intro globals frames after code machine _ generated _ placed poised
  rw [generates] at generated
  cases generated
  rw [Instr.sizeAll_singleton]
  exact .of_first_instr poised.closures placed.instrAt fun heap events closures =>
    .of_push closures

theorem exprSettles_var (span : Span) (name : Name) : ExprSettles room (.var span name) := by
  intro globals frames after code machine threaded generated fits placed poised
  rcases Expr.generate_var generated with ⟨slot, resolved, rfl⟩ | ⟨-, -, slot, -, rfl⟩
  · obtain ⟨kept, -, found⟩ := Frame.resolve?_spec threaded resolved
    have small : slot < Expr.operandRange := by
      refine fits slot ?_
      rw [Expr.operands, resolved]
      exact List.mem_singleton.mpr rfl
    rw [Instr.sizeAll_singleton]
    exact .of_first_instr poised.closures placed.instrAt fun heap events closures =>
      .of_get poised.seated kept found small closures
  · rw [Instr.sizeAll_singleton]
    exact .of_first_instr poised.closures placed.instrAt fun heap events closures =>
      .of_getGlobal closures _

theorem exprSettles_ifThen (span : Span) {test consequent : Expr}
    (testSettles : ExprSettles room test) (thenSettles : ExprSettles room consequent) :
    ExprSettles room (.ifThen span test consequent) := by
  intro globals frames after code machine threaded generated fits placed poised
  obtain ⟨testCode, middle, thenCode, tested, chosen, rfl⟩ := Expr.generate_ifThen generated
  obtain ⟨testFits, thenSmall, stopSmall, thenFits⟩ := fits.ifThen tested chosen
  obtain ⟨kept, -⟩ := Expr.keepsFrames globals test threaded tested
  obtain ⟨-, grown⟩ := Expr.keepsFrames globals consequent kept chosen
  have branchPlaced := placed.left.right
  have thenPlaced := placed.right
  rw [Instr.sizeAll_append, ← Nat.add_assoc, Expr.thenOffset_eq]
  rw [Expr.thenOffset_eq] at thenPlaced
  refine (testSettles threaded tested testFits placed.left.left (poised.shrink grown)).bind
    fun {values heap events} counted closures => ?_
  obtain ⟨value, rfl⟩ := List.length_eq_one_iff.mp counted
  refine .of_instr closures branchPlaced.instrAt fun heap events closures =>
    .of_branch thenSmall ?_ ?_
  · exact (thenSettles kept chosen thenFits thenPlaced (poised.advance closures _ [] events)).above
  · have pushed : Settles machine _ 1 (machine.advance _ [] heap events) :=
      .of_instr closures branchPlaced.tail.instrAt fun heap events closures => .of_push closures
    exact pushed.then_jump branchPlaced.tail.tail.instrAt stopSmall

theorem exprSettles_ifElse (span : Span) {test consequent alternative : Expr}
    (testSettles : ExprSettles room test) (thenSettles : ExprSettles room consequent)
    (elseSettles : ExprSettles room alternative) :
    ExprSettles room (.ifElse span test consequent alternative) := by
  intro globals frames after code machine threaded generated fits placed poised
  obtain ⟨testCode, first, elseCode, second, thenCode, tested, otherwise, chosen, rfl⟩ :=
    Expr.generate_ifElse generated
  obtain ⟨testFits, thenSmall, elseFits, stopSmall, thenFits⟩ :=
    fits.ifElse tested otherwise chosen
  obtain ⟨firstKept, -⟩ := Expr.keepsFrames globals test threaded tested
  obtain ⟨secondKept, elseGrown⟩ := Expr.keepsFrames globals alternative firstKept otherwise
  obtain ⟨-, thenGrown⟩ := Expr.keepsFrames globals consequent secondKept chosen
  have elsePoised := poised.shrink thenGrown
  have branchPlaced := placed.right
  have elsePlaced := branchPlaced.tail.left
  have jumpPlaced := branchPlaced.tail.right
  have thenPlaced := jumpPlaced.tail
  rw [Expr.stop_of_ifElse]
  refine (testSettles threaded tested testFits placed.left (elsePoised.shrink elseGrown)).bind
    fun {values heap events} counted closures => ?_
  obtain ⟨value, rfl⟩ := List.length_eq_one_iff.mp counted
  refine .of_instr closures branchPlaced.instrAt fun heap events closures =>
    .of_branch thenSmall ?_ ?_
  · exact (thenSettles secondKept chosen thenFits thenPlaced
      (poised.advance closures _ [] events)).above
  · exact (elseSettles firstKept otherwise elseFits elsePlaced
      (elsePoised.advance closures _ [] events)).above.then_jump jumpPlaced.instrAt stopSmall

/-- The loads of captures push one value each. -/
theorem Machine.Settles.of_loads {captures : List Capture} (threaded : Frame.Threaded frames)
    (loaded : ∀ capture ∈ captures,
      Frame.innermostSlot? frames capture.name = some capture.parentSlot)
    (small : ∀ capture ∈ captures, capture.parentSlot < Expr.operandRange)
    (placed : machine.code.Places machine.pc
      (captures.map fun capture => .get (Expr.word capture.parentSlot)))
    (poised : machine.Poised frames room) :
    Settles machine (machine.pc + Instr.sizeAll (captures.map fun capture =>
      .get (Expr.word capture.parentSlot))) captures.length machine := by
  induction captures generalizing machine with
  | nil => exact .here poised.closures
  | cons capture rest ih =>
      obtain ⟨found, loaded⟩ := List.forall_mem_cons.mp loaded
      obtain ⟨low, small⟩ := List.forall_mem_cons.mp small
      have first : Settles machine (machine.pc + _) 1 machine :=
        .of_first_instr poised.closures placed.instrAt fun heap events closures =>
          .of_get poised.seated threaded found low closures
      refine first.bind fun {values heap events} counted closures => ?_
      have upper := (ih loaded small placed.tail (poised.advance closures _ values events)).above
      rw [List.map_cons, Instr.sizeAll_cons, ← Nat.add_assoc, List.length_cons, Nat.add_comm _ 1,
        ← counted]
      exact upper

theorem exprSettles_lambda (span : Span) (self : Option Name) (parameters : List Name)
    (body : Expr) : ExprSettles room (.lambda span self parameters body) := by
  intro globals frames after code machine threaded generated fits placed poised
  obtain ⟨-, bodyCode, frame, inner, grown, rfl⟩ := Expr.generate_lambda threaded generated
  obtain ⟨stopSmall, bodyFits, slotsSmall, entrySmall, aritySmall, capturesSmall⟩ :=
    fits.lambda inner
  obtain ⟨⟨-, loaded, kept⟩, -⟩ :=
    Expr.keepsFrames globals body (threaded.cons_fresh parameters self) inner
  rw [Expr.lambdaCode_eq] at placed ⊢
  have bodyPlaced := placed.tail.left
  have madePlaced := placed.tail.right
  rw [Expr.stop_of_body] at madePlaced
  rw [Instr.sizeAll_cons, Instr.sizeAll_append, ← Nat.add_assoc, ← Nat.add_assoc,
    Expr.stop_of_body, Instr.sizeAll_append, Instr.sizeAll_singleton, ← Nat.add_assoc]
  refine ((Settles.here poised.closures).then_jump placed.instrAt stopSmall).bind
    fun {values heap events} counted closures => ?_
  obtain rfl := List.length_eq_zero_iff.mp counted
  refine (Settles.of_loads kept loaded slotsSmall madePlaced.left
    (poised.advance closures _ [] events)).above.bind
      fun {values heap events} counted closures => ?_
  rw [List.length_nil, Nat.zero_add] at counted
  have held : machine.code.HoldsClosure
      (.ofValues (machine.pc + Expr.jumpSize) parameters.length values) :=
    .ofValues threaded inner bodyFits bodyPlaced entrySmall aritySmall counted
  have inside : machine.pc + Expr.jumpSize ≤ machine.code.size :=
    Nat.le_trans (Nat.le_add_right _ _) bodyPlaced.stop_le
  have decoded := madePlaced.right.instrAt
  rw [← counted] at decoded capturesSmall
  rw [← counted]
  exact .of_instr closures decoded fun heap events closures =>
    .of_makeLambda closures held entrySmall inside aritySmall capturesSmall

/-- The code of expressions one after the other settles on a value for each. -/
theorem exprsSettle {exprs : List Expr} (each : ∀ expr ∈ exprs, ExprSettles room expr)
    (threaded : Frame.Threaded frames)
    (generated : Expr.generateAll globals machine.pc frames exprs = .ok (code, after))
    (fits : Expr.FitsAll globals machine.pc frames exprs)
    (placed : machine.code.Places machine.pc code) (poised : machine.Poised after room) :
    Settles machine (machine.pc + Instr.sizeAll code) exprs.length machine := by
  induction exprs generalizing frames code machine with
  | nil =>
      rw [Expr.generateAll] at generated
      cases generated
      exact .here poised.closures
  | cons expr rest ih =>
      obtain ⟨head, tail⟩ := List.forall_mem_cons.mp each
      obtain ⟨firstCode, middle, restCode, first, rested, rfl⟩ := Expr.generateAll_cons generated
      obtain ⟨firstFits, restFits⟩ := fits.cons first
      obtain ⟨kept, -⟩ := Expr.keepsFrames globals expr threaded first
      obtain ⟨-, grown⟩ := Expr.generateAll_keepsFrames
        (fun expr _ => Expr.keepsFrames globals expr) kept rested
      refine (head threaded first firstFits placed.left (poised.shrink grown)).bind
        fun {values heap events} counted closures => ?_
      have upper := (ih tail kept rested restFits placed.right
        (poised.advance closures _ values events)).above
      rw [Instr.sizeAll_append, ← Nat.add_assoc, List.length_cons, Nat.add_comm _ 1, ← counted]
      exact upper

/-- A machine at the entry of a closure has all the slots of its frame. The closure itself lies
among them, so that there is less room than before the call. -/
theorem Machine.Poised.entered {start : Machine} {returnTo entry : Nat} {handle : UInt32}
    {arity : Int} {values captured : List Value} {heap : Heap} {events : List Event} {frame : Frame}
    (parameters : frame.arity = values.length)
    (captures : frame.captures.length = captured.length)
    (closures : heap.Each start.code.HoldsClosure)
    (limited : start.stackLimit ≤ start.stack.size + (room + 1)) :
    (start.entered returnTo entry handle arity values captured heap events).Poised
      (frame :: after) room := by
  have size : (start.entered returnTo entry handle arity values captured heap events).stack.size =
      start.stack.size + (values.length + (captured.length + 1)) := by
    simp [Machine.entered]
  refine ⟨fun found listed => ?_, closures, ?_⟩
  · cases listed
    refine ⟨_, _, rfl, ?_, ?_⟩
    · exact Nat.le_of_eq (by rw [Frame.nextSlot, parameters, captures])
    · rw [size]
      dsimp only
      omega
  · rw [size]
    change start.stackLimit ≤ _
    omega

/-- The body of a closure settles on its result where the call was made from. -/
theorem Machine.Settles.of_body {start : Machine} {returnTo : Nat} {handle : UInt32}
    {arity : Int} {values captured : List Value} {heap : Heap} {events : List Event}
    {closure : Closure} (bodies : ∀ body, ExprSettles room body)
    (held : start.code.HoldsClosure closure) (equal : closure.arity.toNat = values.length)
    (captures : closure.captures = captured.map Value.onMachine)
    (closures : heap.Each start.code.HoldsClosure)
    (limited : start.stackLimit ≤ start.stack.size + (room + 1)) :
    Settles start returnTo 1
      (start.entered returnTo closure.entry.toNat handle arity values captured heap events) := by
  obtain @⟨globals, parameters, self, outer, after, frame, body, bodyCode, threaded, counted,
    generated, fits, placed, -, copied⟩ := held
  have fresh := threaded.cons_fresh parameters self
  obtain ⟨-, grown⟩ := Expr.keepsFrames globals body fresh generated
  have sized : frame.arity = values.length := by
    cases grown with
    | cons head _ => rw [Frame.arity, head.parameters, ← counted, equal]
  have copies : frame.captures.length = captured.length := by
    rw [← copied, captures, List.length_map]
  cases bodies body fresh generated fits placed.left
      (.entered sized copies closures limited) with
  | stops fails => exact .stops fails
  | comes single runs closures =>
      obtain ⟨result, rfl⟩ := List.length_eq_one_iff.mp single
      refine .of_runs runs (.of_instr closures placed.right.instrAt
        fun heap events closures => ?_)
      rw [execute, leave_entered]
      exact .of_push closures

/-- A call settles on one value, if all bodies do so where there is less room. -/
theorem Machine.SettlesAfter.of_call {start : Machine} {pc : Nat} {values : List Value}
    {callee : Value} {heap : Heap} {events : List Event}
    (bodies : ∀ less, less < room → ∀ body, ExprSettles less body)
    (closures : heap.Each start.code.HoldsClosure)
    (limited : start.stackLimit ≤ start.stack.size + room)
    (fits : values.length < Expr.operandRange) :
    SettlesAfter start pc 1 ((start.advance pc (values ++ [callee]) heap events).execute
      (.call (Expr.word values.length))) := by
  rw [execute_call _ fits]
  cases callee with
  | builtin name arity =>
      simp only [Value.onMachine, callBuiltin_advance]
      split
      · exact .fault _ _
      · exact .of_push closures
  | closure handle arity =>
      simp only [Value.onMachine]
      cases stored : heap.objects[handle + 1]? with
      | none =>
          have missing : (start.advance pc values heap events).heap.get (handle + 1) =
              .error (.unknownHandle (handle + 1)) := by
            change heap.get (handle + 1) = _
            rw [Heap.get, stored]
          rw [enter, missing]
          exact .fault _ _
      | some closure =>
          by_cases differs : closure.arity.toNat ≠ values.length
          · rw [enter_arity stored differs]
            exact .fault _ _
          · have equal := Decidable.not_not.mp differs
            obtain ⟨captured, captures⟩ := Value.exists_map_onMachine closure.captures
            have held := closures _ closure stored
            obtain ⟨-, -, -, -, placed, small, -⟩ := id held
            rcases enter_cases stored captures equal small
                (Nat.le_trans (Nat.le_add_right _ _) placed.stop_le) with
              ⟨limit, last, full⟩ | ⟨entered, free⟩
            · rw [full]
              exact .fault _ _
            · rw [entered]
              -- Entering has pushed the closure, so there was room for it.
              cases room with
              | zero => omega
              | succ less =>
                  exact .next (.of_body (bodies less (Nat.lt_succ_self less)) held equal captures
                    closures limited)
  | nil | int | bool => exact .fault _ _

theorem exprSettles_call (bodies : ∀ less, less < room → ∀ body, ExprSettles less body)
    (span : Span) {callee : Expr} {arguments : List Expr} (calleeSettles : ExprSettles room callee)
    (argumentsSettle : ∀ argument ∈ arguments, ExprSettles room argument) :
    ExprSettles room (.call span callee arguments) := by
  intro globals frames after code machine threaded generated fits placed poised
  obtain ⟨argumentCode, middle, calleeCode, supplied, called, rfl⟩ := Expr.generate_call generated
  obtain ⟨argumentsFit, calleeFits, countSmall⟩ := fits.call supplied
  obtain ⟨kept, -⟩ := Expr.generateAll_keepsFrames
    (fun expr _ => Expr.keepsFrames globals expr) threaded supplied
  obtain ⟨-, grown⟩ := Expr.keepsFrames globals callee kept called
  rw [Instr.sizeAll_append, Instr.sizeAll_append, Instr.sizeAll_singleton, ← Nat.add_assoc,
    ← Nat.add_assoc]
  refine (exprsSettle argumentsSettle threaded supplied argumentsFit placed.left
    (poised.shrink grown)).bind fun {values heap events} counted closures => ?_
  have callPlaced := placed.right.right
  rw [← counted] at callPlaced countSmall ⊢
  have upper := calleeSettles kept called calleeFits placed.right.left
    (poised.advance closures _ values events)
  cases upper with
  | stops fails => exact .stops fails
  | comes single runs closures =>
      obtain ⟨value, rfl⟩ := List.length_eq_one_iff.mp single
      rw [advance_advance] at runs
      exact .of_runs runs (.of_instr closures callPlaced.instrAt fun heap events closures =>
        .of_call bodies closures poised.limited countSmall)

end Forms

/-- The code of an expression stops with a fault or comes to its end with one value. -/
theorem exprSettles (room : Nat) (expr : Expr) : ExprSettles room expr := by
  -- The bodies of closures are no parts of the expression, but there is less room for them.
  induction room using Nat.strongRecOn generalizing expr with
  | _ room bodies =>
      induction expr using Expr.induction with
      | int span number => exact exprSettles_constant fun _ _ _ => by rw [Expr.generate]
      | bool span flag => exact exprSettles_constant fun _ _ _ => by rw [Expr.generate]
      | var span name => exact exprSettles_var span name
      | ifThen span test consequent testIh thenIh => exact exprSettles_ifThen span testIh thenIh
      | ifElse span test consequent alternative testIh thenIh elseIh =>
          exact exprSettles_ifElse span testIh thenIh elseIh
      | define span name value valueIh =>
          intro globals frames after code machine _ generated
          exact absurd generated Expr.generate_define
      | lambda span self parameters body bodyIh =>
          exact exprSettles_lambda span self parameters body
      | call span callee arguments calleeIh argumentsIh =>
          exact exprSettles_call bodies span calleeIh argumentsIh

/-! ## Programs -/

namespace Machine

/-- A machine stops with a fault, or it comes to rest between two top-level expressions. -/
inductive ComesToRest (offset : Nat) (machine : Machine) : Prop where
  | stops {cause : Fault} {last : Machine} (fails : machine.Fails cause last) :
      ComesToRest offset machine
  | rests {last : Machine} {made : Nat} (runs : machine.Runs made last)
      (resting : last.AtRest offset) (same : last.code = machine.code)
      (closures : last.heap.Each last.code.HoldsClosure) : ComesToRest offset machine

section Batches

variable {compiler later : Compiler} {expr : Expr} {exprs : List Expr} {instrs : List Instr}
  {machine : Machine}

theorem ComesToRest.of_runs {offset made : Nat} {next : Machine} (runs : machine.Runs made next)
    (same : next.code = machine.code) (rest : next.ComesToRest offset) :
    machine.ComesToRest offset := by
  cases rest with
  | stops fails => exact .stops (runs.fails fails)
  | rests onward resting unchanged closures =>
      exact .rests (runs.trans onward) resting (unchanged.trans same) closures

/-- The code of a top-level expression and the instruction behind it, which takes the value from
the stack. -/
theorem ComesToRest.of_code {last : Instr}
    (generated : expr.generate compiler.slot? compiler.buffer.used [] = .ok (instrs, []))
    (fits : expr.Fits compiler.slot? compiler.buffer.used [])
    (grown : (compiler.write (instrs ++ [last])).buffer.code.toList <+: machine.code.toList)
    (resting : machine.AtRest compiler.buffer.used)
    (closures : machine.heap.Each machine.code.HoldsClosure)
    (takes : ∀ (value : Value) (heap : Heap) (events : List Event),
      heap.Each machine.code.HoldsClosure → ∃ next,
        (machine.advance (compiler.write (instrs ++ [last])).buffer.used [value] heap
          events).execute last = .next next ∧
        next.AtRest (compiler.write (instrs ++ [last])).buffer.used ∧
        next.code = machine.code ∧ next.heap.Each machine.code.HoldsClosure) :
    machine.ComesToRest (compiler.write (instrs ++ [last])).buffer.used := by
  have placed := Compiler.places_of_write grown
  have outside : machine.Seated [] := fun frame listed => nomatch listed
  have threaded : Frame.Threaded [] := True.intro
  have stop := compiler.used_write instrs last
  rw [← resting.pc] at generated fits placed stop
  cases exprSettles machine.stackLimit expr threaded generated fits placed.left
      ⟨outside, closures, Nat.le_add_left _ _⟩ with
  | stops fails => exact .stops fails
  | @comes values heap events made counted runs closures =>
      obtain ⟨value, rfl⟩ := List.length_eq_one_iff.mp counted
      obtain ⟨laterHeap, laterEvents, kept, stepped⟩ := step_advance closures placed.right.instrAt
      obtain ⟨next, executed, resting, same, kept⟩ := takes value laterHeap laterEvents kept
      rw [← stop, executed] at stepped
      exact .rests (runs.trans (.single stepped)) resting same (same ▸ kept)

/-- The code of a top-level expression takes a machine to the next one. -/
theorem ComesToRest.of_adds (added : compiler.Adds expr later)
    (fits : ∀ number ∈ compiler.formOperands expr, number < Expr.operandRange)
    (grown : later.buffer.code.toList <+: machine.code.toList)
    (resting : machine.AtRest compiler.buffer.used)
    (closures : machine.heap.Each machine.code.HoldsClosure) :
    machine.ComesToRest later.buffer.used := by
  cases added with
  | define free generated =>
      refine .of_code generated fits grown resting closures fun value heap events kept => ?_
      rw [execute, pop_advance_single]
      refine ⟨_, rfl, ⟨rfl, ?_, resting.activations⟩, rfl, kept⟩
      simp [resting.stack]
  | value generated =>
      rw [Compiler.formOperands_of_generate generated] at fits
      refine .of_code generated fits grown resting closures fun value heap events kept => ?_
      rw [execute, pop_advance_single, advance_activations, resting.activations]
      refine ⟨_, rfl, ⟨rfl, ?_, rfl⟩, rfl, kept⟩
      simp [resting.stack]

/-- The code of a batch takes a machine to its end. -/
theorem ComesToRest.of_addForms (added : compiler.addForms exprs = (none, later))
    (fits : compiler.Fits exprs) (grown : later.buffer.code.toList <+: machine.code.toList)
    (resting : machine.AtRest compiler.buffer.used)
    (closures : machine.heap.Each machine.code.HoldsClosure) :
    machine.ComesToRest later.buffer.used := by
  induction exprs generalizing compiler machine with
  | nil =>
      cases added
      exact .rests (.refl machine) resting rfl closures
  | cons expr rest ih =>
      obtain ⟨middle, first, rested⟩ := Compiler.addForms_cons added
      obtain ⟨firstFits, restFits⟩ := fits.cons first
      have behind := Compiler.addForms_extends middle rest
      rw [rested] at behind
      cases ComesToRest.of_adds (Compiler.adds_of_addForm first) firstFits
          (behind.code.trans grown) resting closures with
      | stops fails => exact .stops fails
      | rests runs resting same closures =>
          exact .of_runs runs same (ih rested restFits (same ▸ grown) resting closures)

/-- The run of a machine that comes to rest behind all of its code ends with a value or a fault. -/
theorem ComesToRest.ends {machine : Machine} (rest : machine.ComesToRest machine.code.size) :
    ∃ made halt last, machine.Ends made halt last ∧
      ((∃ value, halt = .value value) ∨ ∃ error, halt = .error error) := by
  cases rest with
  | stops fails =>
      obtain ⟨made, pc, opcode, ends⟩ := fails
      exact ⟨made, _, _, ends, .inr ⟨_, rfl⟩⟩
  | rests runs resting same closures =>
      have halted := step_of_end (resting.pc.trans (congrArg Array.size same.symm))
      exact ⟨_, _, _, runs.ends (.of_step halted), .inl ⟨_, rfl⟩⟩

end Batches

/-- The run of a compiled program on a fresh machine ends, with a value or an error. -/
theorem ends_of_ofExprs {exprs : List Expr} {program : Program}
    (compiled : Program.ofExprs exprs = .ok program) (fits : Compiler.new.Fits exprs)
    (options : MachineOptions) :
    ∃ made halt last, ((new options).prepare program.code 0).Ends made halt last ∧
      ((∃ value, halt = .value value) ∨ ∃ error, halt = .error error) := by
  obtain ⟨later, added, rfl⟩ := Compiler.ofExprs_eq_ok compiled
  refine ComesToRest.ends ?_
  have rest : ((new options).prepare later.buffer.code 0).ComesToRest later.buffer.used := by
    refine .of_addForms added fits (List.prefix_refl _) ⟨rfl, rfl, rfl⟩ ?_
    intro handle closure stored
    change (∅ : Std.TreeMap UInt32 Closure)[handle]? = some closure at stored
    rw [Std.TreeMap.getElem?_emptyc] at stored
    cases stored
  rwa [← CodeBuffer.size_code] at rest

end Machine

end ClosureLisp
