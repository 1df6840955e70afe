import ClosureLisp.Proofs.Evaluation
import ClosureLisp.Proofs.Reachability
import ClosureLisp.Proofs.Runs

/-!
# Machine and evaluator in agreement

The relation that the simulation carries. A closure of the machine is linked to a function of
the evaluator if its entry is where the body of the function was compiled to and its captures
are the values that the names captured by the body have in the environment of the function.
A machine agrees with an evaluator if all handles it can still reach are linked, globals
correspond slot by slot, and both have made the same number of closures.
-/

namespace ClosureLisp

/-- The machine's form of a value of the evaluator: the handles of the machine start at one, those
of the evaluator at zero. -/
def Value.onMachine : Value → Value
  | .closure handle arity => .closure (handle + 1) arity
  | other => other

theorem Constant.onMachine_value (constant : Constant) :
    constant.value.onMachine = constant.value := by
  cases constant <;> rfl

/-- The slot of a name in a table of global names. -/
def slotIn (names : List Name) (name : Name) : Option Nat :=
  names.idxOf? name

theorem slotIn_extend {table names : List Name} (known : table <+: names) {name : Name}
    {slot : Nat} (found : slotIn table name = some slot) : slotIn names name = some slot := by
  obtain ⟨more, rfl⟩ := known
  rw [slotIn, List.idxOf?, List.findIdx?_append]
  rw [slotIn, List.idxOf?] at found
  rw [found]
  rfl

/-- The slot of a name holds the value that the name has. -/
theorem lookup_of_slotIn {globals : List (Name × Value)} {name : Name} {slot : Nat}
    (found : slotIn (globals.map Prod.fst) name = some slot) :
    ∃ value, globals[slot]? = some (name, value) ∧ globals.lookup name = some value := by
  induction globals generalizing slot with
  | nil => cases found
  | cons entry rest ih =>
      obtain ⟨first, value⟩ := entry
      rw [slotIn, List.map_cons, List.idxOf?_cons] at found
      split at found
      · next same =>
          cases found
          obtain rfl : first = name := eq_of_beq same
          exact ⟨value, rfl, List.lookup_cons_self⟩
      · next other =>
          obtain ⟨index, place, rfl⟩ := Option.map_eq_some_iff.mp found
          obtain ⟨held, listed, bound⟩ := ih place
          refine ⟨held, listed, ?_⟩
          have differs : (name == first) = false := by
            rw [beq_eq_false_iff_ne]
            exact fun same => other (beq_iff_eq.mpr same.symm)
          rw [List.lookup_cons, differs]
          exact bound

/-! ## Environments and frames -/

/-- A scope binds exactly the parameters of a frame and its function's own name. -/
def Scope.BindsAs (scope : Scope) (frame : Frame) : Prop :=
  ∀ name, scope.lookup name = none ↔ name ∉ frame.parameters ∧ frame.self ≠ some name

/-- The scopes of an environment bind what the frames of the enclosing lambdas bind. -/
def Environment.Matches (environment : Environment) (frames : List Frame) : Prop :=
  List.Forall₂ Scope.BindsAs environment frames

namespace Environment.Matches

theorem extend {environment : Environment} {frames later : List Frame}
    (scopes : environment.Matches frames) (grown : List.Forall₂ Frame.Extends frames later) :
    environment.Matches later := by
  induction scopes generalizing later with
  | nil =>
      cases grown
      exact .nil
  | cons binds _ ih =>
      cases grown with
      | cons head tail =>
          refine .cons (fun name => ?_) (ih tail)
          rw [head.parameters, head.self]
          exact binds name

/-- A name that no frame holds is bound by no scope. -/
theorem lookup?_eq_none {environment : Environment} {frames : List Frame}
    (scopes : environment.Matches frames) {name : Name}
    (missing : ∀ frame ∈ frames, frame.slot? name = none) :
    environment.lookup? name = none := by
  unfold Environment.lookup?
  induction scopes with
  | nil => rfl
  | @cons scope frame _ _ binds _ ih =>
      obtain ⟨head, tail⟩ := List.forall_mem_cons.mp missing
      have unbound : scope.lookup name = none := by
        rw [binds name]
        unfold Frame.slot? at head
        split at head
        · cases head
        · next absent =>
            split at head
            · cases head
            · next other => exact ⟨List.idxOf?_eq_none_iff.mp absent, other⟩
      rw [List.findSome?_cons, unbound]
      exact ih tail

end Environment.Matches

/-! ## The scope of a call -/

/-- Names zipped with as many values: a name has the value at its place. -/
theorem lookup_zip_of_idxOf? {names : List Name} {values : List Value} {name : Name} {index : Nat}
    (found : names.idxOf? name = some index) (equal : values.length = names.length) :
    ∃ value, values[index]? = some value ∧ (names.zip values).lookup name = some value := by
  have zipped : slotIn ((names.zip values).map Prod.fst) name = some index := by
    rw [List.map_fst_zip (Nat.le_of_eq equal.symm)]
    exact found
  obtain ⟨value, listed, bound⟩ := lookup_of_slotIn zipped
  refine ⟨value, ?_, bound⟩
  rw [List.getElem?_zip_eq_some] at listed
  exact listed.2

namespace Function

variable {function : Function} {itself : Value} {values : List Value} {name : Name}

theorem lookup_scope_of_not_mem (missing : name ∉ function.parameters) :
    (function.scope itself values).lookup name =
      if function.self = some name then some itself else none := by
  have unbound : (function.parameters.zip values).lookup name = none := by
    rw [List.lookup_eq_none_iff]
    intro entry listed
    have member := (List.of_mem_zip listed).1
    rw [bne_iff_ne]
    exact fun same => missing (same ▸ member)
  rw [scope, List.lookup_append, unbound, Option.none_or]
  cases function.self with
  | none => rfl
  | some own =>
      by_cases same : own = name
      · subst same
        simp [missing]
      · have other : name ≠ own := fun equal => same equal.symm
        by_cases shadowed : own ∈ function.parameters <;> simp [shadowed, same, other]

/-- The scope of a call binds what the frame of the function binds. -/
theorem scope_bindsAs {frame : Frame} (parameters : frame.parameters = function.parameters)
    (self : frame.self = function.self)
    (equal : values.length = function.parameters.length) :
    Scope.BindsAs (function.scope itself values) frame := by
  intro name
  rw [parameters, self]
  by_cases listed : name ∈ function.parameters
  · obtain ⟨index, found⟩ : ∃ index, function.parameters.idxOf? name = some index := by
      rw [← Option.isSome_iff_exists, Option.isSome_iff_ne_none, Ne, List.idxOf?_eq_none_iff]
      exact not_not_intro listed
    obtain ⟨value, -, bound⟩ := lookup_zip_of_idxOf? found equal
    have held : (function.scope itself values).lookup name = some value := by
      rw [scope, List.lookup_append, bound, Option.some_or]
    simp [held, listed]
  · rw [lookup_scope_of_not_mem listed]
    by_cases own : function.self = some name <;> simp [own, listed]

end Function

/-! ## Linked handles -/

/-- The body of a function stands compiled in a stream at an entry, and its frame is in the end
the given one. The global names known when it was compiled are the first of those now known. -/
inductive BodyAt (code : Code) (names : List Name) (function : Function) (entry : Nat)
    (frame : Frame) : Prop where
  | intro {table : List Name} {outer after : List Frame} {bodyCode : List Instr}
      (known : table <+: names)
      (threaded : Frame.Threaded outer)
      (scopes : function.environment.Matches outer)
      (generated : Expr.generate (slotIn table) entry
        (⟨function.parameters, function.self, []⟩ :: outer) function.body =
          .ok (bodyCode, frame :: after))
      (fits : Expr.Fits (slotIn table) entry
        (⟨function.parameters, function.self, []⟩ :: outer) function.body)
      (placed : code.Places entry (bodyCode ++ [.ret]))
      (small : entry < Expr.operandRange) : BodyAt code names function entry frame

theorem BodyAt.extend {code longer : Code} {names more : List Name} {function : Function}
    {entry : Nat} {frame : Frame} (body : BodyAt code names function entry frame)
    (grown : code.toList <+: longer.toList) (added : names <+: more) :
    BodyAt longer more function entry frame := by
  obtain ⟨known, threaded, scopes, generated, fits, placed, small⟩ := body
  exact ⟨known.trans added, threaded, scopes, generated, fits, placed.extend grown, small⟩

/-- A handle of the machine whose closure is the compiled form of the function that the evaluator
keeps under the handle before. -/
inductive Linked (functions : Table Function) (objects : Table Closure) (code : Code)
    (names : List Name) : UInt32 → Prop where
  | intro {handle : UInt32} {function : Function} {closure : Closure} {frame : Frame}
      {values : List Value}
      (defined : functions[handle - 1]? = some function)
      (stored : objects[handle]? = some closure)
      (body : BodyAt code names function closure.entry.toNat frame)
      (arity : closure.arity.toNat = function.parameters.length)
      (captured : closure.captures = values.map Value.onMachine)
      (bound : frame.captures.map (fun capture => function.environment.lookup? capture.name) =
        values.map some)
      (linked : ∀ inner arity, .closure inner arity ∈ values →
        Linked functions objects code names (inner + 1)) :
      Linked functions objects code names handle

theorem Value.handle_mem_onMachine {values : List Value} {handle : UInt32} {arity : Int}
    (listed : .closure handle arity ∈ values) :
    handle + 1 ∈ handlesOf (values.map onMachine) :=
  mem_handlesOf.mpr ⟨arity, List.mem_map.mpr ⟨_, listed, rfl⟩⟩

theorem Value.mem_handlesOf_onMachine {values : List Value} {handle : UInt32}
    (listed : handle ∈ handlesOf (values.map onMachine)) :
    ∃ inner arity, handle = inner + 1 ∧ .closure inner arity ∈ values := by
  obtain ⟨arity, found⟩ := mem_handlesOf.mp listed
  obtain ⟨value, member, same⟩ := List.mem_map.mp found
  cases value with
  | closure inner innerArity =>
      obtain ⟨rfl, rfl⟩ := Value.closure.inj same
      exact ⟨inner, innerArity, rfl, member⟩
  | _ => cases same

theorem Environment.mem_handles_of_lookup? {environment : Environment} {name : Name}
    {handle : UInt32} {arity : Int}
    (found : environment.lookup? name = some (.closure handle arity)) :
    handle ∈ environment.handles := by
  obtain ⟨scope, listed, bound⟩ := List.exists_of_findSome?_eq_some found
  obtain ⟨first, last, rfl, -⟩ := List.lookup_eq_some_iff.mp bound
  refine List.mem_flatMap.mpr ⟨_, listed, List.mem_filterMap.mpr ?_⟩
  exact ⟨(name, .closure handle arity), List.mem_append_right _ List.mem_cons_self, rfl⟩

namespace Linked

variable {functions laterFunctions : Table Function} {objects laterObjects : Table Closure}
  {code longer : Code} {names more : List Name}

/-- Links survive wherever the functions and closures that they lead to survive. -/
theorem transfer (alive : UInt32 → Prop) {handle : UInt32}
    (closed : ∀ {handle next : UInt32} {function : Function} {closure : Closure},
      alive handle → functions[handle - 1]? = some function → objects[handle]? = some closure →
      next - 1 ∈ function.handles → next ∈ closure.handles → alive next)
    (functionsKept : ∀ {handle : UInt32} {function : Function}, alive handle →
      functions[handle - 1]? = some function → laterFunctions[handle - 1]? = some function)
    (objectsKept : ∀ {handle : UInt32} {closure : Closure}, alive handle →
      objects[handle]? = some closure → laterObjects[handle]? = some closure)
    (grown : code.toList <+: longer.toList) (added : names <+: more)
    (live : alive handle) (linked : Linked functions objects code names handle) :
    Linked laterFunctions laterObjects longer more handle := by
  induction linked with
  | @intro handle function closure frame values defined stored body arity captured bound _ ih =>
      refine .intro (functionsKept live defined) (objectsKept live stored)
        (body.extend grown added) arity captured bound fun inner innerArity listed => ?_
      refine ih inner innerArity listed (closed live defined stored ?_ ?_)
      · have found : some (.closure inner innerArity) ∈ values.map some :=
          List.mem_map.mpr ⟨_, listed, rfl⟩
        rw [← bound] at found
        obtain ⟨capture, -, looked⟩ := List.mem_map.mp found
        rw [UInt32.add_sub_cancel]
        exact Environment.mem_handles_of_lookup? looked
      · rw [Closure.handles, captured]
        exact Value.handle_mem_onMachine listed

/-- Links survive when functions, closures, code and names are only added. -/
theorem mono {handle : UInt32}
    (functionsKept : ∀ {handle : UInt32} {function : Function},
      functions[handle]? = some function → laterFunctions[handle]? = some function)
    (objectsKept : ∀ {handle : UInt32} {closure : Closure},
      objects[handle]? = some closure → laterObjects[handle]? = some closure)
    (grown : code.toList <+: longer.toList) (added : names <+: more)
    (linked : Linked functions objects code names handle) :
    Linked laterFunctions laterObjects longer more handle :=
  transfer (fun _ => True) (fun _ _ _ _ _ => True.intro) (fun _ => functionsKept)
    (fun _ => objectsKept) grown added True.intro linked

end Linked

/-! ## Agreement -/

/-- The global names of an evaluator in the order of their definition. -/
def Evaluator.names (evaluator : Evaluator) : List Name :=
  evaluator.globals.map Prod.fst

/-- A name that has no global slot has no value. -/
theorem lookup_of_slotIn_eq_none {evaluator : Evaluator} {name : Name}
    (free : slotIn evaluator.names name = none) : evaluator.globals.lookup name = none := by
  have missing : name ∉ evaluator.names := List.idxOf?_eq_none_iff.mp free
  rw [List.lookup_eq_none_iff]
  intro entry listed
  rw [bne_iff_ne]
  rintro rfl
  exact missing (List.mem_map_of_mem listed)

/-- A handle of a machine is linked to a function of an evaluator. -/
def LinkedTo (evaluator : Evaluator) (machine : Machine) (handle : UInt32) : Prop :=
  Linked evaluator.functions machine.heap.objects machine.code evaluator.names handle

/-- A value of a machine is no closure, or its handle is linked. -/
def LinkedValue (evaluator : Evaluator) (machine : Machine) (value : Value) : Prop :=
  ∀ handle arity, value = .closure handle arity → LinkedTo evaluator machine handle

theorem linkedValue_constant (evaluator : Evaluator) (machine : Machine) (constant : Constant) :
    LinkedValue evaluator machine constant.value := by
  intro handle arity same
  cases constant <;> cases same

/-- Unless there are traces, the events of a machine are what an evaluator has displayed, in the
machine's form, and before that some older ones. -/
def Evaluator.Prints (evaluator : Evaluator) (older : List Event) (machine : Machine) : Prop :=
  machine.trace = false →
    machine.events = evaluator.displayed.map (fun value => .displayed value.onMachine) ++ older

/-- A machine and an evaluator that have made `count` closures each and are at the same point of
the same program. The events of the machine before that program are `older`. -/
structure Agrees (count : Nat) (older : List Event) (evaluator : Evaluator)
    (machine : Machine) : Prop where
  next : evaluator.next.toNat = count
  machineNext : machine.heap.next = evaluator.next + 1
  functionsBelow : ∀ {handle : UInt32} {function : Function},
    evaluator.functions[handle]? = some function → handle.toNat < count
  objectsBelow : ∀ {handle : UInt32} {closure : Closure},
    machine.heap.objects[handle]? = some closure → handle.toNat ≤ count
  globals : machine.globals.toList = evaluator.globals.map fun entry => entry.2.onMachine
  linked : ∀ value ∈ machine.roots, LinkedValue evaluator machine value
  prints : evaluator.Prints older machine

theorem Machine.forall_mem_roots {machine : Machine} {holds : Value → Prop} :
    (∀ value ∈ machine.roots, holds value) ↔
      (∀ value ∈ machine.stack.toList, holds value) ∧
        (∀ value ∈ machine.globals.toList, holds value) ∧
        ∀ value ∈ machine.result.toList, holds value := by
  simp only [Machine.roots, List.forall_mem_append, and_assoc]

namespace Agrees

variable {count : Nat} {older : List Event} {evaluator : Evaluator} {machine : Machine}

theorem linked_of_stack (agrees : Agrees count older evaluator machine) :
    ∀ value ∈ machine.stack.toList, LinkedValue evaluator machine value :=
  (Machine.forall_mem_roots.mp agrees.linked).1

theorem linked_of_globals (agrees : Agrees count older evaluator machine) :
    ∀ value ∈ machine.globals.toList, LinkedValue evaluator machine value :=
  (Machine.forall_mem_roots.mp agrees.linked).2.1

theorem linked_of_result (agrees : Agrees count older evaluator machine) :
    ∀ value ∈ machine.result.toList, LinkedValue evaluator machine value :=
  (Machine.forall_mem_roots.mp agrees.linked).2.2

theorem toNat_machineNext (agrees : Agrees count older evaluator machine)
    (room : count + 1 < Machine.handleRange) : machine.heap.next.toNat = count + 1 := by
  rw [agrees.machineNext, UInt32.toNat_add, agrees.next]
  exact Nat.mod_eq_of_lt room

/-- A collection before an instruction does not disturb the agreement. -/
theorem ready (agrees : Agrees count older evaluator machine) (instr : Instr) (size : Nat) :
    Agrees count older evaluator (machine.ready instr size) := by
  have kept : ∀ {handle : UInt32} {closure : Closure},
      machine.collectIfNeeded.heap.objects[handle]? = some closure →
        machine.heap.objects[handle]? = some closure := by
    intro handle closure found
    unfold Machine.collectIfNeeded at found
    split at found
    · exact ((Heap.getElem?_collect_iff _ _ _ _).mp found).1
    · exact found
  have survives : ∀ {handle : UInt32} {closure : Closure},
      machine.heap.Reaches machine.roots handle →
        machine.heap.objects[handle]? = some closure →
          machine.collectIfNeeded.heap.objects[handle]? = some closure := by
    intro handle closure reached found
    unfold Machine.collectIfNeeded
    split
    · exact (Heap.getElem?_collect_iff _ _ _ _).mpr ⟨found, reached⟩
    · exact found
  refine ⟨agrees.next, ?_, agrees.functionsBelow, ?_, ?_, ?_, ?_⟩
  · rw [Machine.ready_heap, Machine.collectIfNeeded_next, agrees.machineNext]
  · intro handle closure found
    rw [Machine.ready_heap] at found
    exact agrees.objectsBelow (kept found)
  · rw [Machine.ready_globals, agrees.globals]
  · have roots : (machine.ready instr size).roots = machine.roots := by
      simp only [Machine.roots, Machine.ready_stack, Machine.ready_globals, Machine.ready_result]
    rw [roots]
    rintro value listed handle arity rfl
    rw [LinkedTo, Machine.ready_heap, Machine.ready_code]
    -- Whatever the roots lead to is alive, and all links lead through what is alive.
    refine Linked.transfer (machine.heap.Reaches machine.roots)
      (fun reached _ stored _ referred => Table.Reaches.step reached stored referred)
      (fun _ defined => defined) survives (List.prefix_refl _) (List.prefix_refl _) ?_
      (agrees.linked _ listed handle arity rfl)
    exact Table.Reaches.root (Value.mem_handlesOf.mpr ⟨arity, listed⟩)
  · intro untraced
    rw [Machine.ready_trace] at untraced
    rcases machine.ready_events instr size with same | ⟨traced, -⟩
    · rw [same]
      exact agrees.prints untraced
    · rw [untraced] at traced
      cases traced

/-- Of the stack, the last result, the activations and the program counter, only the values on the
stack and the last result matter. -/
theorem restack {other : Machine} (agrees : Agrees count older evaluator machine)
    (heap : other.heap = machine.heap) (code : other.code = machine.code)
    (globals : other.globals = machine.globals) (trace : other.trace = machine.trace)
    (events : other.events = machine.events)
    (stack : ∀ value ∈ other.stack.toList, LinkedValue evaluator machine value)
    (result : ∀ value ∈ other.result.toList, LinkedValue evaluator machine value) :
    Agrees count older evaluator other := by
  refine ⟨agrees.next, heap ▸ agrees.machineNext, agrees.functionsBelow,
    fun found => agrees.objectsBelow (heap ▸ found), globals ▸ agrees.globals, ?_, ?_⟩
  · unfold LinkedValue LinkedTo
    rw [heap, code]
    exact Machine.forall_mem_roots.mpr ⟨stack, globals ▸ agrees.linked_of_globals, result⟩
  · unfold Evaluator.Prints
    rw [trace, events]
    exact agrees.prints

/-- Both show a value. -/
theorem display (agrees : Agrees count older evaluator machine) (value : Value) :
    Agrees count older { evaluator with displayed := value :: evaluator.displayed }
      { machine with events := .displayed value.onMachine :: machine.events } :=
  ⟨agrees.next, agrees.machineNext, agrees.functionsBelow, agrees.objectsBelow, agrees.globals,
    agrees.linked, fun untraced => congrArg (_ :: ·) (agrees.prints untraced)⟩

/-- Both define a global. -/
theorem define (agrees : Agrees count older evaluator machine) (name : Name) {value : Value}
    (linked : LinkedValue evaluator machine value.onMachine) :
    Agrees count older { evaluator with globals := evaluator.globals ++ [(name, value)] }
      { machine with globals := machine.globals.push value.onMachine } := by
  refine ⟨agrees.next, agrees.machineNext, agrees.functionsBelow, agrees.objectsBelow, ?_, ?_,
    agrees.prints⟩
  · simp [agrees.globals]
  · have grown : ∀ other, LinkedValue evaluator machine other →
        LinkedValue { evaluator with globals := evaluator.globals ++ [(name, value)] }
          { machine with globals := machine.globals.push value.onMachine } other := by
      intro other known handle arity same
      refine (known handle arity same).mono id id (List.prefix_refl _) ?_
      exact ⟨[name], by simp [Evaluator.names]⟩
    refine Machine.forall_mem_roots.mpr
      ⟨fun other listed => grown other (agrees.linked_of_stack other listed), ?_,
        fun other listed => grown other (agrees.linked_of_result other listed)⟩
    intro other listed
    rcases List.mem_append.mp (Array.toList_push ▸ listed) with known | added
    · exact grown other (agrees.linked_of_globals other known)
    · rw [List.mem_singleton.mp added]
      exact grown _ linked

/-- A new function takes the place of no other. -/
theorem functions_alloc (agrees : Agrees count older evaluator machine) (function : Function)
    {handle : UInt32} {known : Function} (found : evaluator.functions[handle]? = some known) :
    (evaluator.alloc function).2.functions[handle]? = some known := by
  have below := agrees.functionsBelow found
  have other : evaluator.next ≠ handle := fun same => by
    rw [← same, agrees.next] at below
    exact Nat.lt_irrefl _ below
  simpa [Evaluator.alloc, Std.TreeMap.getElem?_insert, other] using found

/-- A new closure takes the place of no other, as long as there are handles. -/
theorem objects_alloc (agrees : Agrees count older evaluator machine)
    (room : count + 1 < Machine.handleRange) (closure : Closure) {handle : UInt32}
    {known : Closure} (found : machine.heap.objects[handle]? = some known) :
    (machine.heap.alloc closure).2.objects[handle]? = some known := by
  have below := agrees.objectsBelow found
  have other : machine.heap.next ≠ handle := fun same => by
    rw [← same, agrees.toNat_machineNext room] at below
    exact Nat.not_succ_le_self _ below
  simpa [Heap.alloc, Std.TreeMap.getElem?_insert, other] using found

/-- Both make a closure of the same lambda. -/
theorem alloc (agrees : Agrees count older evaluator machine)
    (room : count + 1 < Machine.handleRange) {function : Function} {closure : Closure}
    {frame : Frame} {values : List Value}
    (body : BodyAt machine.code evaluator.names function closure.entry.toNat frame)
    (arity : closure.arity.toNat = function.parameters.length)
    (captured : closure.captures = values.map Value.onMachine)
    (bound : frame.captures.map (fun capture => function.environment.lookup? capture.name) =
      values.map some)
    (linked : ∀ value ∈ values, LinkedValue evaluator machine value.onMachine) :
    Agrees (count + 1) older (evaluator.alloc function).2
        { machine with heap := (machine.heap.alloc closure).2 } ∧
      LinkedTo (evaluator.alloc function).2
        { machine with heap := (machine.heap.alloc closure).2 } machine.heap.next := by
  have follows : (evaluator.next + 1).toNat = count + 1 := by
    rw [← agrees.machineNext, agrees.toNat_machineNext room]
  have grown : ∀ value, LinkedValue evaluator machine value →
      LinkedValue (evaluator.alloc function).2
        { machine with heap := (machine.heap.alloc closure).2 } value :=
    fun value known handle arity same =>
      (known handle arity same).mono (agrees.functions_alloc function)
        (agrees.objects_alloc room closure) (List.prefix_refl _) (List.prefix_refl _)
  refine ⟨⟨follows, congrArg (· + 1) agrees.machineNext, ?_, ?_, agrees.globals, ?_,
    agrees.prints⟩, ?_⟩
  · intro handle known found
    rw [Evaluator.alloc, Std.TreeMap.getElem?_insert] at found
    split at found
    · next same =>
        rw [← Std.LawfulEqCmp.eq_of_compare same, agrees.next]
        exact Nat.lt_succ_self _
    · exact Nat.lt_succ_of_lt (agrees.functionsBelow found)
  · intro handle known found
    rw [Heap.alloc, Std.TreeMap.getElem?_insert] at found
    split at found
    · next same =>
        rw [← Std.LawfulEqCmp.eq_of_compare same]
        exact Nat.le_of_eq (agrees.toNat_machineNext room)
    · exact Nat.le_succ_of_le (agrees.objectsBelow found)
  · exact fun value listed => grown value (agrees.linked value listed)
  · refine .intro ?_ ?_ body arity captured bound fun inner innerArity listed => ?_
    · rw [agrees.machineNext, UInt32.add_sub_cancel]
      exact Std.TreeMap.getElem?_insert_self
    · exact Std.TreeMap.getElem?_insert_self
    · exact grown _ (linked _ listed) _ innerArity rfl

/-- A collection of the evaluator between two top-level expressions does not disturb the
agreement: the stack is empty then. -/
theorem collect (agrees : Agrees count older evaluator machine) {result : Value}
    (stack : machine.stack = #[]) (last : machine.result = some result.onMachine) :
    Agrees count older (evaluator.collectIfNeeded result) machine := by
  unfold Evaluator.collectIfNeeded
  split
  · refine ⟨agrees.next, agrees.machineNext, fun found => ?_, agrees.objectsBelow, agrees.globals,
      ?_, agrees.prints⟩
    · exact agrees.functionsBelow ((Evaluator.getElem?_collect_iff _ _ _ _).mp found).1
    · rintro value listed handle arity rfl
      have root : handle - 1 ∈
          Value.handlesOf (evaluator.globals.map Prod.snd ++ [result]) := by
        rw [Machine.roots, stack, agrees.globals, last] at listed
        have mapped : Value.closure handle arity ∈
            (evaluator.globals.map Prod.snd ++ [result]).map Value.onMachine := by
          simpa [Function.comp_def] using listed
        obtain ⟨inner, innerArity, rfl, member⟩ :=
          Value.mem_handlesOf_onMachine (Value.mem_handlesOf.mpr ⟨arity, mapped⟩)
        rw [UInt32.add_sub_cancel]
        exact Value.mem_handlesOf.mpr ⟨innerArity, member⟩
      exact Linked.transfer
        (fun handle => evaluator.functions.Reaches Function.handles
          (Value.handlesOf (evaluator.globals.map Prod.snd ++ [result])) (handle - 1))
        (fun reached defined _ referred _ => Table.Reaches.step reached defined referred)
        (fun reached defined => (Evaluator.getElem?_collect_iff _ _ _ _).mpr ⟨defined, reached⟩)
        (fun _ stored => stored) (List.prefix_refl _) (List.prefix_refl _)
        (Table.Reaches.root root) (agrees.linked _ listed handle arity rfl)
  · exact agrees

end Agrees

end ClosureLisp
