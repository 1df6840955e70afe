import ClosureLisp.Proofs.Agreement
import ClosureLisp.Proofs.Confinement
import ClosureLisp.Proofs.Linting

/-!
# What compiled programs require

A bundle declares what its code needs, and the code is read back from its bytes for this. Code
loads a global for each name that is read and bound by no lambda around it, and for nothing else:
`Expr.Loads` says so of an expression, and by induction on the expression these are the loads in
its code. So a compiled program declares output if one of its forms reads `display`, and otherwise
exactly if one reads a global whose slot is cut to the same operand
(`Bundle.capabilities_new_of_ofExprs`). It takes more than four thousand million globals for there
to be one (`Bundle.capabilities_new_crowdedProgram`).
-/

namespace ClosureLisp

theorem Binder.resolve?_eq_none_iff {name : Name} {binders : List Binder} :
    resolve? name binders = none ↔ ∀ binder ∈ binders, ¬ binder.binds name := by
  rw [← Option.not_isSome_iff_eq_none, ← any_binds]
  simp

/-! ## Loads in generated code -/

namespace Expr

/-- An expression inside the given lambdas loads a global with an operand: the slot, cut to a word,
of a name that it reads and that none of the lambdas binds. -/
def Loads (globals : Name → Option Nat) (binders : List Binder) (expr : Expr)
    (operand : Int32) : Prop :=
  ∃ name, expr.Reads name ∧ (∀ binder ∈ binders, ¬ binder.binds name) ∧
    (globals name).map word = some operand

variable {globals : Name → Option Nat} {binders : List Binder} {operand : Int32} {expr : Expr}
  {known : List Name} {offset : Nat} {frames after : List Frame} {code : List Instr}

/-- What an expression loads is its own name, or is loaded by a child. -/
theorem loads_iff : expr.Loads globals binders operand ↔
    (∃ span name, expr = .var span name ∧ (∀ binder ∈ binders, ¬ binder.binds name) ∧
      (globals name).map word = some operand) ∨
    ∃ child ∈ expr.children, child.Loads globals (expr.opened ++ binders) operand := by
  constructor
  · rintro ⟨name, reads, unbound, loaded⟩
    rcases reads_iff.mp reads with ⟨span, rfl⟩ | ⟨child, listed, inside, around⟩
    · exact .inl ⟨span, name, rfl, unbound, loaded⟩
    · exact .inr ⟨child, listed, name, inside, List.forall_mem_append.mpr ⟨around, unbound⟩,
        loaded⟩
  · rintro (⟨span, name, rfl, unbound, loaded⟩ | ⟨child, listed, name, inside, free, loaded⟩)
    · exact ⟨name, reads_iff.mpr (.inl ⟨span, rfl⟩), unbound, loaded⟩
    · obtain ⟨around, unbound⟩ := List.forall_mem_append.mp free
      exact ⟨name, reads_iff.mpr (.inr ⟨child, listed, inside, around⟩), unbound, loaded⟩

theorem loads_var {span : Span} {name : Name} : Loads globals binders (.var span name) operand ↔
    Binder.resolve? name binders = none ∧ (globals name).map word = some operand := by
  rw [loads_iff, Binder.resolve?_eq_none_iff]
  constructor
  · rintro (⟨_, _, same, free⟩ | ⟨child, listed, -⟩)
    · cases same
      exact free
    · cases listed
  · exact fun free => .inl ⟨span, name, rfl, free⟩

/-- The frames that generated code leaves bind what they did. -/
theorem Settles.sensible {scope : List Binder} {first : Option SourceError}
    (settles : Settles scope first (.ok (code, after))) :
    Frame.Sensible after ∧ after.map Frame.binder = scope := by
  cases settles with
  | done sensible binders => exact ⟨sensible, binders⟩

/-- Wherever an expression stands, the loads of globals in its code are its loads. -/
def WritesLoads (globals : Name → Option Nat) (expr : Expr) : Prop :=
  ∀ {offset : Nat} {frames after : List Frame} {code : List Instr}, Frame.Sensible frames →
    generate globals offset frames expr = .ok (code, after) →
    ∀ operand, .getGlobal operand ∈ code ↔ expr.Loads globals (frames.map Frame.binder) operand

theorem writesLoads_var (span : Span) (name : Name) : WritesLoads globals (.var span name) := by
  intro offset frames after code sensible generated operand
  rw [loads_var]
  rcases generate_var generated with ⟨slot, resolved, rfl⟩ | ⟨missing, rfl, slot, found, rfl⟩
  · have bound : Binder.resolve? name (frames.map Frame.binder) ≠ none := by
      intro unresolved
      rw [Frame.resolve?_eq_none sensible unresolved] at resolved
      cases resolved
    simp [bound]
  · have unbound : Binder.resolve? name (after.map Frame.binder) = none := by
      cases resolved : Binder.resolve? name (after.map Frame.binder) with
      | none => rfl
      | some place =>
          obtain ⟨found, later, held, -⟩ := Frame.resolve?_layouts sensible resolved
          rw [missing] at held
          cases held
    rw [List.mem_singleton, Instr.getGlobal.injEq, found, Option.map_some, Option.some.injEq]
    exact ⟨fun same => ⟨unbound, same.symm⟩, fun free => free.2.symm⟩

section Generation

variable (listed : ∀ name, known.contains name = (globals name).isSome)

include listed

theorem sensible_of_generate (sensible : Frame.Sensible frames)
    (generated : generate globals offset frames expr = .ok (code, after)) :
    Frame.Sensible after ∧ after.map Frame.binder = frames.map Frame.binder := by
  have settles := checked listed expr sensible rfl offset
  rw [generated] at settles
  exact settles.sensible

theorem writesLoads_ifThen (span : Span) {test consequent : Expr}
    (ihTest : WritesLoads globals test) (ihConsequent : WritesLoads globals consequent) :
    WritesLoads globals (.ifThen span test consequent) := by
  intro offset frames after code sensible generated operand
  obtain ⟨testCode, middle, thenCode, tested, chosen, rfl⟩ := generate_ifThen generated
  obtain ⟨kept, binders⟩ := sensible_of_generate listed sensible tested
  rw [loads_iff]
  simp [children, opened, ihTest sensible tested, ihConsequent kept chosen, binders]

theorem writesLoads_ifElse (span : Span) {test consequent alternative : Expr}
    (ihTest : WritesLoads globals test) (ihConsequent : WritesLoads globals consequent)
    (ihAlternative : WritesLoads globals alternative) :
    WritesLoads globals (.ifElse span test consequent alternative) := by
  intro offset frames after code sensible generated operand
  obtain ⟨testCode, first, elseCode, second, thenCode, tested, otherwise, chosen, rfl⟩ :=
    generate_ifElse generated
  obtain ⟨kept, binders⟩ := sensible_of_generate listed sensible tested
  obtain ⟨laterKept, laterBinders⟩ := sensible_of_generate listed kept otherwise
  rw [loads_iff]
  simp [children, opened, ihTest sensible tested, ihAlternative kept otherwise,
    ihConsequent laterKept chosen, binders, laterBinders, or_comm]

omit listed in
/-- The code of a lambda loads globals in its body only. -/
theorem writesLoads_lambda (span : Span) (self : Option Name) (parameters : List Name)
    {body : Expr} (ih : WritesLoads globals body) :
    WritesLoads globals (.lambda span self parameters body) := by
  intro offset frames after code sensible generated operand
  obtain ⟨distinct, bodyCode, bodyFrames, inner, rfl, -⟩ := generate_lambda_raw generated
  have fresh : Frame.Sensible (⟨parameters, self, []⟩ :: frames) :=
    ⟨distinct, fun capture listed => absurd listed List.not_mem_nil, sensible⟩
  rw [loads_iff]
  simp [children, opened, lambdaCode, ih fresh inner, Frame.binder]

theorem generateAll_writesLoads {exprs : List Expr}
    (each : ∀ expr ∈ exprs, WritesLoads globals expr) (sensible : Frame.Sensible frames)
    (generated : generateAll globals offset frames exprs = .ok (code, after)) (operand : Int32) :
    .getGlobal operand ∈ code ↔
      ∃ expr ∈ exprs, expr.Loads globals (frames.map Frame.binder) operand := by
  induction exprs generalizing offset frames code with
  | nil =>
      rw [generateAll] at generated
      cases generated
      simp
  | cons expr rest ih =>
      obtain ⟨firstCode, middle, restCode, first, rested, rfl⟩ := generateAll_cons generated
      obtain ⟨head, tail⟩ := List.forall_mem_cons.mp each
      obtain ⟨kept, binders⟩ := sensible_of_generate listed sensible first
      rw [List.mem_append, List.exists_mem_cons_iff, head sensible first, ih tail kept rested,
        binders]

theorem writesLoads_call (span : Span) {callee : Expr} {arguments : List Expr}
    (ihCallee : WritesLoads globals callee)
    (ihArguments : ∀ argument ∈ arguments, WritesLoads globals argument) :
    WritesLoads globals (.call span callee arguments) := by
  intro offset frames after code sensible generated operand
  obtain ⟨argumentCode, middle, calleeCode, supplied, called, rfl⟩ := generate_call generated
  have settles := checkedAll (fun (argument : Expr) (_ : argument ∈ arguments) =>
    checked listed argument) sensible rfl offset
  rw [supplied] at settles
  obtain ⟨kept, binders⟩ := settles.sensible
  rw [loads_iff]
  simp [children, opened, generateAll_writesLoads listed ihArguments sensible supplied,
    ihCallee kept called, binders, or_comm]

/-- Generated code loads exactly the globals whose names are read and not bound. -/
theorem writesLoads (expr : Expr) : WritesLoads globals expr := by
  induction expr using Expr.induction with
  | int span value | bool span value =>
      intro offset frames after code sensible generated operand
      rw [generate] at generated
      cases generated
      rw [loads_iff]
      simp [children]
  | var span name => exact writesLoads_var span name
  | ifThen span test consequent ihTest ihConsequent =>
      exact writesLoads_ifThen listed span ihTest ihConsequent
  | ifElse span test consequent alternative ihTest ihConsequent ihAlternative =>
      exact writesLoads_ifElse listed span ihTest ihConsequent ihAlternative
  | define span name value ih =>
      intro offset frames after code sensible generated
      exact absurd generated generate_define
  | lambda span self parameters body ih => exact writesLoads_lambda span self parameters ih
  | call span callee arguments ihCallee ihArguments =>
      exact writesLoads_call listed span ihCallee ihArguments

end Generation

end Expr

/-! ## Loads in compiled programs -/

namespace Compiler

variable {compiler later : Compiler} {form : Expr} {exprs : List Expr} {name : Name}

/-- What a top-level expression that compiles reads is known before it. -/
theorem known_of_reads (added : compiler.addForm form = (none, later)) (reads : form.Reads name) :
    name ∈ compiler.globals := by
  have clean := addForm_fst compiler form
  rw [added] at clean
  have obeys := (Expr.formViolations_eq_nil_iff fun _ => Iff.rfl).mp
    (List.head?_eq_none_iff.mp clean.symm)
  obtain ⟨span, binders, occurs, free⟩ := reads
  rcases obeys.bound span name binders occurs with ⟨binder, listed, binds⟩ | known
  · exact absurd binds (free binder listed)
  · exact known

/-- In a later table a top-level expression loads the same. -/
theorem loads_extend {names : List Name} (added : compiler.addForm form = (none, later))
    (grown : compiler.globals <+: names) (operand : Int32) :
    form.Loads compiler.slot? [] operand ↔ form.Loads (slotIn names) [] operand := by
  refine exists_congr fun name => and_congr_right fun reads => and_congr_right fun _ => ?_
  obtain ⟨slot, found⟩ := Option.isSome_iff_exists.mp
    (List.isSome_idxOf?.mpr (known_of_reads added reads))
  have later : slotIn names name = some slot := slotIn_extend grown found
  rw [later, slot?, found]

/-- The code of a top-level expression, and what it loads. -/
theorem Adds.exists_loads (adds : Adds compiler form later) :
    ∃ instrs, later.buffer = compiler.buffer.emitAll instrs ∧
      ∀ operand, .getGlobal operand ∈ instrs ↔ form.Loads compiler.slot? [] operand := by
  have sensible : Frame.Sensible [] := True.intro
  cases adds with
  | define free generated =>
      refine ⟨_, rfl, fun operand => ?_⟩
      have writes := Expr.writesLoads compiler.contains_globals _ sensible generated operand
      rw [Expr.loads_iff]
      simp [writes, Expr.children, Expr.opened]
  | value generated =>
      refine ⟨_, rfl, fun operand => ?_⟩
      have writes := Expr.writesLoads compiler.contains_globals _ sensible generated operand
      simp [writes]

/-- A batch loads what its forms load. -/
theorem exists_loads_of_addForms (added : compiler.addForms exprs = (none, later)) :
    ∃ instrs, later.buffer.code.toList = compiler.buffer.code.toList ++ Instr.encodeAll instrs ∧
      ∀ operand, .getGlobal operand ∈ instrs ↔
        ∃ form ∈ exprs, form.Loads (slotIn later.globals) [] operand := by
  induction exprs generalizing compiler with
  | nil =>
      cases added
      exact ⟨[], (List.append_nil _).symm, by simp⟩
  | cons form rest ih =>
      obtain ⟨middle, first, rested⟩ := addForms_cons added
      have grown := (addForms_extends compiler (form :: rest)).globals
      rw [added] at grown
      obtain ⟨front, written, loads⟩ := (adds_of_addForm first).exists_loads
      obtain ⟨behind, whole, others⟩ := ih rested
      refine ⟨front ++ behind, ?_, fun operand => ?_⟩
      · rw [whole, written, CodeBuffer.toList_code_emitAll, Instr.encodeAll_append,
          List.append_assoc]
      · rw [List.mem_append, List.exists_mem_cons_iff, loads, others, loads_extend first grown]

end Compiler

theorem Program.isPrefix_of_ofExprs {exprs : List Expr} {program : Program}
    (compiled : Program.ofExprs exprs = .ok program) : predefinedNames <+: program.globals := by
  obtain ⟨later, added, rfl⟩ := Compiler.ofExprs_eq_ok compiled
  have grown := (Compiler.addForms_extends Compiler.new exprs).globals
  rw [added] at grown
  exact grown

/-- The code of a compiled program is written from instructions that load what its forms load. -/
theorem Program.exists_loads_of_ofExprs {exprs : List Expr} {program : Program}
    (compiled : Program.ofExprs exprs = .ok program) :
    ∃ instrs, program.code = (Instr.encodeAll instrs).toArray ∧
      ∀ operand, .getGlobal operand ∈ instrs ↔
        ∃ form ∈ exprs, form.Loads (slotIn program.globals) [] operand := by
  obtain ⟨later, added, rfl⟩ := Compiler.ofExprs_eq_ok compiled
  obtain ⟨instrs, whole, loads⟩ := Compiler.exists_loads_of_addForms added
  exact ⟨instrs, Array.toList_inj.mp whole, loads⟩

/-! ## Declared capabilities -/

namespace Capability

/-- Output is needed by a load of the slot of `display`. -/
theorem ofInstr?_eq_some_iff {globals : List Name} (table : predefinedNames <+: globals)
    {instr : Instr} : ofInstr? globals instr = some .output ↔ instr = .getGlobal 5 := by
  rw [ofInstr?_of_isPrefix table]
  cases instr with
  | getGlobal slot =>
      constructor
      · intro needs
        rw [ofInstr?] at needs
        split at needs
        · next inside =>
            have only : ∀ index < predefinedNames.length,
                (predefinedNames[index]?).bind ofGlobal? = some .output → index = 5 := by
              decide
            have index := only _ inside.2 needs
            have positive := Int32.le_iff_toInt_le.mp inside.1
            have value : slot.toInt = 5 := by
              rw [Int32.toInt_zero] at positive
              omega
            exact congrArg Instr.getGlobal (Int32.toInt_inj.mp value)
        · cases needs
      · rintro ⟨⟩
        decide
  | _ => simp [ofInstr?]

/-- Code needs output if it loads the slot of `display`, and nothing otherwise. -/
theorem required_encodeAll {globals : List Name} (table : predefinedNames <+: globals)
    (instrs : List Instr) : required (Instr.encodeAll instrs).toArray globals =
      .ok (if .getGlobal 5 ∈ instrs then [output.name] else []) := by
  have listed : output ∈ (Code.locate 0 instrs).filterMap (fun located =>
      ofInstr? globals located.instr) ↔ .getGlobal 5 ∈ instrs := by
    simp only [List.mem_filterMap, ofInstr?_eq_some_iff table]
    rw [← List.mem_map, Code.map_instr_locate]
  simp only [required, Code.decodeAll_encodeAll, neededBy, all, List.filter_cons,
    List.contains_iff_mem, listed, List.filter_nil]
  split <;> rfl

end Capability

/-! ## Slots -/

/-- The number of operands. -/
def Expr.operandCount : Nat := 4294967296

/-- A slot is written as its rest by the number of operands. -/
theorem Expr.word_eq_iff {slot small : Nat} (inside : small < operandCount) :
    word slot = word small ↔ slot % operandCount = small := by
  unfold operandCount at inside ⊢
  constructor
  · intro same
    have bits := congrArg (fun operand : Int32 => operand.toUInt32.toNat) same
    simpa [word, Nat.mod_eq_of_lt inside] using bits
  · intro rest
    refine Int32.toBitVec_inj.mp (BitVec.eq_of_toNat_eq ?_)
    simp [word, rest, Nat.mod_eq_of_lt inside]

theorem slotIn_display {names : List Name} (table : predefinedNames <+: names) :
    slotIn names (utf8 "display") = some 5 :=
  slotIn_extend table (by decide)

/-- The name of a slot is what it is found for. -/
theorem eq_of_slotIn {names : List Name} {first second : Name} {slot : Nat}
    (found : slotIn names first = some slot) (again : slotIn names second = some slot) :
    first = second := by
  obtain ⟨inside, listed, -⟩ := List.idxOf?_eq_some_iff.mp found
  obtain ⟨_, other, -⟩ := List.idxOf?_eq_some_iff.mp again
  exact listed.symm.trans other

/-- In a table without repetitions a name has the slot where it stands. -/
theorem slotIn_of_getElem? {names : List Name} {name : Name} {slot : Nat}
    (distinct : names.Nodup) (listed : names[slot]? = some name) :
    slotIn names name = some slot := by
  obtain ⟨inside, rfl⟩ := List.getElem?_eq_some_iff.mp listed
  refine List.idxOf?_eq_some_iff.mpr ⟨inside, rfl, fun earlier before same => ?_⟩
  exact before.ne (distinct.getElem_inj_iff.mp same)

theorem slot_lt_of_slotIn {names : List Name} {name : Name} {slot : Nat}
    (found : slotIn names name = some slot) : slot < names.length := by
  obtain ⟨inside, -⟩ := List.idxOf?_eq_some_iff.mp found
  exact inside

namespace Expr

/-- An expression reads a global that passes for `display`: its slot is a later one, but both are
written with the same operand. -/
def ReadsLike (names : List Name) (expr : Expr) : Prop :=
  ∃ name slot, expr.Reads name ∧ slotIn names name = some slot ∧ 5 < slot ∧
    slot % operandCount = 5

/-- The operand of `display` is loaded for `display` and for what passes for it. -/
theorem loads_display_iff {names : List Name} (table : predefinedNames <+: names) {expr : Expr} :
    expr.Loads (slotIn names) [] 5 ↔ expr.Reads (utf8 "display") ∨ expr.ReadsLike names := by
  have written (slot : Nat) : word slot = 5 ↔ slot % operandCount = 5 :=
    word_eq_iff (show 5 < operandCount by decide)
  constructor
  · rintro ⟨name, reads, -, loaded⟩
    obtain ⟨slot, found, same⟩ := Option.map_eq_some_iff.mp loaded
    have rest := (written slot).mp same
    have least : 5 ≤ slot := rest ▸ Nat.mod_le slot operandCount
    rcases Nat.lt_or_eq_of_le least with later | rfl
    · exact .inr ⟨name, slot, reads, found, later, rest⟩
    · obtain rfl := eq_of_slotIn found (slotIn_display table)
      exact .inl reads
  · have unbound (name : Name) := List.forall_mem_nil fun binder : Binder => ¬ binder.binds name
    rintro (reads | ⟨name, slot, reads, found, -, rest⟩)
    · exact ⟨_, reads, unbound _, by rw [slotIn_display table]; rfl⟩
    · exact ⟨name, reads, unbound _, by rw [found, Option.map_some, (written slot).mpr rest]⟩

/-- What passes for `display` stands behind four thousand million other globals. -/
theorem not_readsLike {names : List Name} (few : names.length ≤ operandCount + 5) {expr : Expr} :
    ¬ expr.ReadsLike names := by
  rintro ⟨name, slot, -, found, later, rest⟩
  have inside := slot_lt_of_slotIn found
  unfold operandCount at few rest
  omega

end Expr

namespace Bundle

variable {exprs : List Expr} {program : Program}

/-- A compiled program declares output if one of its forms loads the operand of `display`. -/
theorem capabilities_new_eq (compiled : Program.ofExprs exprs = .ok program) (source : Bytes) :
    ((∃ form ∈ exprs, form.Loads (slotIn program.globals) [] 5) →
      (Bundle.new source program.code program.globals).capabilities =
        [Capability.output.name]) ∧
    ((¬ ∃ form ∈ exprs, form.Loads (slotIn program.globals) [] 5) →
      (Bundle.new source program.code program.globals).capabilities = []) := by
  obtain ⟨instrs, code, loads⟩ := Program.exists_loads_of_ofExprs compiled
  have declared : (Bundle.new source program.code program.globals).capabilities =
      if .getGlobal 5 ∈ instrs then [Capability.output.name] else [] := by
    rw [code, Bundle.new, Capability.required_encodeAll (Program.isPrefix_of_ofExprs compiled)]
    rfl
  rw [declared]
  exact ⟨fun loaded => if_pos ((loads 5).mpr loaded),
    fun unloaded => if_neg (mt (loads 5).mp unloaded)⟩

/-- A compiled program declares output if one of its forms reads `display`, that is if it holds a
variable of that name that no lambda around it binds, be it as a parameter or as its own name.
Otherwise it declares nothing, unless it reads a global that passes for `display`: slots are cut to
words, and so behind four thousand million globals there is one with the same operand. -/
theorem capabilities_new_of_ofExprs (compiled : Program.ofExprs exprs = .ok program)
    (source : Bytes) :
    ((∃ form ∈ exprs, form.Reads (utf8 "display")) →
      (Bundle.new source program.code program.globals).capabilities =
        [Capability.output.name]) ∧
    ((∀ form ∈ exprs, ¬ form.Reads (utf8 "display")) →
      ((∃ form ∈ exprs, form.ReadsLike program.globals) →
        (Bundle.new source program.code program.globals).capabilities =
          [Capability.output.name]) ∧
      ((∀ form ∈ exprs, ¬ form.ReadsLike program.globals) →
        (Bundle.new source program.code program.globals).capabilities = []) ∧
      (program.globals.length ≤ Expr.operandCount + 5 →
        (Bundle.new source program.code program.globals).capabilities = [])) := by
  have table := Program.isPrefix_of_ofExprs compiled
  obtain ⟨output, nothing⟩ := capabilities_new_eq compiled source
  simp only [Expr.loads_display_iff table] at output nothing
  refine ⟨?_, fun unread => ?_⟩
  · rintro ⟨form, listed, reads⟩
    exact output ⟨form, listed, .inl reads⟩
  · have none (unlike : ∀ form ∈ exprs, ¬ form.ReadsLike program.globals) :
        (Bundle.new source program.code program.globals).capabilities = [] := by
      refine nothing ?_
      rintro ⟨form, listed, reads | like⟩
      · exact unread form listed reads
      · exact unlike form listed like
    refine ⟨?_, none, fun few => none fun form _ => Expr.not_readsLike few⟩
    rintro ⟨form, listed, like⟩
    exact output ⟨form, listed, .inr like⟩

/-- A function that calls `display`, or its parameter if this has the same name. -/
def displaying (parameter : Name) : Expr :=
  .lambda default none [parameter] (.call default (.var default (utf8 "display")) [.int default 1])

/-- The code of such a function, given the load of what it calls. -/
def displayingCode (load : Instr) : Code :=
  (Instr.encodeAll [.jump 22, .push (.int 1), load, .call 1, .ret, .makeLambda 5 1 0,
    .pop]).toArray

theorem capabilities_new_of_ofExprs_displaying :
    Program.ofExprs [displaying (utf8 "display")] =
        .ok ⟨displayingCode (.get 0), predefinedNames, 0⟩ ∧
      (Bundle.new [] (displayingCode (.get 0)) predefinedNames).capabilities = [] ∧
      Program.ofExprs [displaying (utf8 "x")] =
        .ok ⟨displayingCode (.getGlobal 5), predefinedNames, 0⟩ ∧
      (Bundle.new [] (displayingCode (.getGlobal 5)) predefinedNames).capabilities =
        [Capability.output.name] := by
  have shadowed : Program.ofExprs [displaying (utf8 "display")] =
      .ok ⟨displayingCode (.get 0), predefinedNames, 0⟩ := by
    decide +kernel
  have free : Program.ofExprs [displaying (utf8 "x")] =
      .ok ⟨displayingCode (.getGlobal 5), predefinedNames, 0⟩ := by
    decide +kernel
  refine ⟨shadowed, ?_, free, ?_⟩
  · exact ((capabilities_new_of_ofExprs shadowed []).2 (by decide)).2.2 (by decide)
  · exact (capabilities_new_of_ofExprs free []).1 (by decide)

end Bundle

/-! ## A global that passes for `display` -/

namespace Compiler

/-- Definitions of names, in order. -/
def defines (names : List Name) : List Expr :=
  names.map fun name => .define default name (.int default 0)

/-- New names get the slots behind the known ones. -/
theorem addForms_defines {compiler : Compiler} {names : List Name}
    (distinct : (compiler.globals ++ names).Nodup) :
    ∃ later : Compiler, later.globals = compiler.globals ++ names ∧
      ∀ rest, compiler.addForms (defines names ++ rest) = later.addForms rest := by
  induction names generalizing compiler with
  | nil => exact ⟨compiler, (List.append_nil _).symm, fun _ => rfl⟩
  | cons name names ih =>
      have missing : compiler.slot? name = none := by
        refine List.idxOf?_eq_none_iff.mpr fun listed => ?_
        exact (List.nodup_append.mp distinct).2.2 name listed name List.mem_cons_self rfl
      have added : compiler.addForm (.define default name (.int default 0)) =
          (none, (compiler.write [.push (.int 0), .defGlobal]).declare name) := by
        rw [addForm, missing]
        rfl
      have whole : compiler.globals ++ name :: names = (compiler.globals ++ [name]) ++ names := by
        rw [List.append_assoc, List.singleton_append]
      rw [whole] at distinct ⊢
      obtain ⟨later, globals, onward⟩ := @ih
        ((compiler.write [.push (.int 0), .defGlobal]).declare name) distinct
      refine ⟨later, globals, fun rest => ?_⟩
      rw [defines, List.map_cons, List.cons_append, addForms, added]
      exact onward rest

/-- A known name can be read behind definitions. -/
theorem ofExprs_defines {names : List Name} {name : Name}
    (distinct : (predefinedNames ++ names).Nodup) (known : name ∈ names) :
    ∃ program, Program.ofExprs (defines names ++ [.var default name]) = .ok program ∧
      program.globals = predefinedNames ++ names := by
  obtain ⟨later, globals, onward⟩ := @addForms_defines Compiler.new _ distinct
  obtain ⟨slot, found⟩ : ∃ slot, later.slot? name = some slot := by
    refine Option.isSome_iff_exists.mp (List.isSome_idxOf?.mpr ?_)
    rw [globals]
    exact List.mem_append_right _ known
  have added : later.addForm (.var default name) =
      (none, later.write [.getGlobal (Expr.word slot), .pop]) := by
    rw [addForm_of_not_define fun _ _ _ => Expr.noConfusion, addCode, Expr.generate]
    simp only [Frame.resolve?, found]
    rfl
  rw [Program.ofExprs, compile, onward, addForms, added]
  exact ⟨_, rfl, globals⟩

end Compiler

/-- The names of a program with a global that passes for `display`. -/
def crowdedNames : List Name :=
  Projection.manyNames 4294967293

/-- All of these are defined, and the last one is read. -/
def crowdedProgram : List Expr :=
  Compiler.defines crowdedNames ++ [.var default (Projection.nameOf 4294967292)]

theorem nodup_crowdedNames : (predefinedNames ++ crowdedNames).Nodup := by
  refine List.nodup_append.mpr ⟨by decide, Projection.nodup_manyNames _, ?_⟩
  rintro name known other listed rfl
  obtain ⟨index, -, rfl⟩ := List.mem_map.mp listed
  have others : ∀ name ∈ predefinedNames, ∃ byte ∈ name, byte ≠ 97 := by decide
  obtain ⟨byte, inside, other⟩ := others _ known
  exact other (List.eq_of_mem_replicate inside)

theorem slotIn_crowdedNames :
    slotIn (predefinedNames ++ crowdedNames) (Projection.nameOf 4294967292) =
      some 4294967301 := by
  refine slotIn_of_getElem? nodup_crowdedNames ?_
  rw [List.getElem?_append_right (by decide), crowdedNames, Projection.manyNames,
    List.getElem?_map, List.getElem?_range (by decide)]
  rfl

namespace Bundle

/-- A program can define so many globals that the last one passes for `display`. It then declares
output, though none of its forms reads `display`. -/
theorem capabilities_new_crowdedProgram :
    ∃ program, Program.ofExprs crowdedProgram = .ok program ∧
      (∀ form ∈ crowdedProgram, ¬ form.Reads (utf8 "display")) ∧
      (Bundle.new [] program.code program.globals).capabilities = [Capability.output.name] := by
  have known : Projection.nameOf 4294967292 ∈ crowdedNames :=
    List.mem_map_of_mem (List.mem_range.mpr (by decide))
  obtain ⟨program, compiled, globals⟩ := Compiler.ofExprs_defines nodup_crowdedNames known
  have reads : (Expr.var default (Projection.nameOf 4294967292)).Reads
      (Projection.nameOf 4294967292) := Expr.reads_iff.mpr (.inl ⟨_, rfl⟩)
  have like : (Expr.var default (Projection.nameOf 4294967292)).ReadsLike program.globals :=
    ⟨_, _, reads, globals ▸ slotIn_crowdedNames, by decide, by decide⟩
  have loads := (Expr.loads_display_iff (Program.isPrefix_of_ofExprs compiled)).mpr (.inr like)
  refine ⟨program, compiled, fun form listed displays => ?_, (capabilities_new_eq compiled []).1
    ⟨_, List.mem_append_right _ (List.mem_singleton_self _), loads⟩⟩
  rcases List.mem_append.mp listed with defined | last
  · obtain ⟨name, -, rfl⟩ := List.mem_map.mp defined
    rcases Expr.reads_iff.mp displays with ⟨span, same⟩ | ⟨child, inside, shown, -⟩
    · cases same
    · obtain rfl := List.mem_singleton.mp inside
      exact absurd shown (by decide)
  · obtain rfl := List.mem_singleton.mp last
    rcases Expr.reads_iff.mp displays with ⟨span, same⟩ | ⟨child, inside, -⟩
    · have named := (Expr.var.inj same).2
      have bytes : ∀ byte ∈ utf8 "display", byte = 97 := named ▸ fun byte inside =>
        List.eq_of_mem_replicate inside
      exact absurd bytes (by decide)
    · cases inside

end Bundle

end ClosureLisp
