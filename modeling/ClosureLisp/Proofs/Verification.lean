import ClosureLisp.Proofs.Compilation
import ClosureLisp.Proofs.Transfers

/-!
# Compiled code passes verification

A target in generated code is the sum of the sizes of all that stands in front of it.
`Code.ComesTo` says that the linear decoding of a whole stream comes past an offset: if it comes to
the start of a piece of code, then it comes to its end. So by induction on the expression every
target is a boundary of the final stream, and the entry of every closure is the place of its body.
-/

namespace ClosureLisp

/-! ## Parts of expressions -/

namespace Expr

/-- The expressions directly inside an expression. -/
def children : Expr → List Expr
  | .int _ _ | .bool _ _ | .var _ _ => []
  | .ifThen _ test consequent => [test, consequent]
  | .ifElse _ test consequent alternative => [test, consequent, alternative]
  | .define _ _ value => [value]
  | .lambda _ _ _ body => [body]
  | .call _ callee arguments => callee :: arguments

/-- An expression is another one or stands inside it. -/
inductive Within (part : Expr) : Expr → Prop where
  | refl : Within part part
  | inside {child whole : Expr} (listed : child ∈ whole.children) (within : Within part child) :
      Within part whole

end Expr

/-! ## Targets that are written over -/

namespace CodeBuffer

theorem toList_code (buffer : CodeBuffer) :
    buffer.code.toList = buffer.block.toList.take buffer.used := by
  simp only [code, Array.toList_extract, List.extract_eq_take_drop, Nat.sub_zero, List.drop_zero]

/-- A target is written over four bytes of the stream, and nothing else changes. -/
theorem exists_patch? (buffer : CodeBuffer) {site : Nat} (inside : site + 4 ≤ buffer.used)
    (target : Int) :
    ∃ patched, buffer.patch? site target = some patched ∧
      patched.code.toList = buffer.code.toList.take site ++
        (Instr.operand (Int32.ofInt target) ++ buffer.code.toList.drop (site + 4)) := by
  have bound := buffer.used_le
  have length := buffer.length_code
  have reserved : (0 : Int) ≤ site ∧ (site : Int) + 4 ≤ buffer.used := by omega
  refine ⟨_, if_pos reserved, ?_⟩
  have words : (Instr.operand (Int32.ofInt target)).length = 4 := rfl
  have front : buffer.block.toList.take site = buffer.code.toList.take site := by
    rw [toList_code, List.take_take, Nat.min_eq_left (by omega)]
  have rest : buffer.block.toList.drop (site + 4) =
      buffer.code.toList.drop (site + 4) ++ buffer.block.toList.drop buffer.used := by
    rw [← List.drop_append_of_le_length (by omega), toList_code, List.take_append_drop]
  rw [toList_code]
  dsimp only
  rw [Int.toNat_natCast, toList_overwrite _ _ _ (by omega), words, front, rest,
    ← List.append_assoc, ← List.append_assoc, List.append_assoc (List.take _ _)]
  refine List.take_left' ?_
  simp only [List.length_append, List.length_take, List.length_drop, words]
  omega

end CodeBuffer

/-! ## Boundaries of the final stream -/

namespace Code

variable {code : Code} {offset : Nat}

theorem locate_append (offset : Nat) (first second : List Instr) :
    locate offset (first ++ second) =
      locate offset first ++ locate (offset + Instr.sizeAll first) second := by
  induction first generalizing offset with
  | nil => rfl
  | cons instr rest ih =>
      rw [List.cons_append, locate, locate, ih, Instr.sizeAll_cons, List.cons_append,
        Nat.add_assoc]

/-- The linear decoding of a stream comes past an offset. -/
structure ComesTo (code : Code) (offset : Nat) : Prop where
  inside : offset ≤ code.size
  passes : ∃ before, code.decodeAll =
    (before ++ (code.decodeFrom offset).1, (code.decodeFrom offset).2)

namespace ComesTo

theorem zero (code : Code) : code.ComesTo 0 :=
  ⟨Nat.zero_le _, [], rfl⟩

/-- The decoding comes past the end of what stands where it comes past. -/
theorem behind (comes : code.ComesTo offset) {instrs : List Instr}
    (placed : code.Places offset instrs) : code.ComesTo (offset + Instr.sizeAll instrs) := by
  obtain ⟨before, passes⟩ := comes.passes
  refine ⟨placed.stop_le, before ++ locate offset instrs, ?_⟩
  rw [passes, decodeFrom_of_places placed, List.append_assoc]

theorem next (comes : code.ComesTo offset) {instr : Instr} {rest : List Instr}
    (placed : code.Places offset (instr :: rest)) : code.ComesTo (offset + instr.size) := by
  have single : code.Places offset [instr] :=
    Places.left (show code.Places offset ([instr] ++ rest) from placed)
  rw [← Instr.sizeAll_singleton]
  exact comes.behind single

theorem starts (comes : code.ComesTo offset) {instrs : List Instr}
    (placed : code.Places offset instrs) (nonempty : instrs ≠ []) : code.Starts offset := by
  obtain ⟨before, passes⟩ := comes.passes
  obtain ⟨instr, rest, rfl⟩ := List.exists_cons_of_ne_nil nonempty
  refine ⟨⟨offset, instr.size, instr⟩, ?_, rfl⟩
  rw [passes, decodeFrom_of_instrAt placed.instrAt]
  exact List.mem_append_right _ List.mem_cons_self

theorem continues (comes : code.ComesTo offset) (decodes : code.decodeAll.2 = none) :
    code.Continues offset := by
  obtain ⟨before, passes⟩ := comes.passes
  rw [passes] at decodes
  rcases exists_mem_decodeFrom decodes with stop | ⟨located, listed, start⟩
  · exact .inr (Nat.le_antisymm comes.inside stop)
  · refine .inl ⟨located, ?_, start⟩
    rw [passes]
    exact List.mem_append_right _ listed

end ComesTo

/-- A target is an offset that the linear decoding comes past. -/
def Lands (code : Code) (target : Int32) : Prop :=
  ∃ offset : Nat, target.toInt = offset ∧ code.ComesTo offset

theorem lands_word {number : Nat} (small : number < Expr.operandRange)
    (comes : code.ComesTo number) : code.Lands (Expr.word number) :=
  ⟨number, Expr.toInt_word small, comes⟩

/-- An instruction at an offset makes the closure of one of the given lambdas. Its entry is the
place of the code that is generated for the body, and it stands behind this code, the return and
one load for each capture. -/
inductive EntersBody (code : Code) (lambdas : Expr → Prop) (offset : Nat)
    (entry arity captures : Int32) : Prop where
  | intro {span : Span} {self : Option Name} {parameters : List Name} {body : Expr}
      {globals : Name → Option Nat} {frames after : List Frame} {bodyCode : List Instr}
      {slots : List Int32} {start : Nat}
      (known : lambdas (.lambda span self parameters body)) (enters : entry.toInt = start)
      (generated : body.generate globals start (⟨parameters, self, []⟩ :: frames) =
        .ok (bodyCode, after))
      (placed : code.Places start (bodyCode ++ .ret :: slots.map .get))
      (behind : offset = start + Instr.sizeAll (bodyCode ++ .ret :: slots.map .get))
      (counted : arity.toInt = parameters.length) (captured : captures.toInt = slots.length) :
      EntersBody code lambdas offset entry arity captures

/-- What an instruction refers to is in place: the target of a jump, and the body of a closure. -/
def Refers (code : Code) (lambdas : Expr → Prop) (located : Located) : Prop :=
  match located.instr with
  | .jump target | .jumpIf target => code.Lands target
  | .makeLambda entry arity captures =>
      code.Lands entry ∧ code.EntersBody lambdas located.offset entry arity captures
  | _ => True

theorem EntersBody.imp {lambdas more : Expr → Prop} {entry arity captures : Int32}
    (enters : code.EntersBody lambdas offset entry arity captures)
    (known : ∀ expr, lambdas expr → more expr) :
    code.EntersBody more offset entry arity captures := by
  obtain ⟨among, enters, generated, placed, behind, counted, captured⟩ := enters
  exact ⟨known _ among, enters, generated, placed, behind, counted, captured⟩

theorem Refers.imp {lambdas more : Expr → Prop} {located : Located}
    (refers : code.Refers lambdas located) (known : ∀ expr, lambdas expr → more expr) :
    code.Refers more located := by
  obtain ⟨offset, size, instr⟩ := located
  cases instr with
  | makeLambda entry arity captures => exact ⟨refers.1, refers.2.imp known⟩
  | _ => exact refers

/-- Instructions without targets refer to nothing. -/
theorem refers_of_targets {lambdas : Expr → Prop} {instrs : List Instr}
    (plain : ∀ instr ∈ instrs, instr.targets = []) :
    ∀ located ∈ locate offset instrs, code.Refers lambdas located := by
  rintro ⟨place, size, instr⟩ listed
  have among : instr ∈ instrs := by
    rw [← map_instr_locate offset instrs]
    exact List.mem_map_of_mem listed
  have none := plain instr among
  cases instr with
  | jump | jumpIf | makeLambda => cases none
  | _ => exact True.intro

section Targets

variable {lambdas : Expr → Prop} {located : Located}

theorem Lands.continues {target : Int32} (lands : code.Lands target)
    (decodes : code.decodeAll.2 = none) :
    0 ≤ target.toInt ∧ code.Continues target.toInt.toNat := by
  obtain ⟨offset, same, comes⟩ := lands
  rw [same]
  exact ⟨Int.natCast_nonneg _, comes.continues decodes⟩

theorem Refers.lands (refers : code.Refers lambdas located) {target : Int32}
    (named : target ∈ located.instr.targets) : code.Lands target := by
  obtain ⟨offset, size, instr⟩ := located
  cases instr with
  | jump | jumpIf =>
      cases List.mem_singleton.mp named
      exact refers
  | makeLambda =>
      cases List.mem_singleton.mp named
      exact refers.1
  | _ => exact absurd named List.not_mem_nil

theorem Refers.starts {size : Nat} {entry arity captures : Int32}
    (refers : code.Refers lambdas ⟨offset, size, .makeLambda entry arity captures⟩) :
    code.Starts entry.toInt.toNat := by
  obtain ⟨⟨start, same, comes⟩, -, enters, -, placed, -⟩ := refers
  cases Int.ofNat.inj (enters.symm.trans same)
  rw [same]
  exact comes.starts placed (by simp)

theorem isStart_of_starts {target : Int32} (nonnegative : 0 ≤ target.toInt)
    (starts : code.Starts target.toInt.toNat) :
    Bundle.isStart code.decodeAll.1 target = true := by
  obtain ⟨located, listed, start⟩ := starts
  refine List.any_eq_true.mpr ⟨located, listed, beq_iff_eq.mpr ?_⟩
  omega

/-- Code that refers to what is in place passes the check of its targets. -/
theorem checked_of_refers (decodes : code.decodeAll.2 = none)
    (refers : ∀ located ∈ code.decodeAll.1, code.Refers lambdas located) : code.Checked := by
  refine ⟨decodes, ?_⟩
  rintro ⟨offset, size, instr⟩ listed
  have inPlace := refers _ listed
  cases instr with
  | jump target | jumpIf target =>
      obtain ⟨nonnegative, starts | stop⟩ := (inPlace.lands List.mem_cons_self).continues decodes
      · exact Bool.or_eq_true_iff.mpr (.inl (isStart_of_starts nonnegative starts))
      · refine Bool.or_eq_true_iff.mpr (.inr (beq_iff_eq.mpr ?_))
        omega
  | makeLambda entry arity captures =>
      obtain ⟨nonnegative, -⟩ := (inPlace.lands List.mem_cons_self).continues decodes
      exact isStart_of_starts nonnegative inPlace.starts
  | _ => rfl

end Targets

end Code

/-! ## Generated code -/

namespace Expr

variable {code : Code} {globals : Name → Option Nat} {offset : Nat} {frames after : List Frame}
  {instrs : List Instr}

/-- All that the code of an expression refers to is in place, wherever the code stands. -/
def RefersInPlace (expr : Expr) : Prop :=
  ∀ {code : Code} {globals : Name → Option Nat} {offset : Nat} {frames after : List Frame}
    {instrs : List Instr}, generate globals offset frames expr = .ok (instrs, after) →
    Fits globals offset frames expr → code.ComesTo offset → code.Places offset instrs →
    ∀ located ∈ Code.locate offset instrs, code.Refers (·.Within expr) located

/-- The parts of an expression refer to parts of the whole. -/
theorem RefersInPlace.inside {child whole : Expr} (refers : RefersInPlace child)
    (listed : child ∈ whole.children)
    (generated : generate globals offset frames child = .ok (instrs, after))
    (fits : Fits globals offset frames child) (comes : code.ComesTo offset)
    (placed : code.Places offset instrs) :
    ∀ located ∈ Code.locate offset instrs, code.Refers (·.Within whole) located := by
  intro located found
  exact (refers generated fits comes placed located found).imp fun _ within =>
    .inside listed within

theorem refersInPlace_ifThen {span : Span} {test consequent : Expr}
    (testRefers : RefersInPlace test) (thenRefers : RefersInPlace consequent) :
    RefersInPlace (.ifThen span test consequent) := by
  intro code globals offset frames after instrs generated fits comes placed
  obtain ⟨testCode, middle, thenCode, tested, chosen, rfl⟩ := generate_ifThen generated
  obtain ⟨testFits, thenSmall, stopSmall, thenFits⟩ := fits.ifThen tested chosen
  have stop := comes.behind placed
  have thenComes := comes.behind placed.left
  have thenPlaced := placed.right
  rw [Instr.sizeAll_append, ← Nat.add_assoc, thenOffset_eq] at stop
  rw [thenOffset_eq] at thenComes thenPlaced
  simp only [Code.locate_append, thenOffset_eq, List.forall_mem_append]
  refine ⟨⟨?_, ?_⟩, ?_⟩
  · exact testRefers.inside List.mem_cons_self tested testFits comes placed.left.left
  · simp only [Code.locate, List.forall_mem_cons]
    refine ⟨Code.lands_word thenSmall thenComes, True.intro, Code.lands_word stopSmall stop, ?_⟩
    exact fun _ listed => absurd listed List.not_mem_nil
  · exact thenRefers.inside (List.mem_cons_of_mem _ List.mem_cons_self) chosen thenFits thenComes
      thenPlaced

theorem refersInPlace_ifElse {span : Span} {test consequent alternative : Expr}
    (testRefers : RefersInPlace test) (thenRefers : RefersInPlace consequent)
    (elseRefers : RefersInPlace alternative) :
    RefersInPlace (.ifElse span test consequent alternative) := by
  intro code globals offset frames after instrs generated fits comes placed
  obtain ⟨testCode, first, elseCode, second, thenCode, tested, otherwise, chosen, rfl⟩ :=
    generate_ifElse generated
  obtain ⟨testFits, thenSmall, elseFits, stopSmall, thenFits⟩ :=
    fits.ifElse tested otherwise chosen
  have elseComes := (comes.behind placed.left).next placed.right
  have thenComes := (elseComes.behind placed.right.tail.left).next placed.right.tail.right
  have stop := thenComes.behind placed.right.tail.right.tail
  simp only [Code.locate_append, Code.locate, List.forall_mem_append, List.forall_mem_cons]
  refine ⟨?_, Code.lands_word thenSmall thenComes, ?_, Code.lands_word stopSmall stop, ?_⟩
  · exact testRefers.inside List.mem_cons_self tested testFits comes placed.left
  · exact elseRefers.inside (by simp [children]) otherwise elseFits elseComes
      placed.right.tail.left
  · exact thenRefers.inside (by simp [children]) chosen thenFits thenComes
      placed.right.tail.right.tail

/-- The jump of a lambda goes behind its body, and the closure is entered behind that jump. -/
theorem refersInPlace_lambda {span : Span} {self : Option Name} {parameters : List Name}
    {body : Expr} (bodyRefers : RefersInPlace body) :
    RefersInPlace (.lambda span self parameters body) := by
  intro code globals offset frames after instrs generated fits comes placed
  obtain ⟨-, bodyCode, bodyFrames, inner, rfl, -⟩ := generate_lambda_raw generated
  obtain ⟨stopSmall, bodyFits, -, entrySmall, aritySmall, capturesSmall⟩ := fits.lambda_raw inner
  generalize bodyFrames.headD ⟨parameters, self, []⟩ = frame at placed capturesSmall
  let slots := frame.captures.map fun capture => word capture.parentSlot
  have loads : frame.captures.map (fun capture => Instr.get (word capture.parentSlot)) =
      slots.map .get := by
    rw [List.map_map]
    rfl
  have counted : frame.captures.length = slots.length := List.length_map _ |>.symm
  rw [lambdaCode_eq, loads, counted] at placed ⊢
  rw [counted] at capturesSmall
  have entryComes := comes.next placed
  have stop := entryComes.behind placed.tail.left
  rw [stop_of_body] at stop
  have bodyPlaced : code.Places (offset + jumpSize) (bodyCode ++ .ret :: slots.map .get) := by
    have whole := placed.tail
    rw [← List.append_assoc, List.append_assoc bodyCode] at whole
    exact whole.left
  simp only [Code.locate_append, Code.locate, List.forall_mem_append, List.forall_mem_cons]
  refine ⟨Code.lands_word stopSmall stop, ⟨?_, True.intro, ?_⟩, ?_,
    ⟨Code.lands_word entrySmall entryComes, ?_⟩, ?_⟩
  · exact bodyRefers.inside List.mem_cons_self inner bodyFits entryComes placed.tail.left.left
  · exact fun _ listed => absurd listed List.not_mem_nil
  · exact Code.refers_of_targets (List.forall_mem_map.mpr fun _ _ => rfl)
  · refine ⟨.refl, toInt_word entrySmall, inner, bodyPlaced, ?_, toInt_word aritySmall,
      toInt_word capturesSmall⟩
    simp only [Instr.sizeAll_append, Instr.sizeAll_cons, Instr.sizeAll_nil, Instr.size, jumpSize]
    omega
  · exact fun _ listed => absurd listed List.not_mem_nil

theorem generateAll_refersInPlace {whole : Expr} {exprs : List Expr}
    (each : ∀ expr ∈ exprs, RefersInPlace expr) (inside : ∀ expr ∈ exprs, expr ∈ whole.children)
    (generated : generateAll globals offset frames exprs = .ok (instrs, after))
    (fits : FitsAll globals offset frames exprs) (comes : code.ComesTo offset)
    (placed : code.Places offset instrs) :
    ∀ located ∈ Code.locate offset instrs, code.Refers (·.Within whole) located := by
  induction exprs generalizing offset frames instrs with
  | nil =>
      rw [generateAll] at generated
      cases generated
      exact fun _ listed => absurd listed List.not_mem_nil
  | cons expr rest ih =>
      obtain ⟨firstCode, middle, restCode, first, rested, rfl⟩ := generateAll_cons generated
      obtain ⟨firstFits, restFits⟩ := fits.cons first
      obtain ⟨head, tail⟩ := List.forall_mem_cons.mp each
      obtain ⟨child, children⟩ := List.forall_mem_cons.mp inside
      rw [Code.locate_append, List.forall_mem_append]
      constructor
      · exact head.inside child first firstFits comes placed.left
      · exact ih tail children rested restFits (comes.behind placed.left) placed.right

theorem refersInPlace_call {span : Span} {callee : Expr} {arguments : List Expr}
    (calleeRefers : RefersInPlace callee)
    (argumentsRefer : ∀ argument ∈ arguments, RefersInPlace argument) :
    RefersInPlace (.call span callee arguments) := by
  intro code globals offset frames after instrs generated fits comes placed
  obtain ⟨argumentCode, middle, calleeCode, supplied, called, rfl⟩ := generate_call generated
  obtain ⟨argumentsFit, calleeFits, -⟩ := fits.call supplied
  simp only [Code.locate_append, Code.locate, List.forall_mem_append, List.forall_mem_cons]
  refine ⟨?_, ?_, True.intro, ?_⟩
  · exact generateAll_refersInPlace argumentsRefer
      (fun _ listed => List.mem_cons_of_mem _ listed) supplied argumentsFit comes placed.left
  · exact calleeRefers.inside List.mem_cons_self called calleeFits (comes.behind placed.left)
      placed.right.left
  · exact fun _ listed => absurd listed List.not_mem_nil

/-- All that generated code refers to is in place. -/
theorem refersInPlace (expr : Expr) : RefersInPlace expr := by
  induction expr using Expr.induction with
  | int span value | bool span value =>
      intro code globals offset frames after instrs generated fits comes placed
      rw [generate] at generated
      cases generated
      exact List.forall_mem_singleton.mpr True.intro
  | var span name =>
      intro code globals offset frames after instrs generated fits comes placed
      rcases generate_var generated with ⟨slot, -, rfl⟩ | ⟨-, -, slot, -, rfl⟩
      · exact List.forall_mem_singleton.mpr True.intro
      · exact List.forall_mem_singleton.mpr True.intro
  | ifThen span test consequent testIh thenIh => exact refersInPlace_ifThen testIh thenIh
  | ifElse span test consequent alternative testIh thenIh elseIh =>
      exact refersInPlace_ifElse testIh thenIh elseIh
  | define span name value valueIh =>
      intro code globals offset frames after instrs generated fits comes placed
      exact absurd generated generate_define
  | lambda span self parameters body bodyIh => exact refersInPlace_lambda bodyIh
  | call span callee arguments calleeIh argumentsIh =>
      exact refersInPlace_call calleeIh argumentsIh

end Expr

/-! ## Compiled batches -/

namespace Compiler

variable {compiler later : Compiler} {expr : Expr} {exprs : List Expr} {code : Code}

/-- What a top-level expression writes, and that all it refers to is in place. -/
theorem refers_of_write {instrs : List Instr} {after : List Frame} {last : Instr}
    (generated : expr.generate compiler.slot? compiler.buffer.used [] = .ok (instrs, after))
    (fits : expr.Fits compiler.slot? compiler.buffer.used []) (plain : last.targets = [])
    (comes : code.ComesTo compiler.buffer.used)
    (grown : (compiler.write (instrs ++ [last])).buffer.code.toList <+: code.toList) :
    code.Places compiler.buffer.used (instrs ++ [last]) ∧
      ∀ located ∈ Code.locate compiler.buffer.used (instrs ++ [last]),
        code.Refers (·.Within expr) located := by
  have placed := places_of_write grown
  refine ⟨placed, ?_⟩
  rw [Code.locate_append, List.forall_mem_append]
  constructor
  · exact expr.refersInPlace generated fits comes placed.left
  · exact Code.refers_of_targets (List.forall_mem_singleton.mpr plain)

theorem Adds.exists_instrs (adds : Adds compiler expr later)
    (fits : ∀ number ∈ compiler.formOperands expr, number < Expr.operandRange)
    (comes : code.ComesTo compiler.buffer.used)
    (grown : later.buffer.code.toList <+: code.toList) :
    ∃ instrs, later.buffer.used = compiler.buffer.used + Instr.sizeAll instrs ∧
      code.Places compiler.buffer.used instrs ∧
      ∀ located ∈ Code.locate compiler.buffer.used instrs,
        code.Refers (·.Within expr) located := by
  cases adds with
  | define free generated =>
      obtain ⟨placed, refers⟩ := refers_of_write generated fits rfl comes grown
      refine ⟨_, CodeBuffer.used_emitAll _ _, placed, fun located listed => ?_⟩
      exact (refers located listed).imp fun _ within => .inside List.mem_cons_self within
  | value generated =>
      rw [formOperands_of_generate generated] at fits
      obtain ⟨placed, refers⟩ := refers_of_write generated fits rfl comes grown
      exact ⟨_, CodeBuffer.used_emitAll _ _, placed, refers⟩

/-- The stream of a batch decodes to its end, and all that it refers to is in place. -/
theorem refers_of_addForms (added : compiler.addForms exprs = (none, later))
    (fits : compiler.Fits exprs) (comes : later.buffer.code.ComesTo compiler.buffer.used) :
    (later.buffer.code.decodeFrom compiler.buffer.used).2 = none ∧
      ∀ located ∈ (later.buffer.code.decodeFrom compiler.buffer.used).1,
        later.buffer.code.Refers (fun part => ∃ expr ∈ exprs, part.Within expr) located := by
  induction exprs generalizing compiler with
  | nil =>
      cases added
      rw [Code.decodeFrom, if_neg (by rw [CodeBuffer.size_code]; exact Nat.lt_irrefl _)]
      exact ⟨rfl, fun _ listed => absurd listed List.not_mem_nil⟩
  | cons expr rest ih =>
      obtain ⟨middle, first, rested⟩ := addForms_cons added
      obtain ⟨firstFits, restFits⟩ := fits.cons first
      have grown := (addForms_extends middle rest).code
      rw [rested] at grown
      obtain ⟨instrs, used, placed, refers⟩ :=
        (adds_of_addForm first).exists_instrs firstFits comes grown
      have behind := comes.behind placed
      rw [← used] at behind
      obtain ⟨decodes, others⟩ := ih rested restFits behind
      rw [Code.decodeFrom_of_places placed, ← used]
      refine ⟨decodes, List.forall_mem_append.mpr ⟨fun located listed => ?_, ?_⟩⟩
      · exact (refers located listed).imp fun _ within => ⟨expr, List.mem_cons_self, within⟩
      · intro located listed
        refine (others located listed).imp ?_
        rintro part ⟨other, among, within⟩
        exact ⟨other, List.mem_cons_of_mem _ among, within⟩

end Compiler

/-! ## Verification -/

namespace Bundle

theorem wrongGlobal?_of_isPrefix {slot : Nat} {expected found : List Name}
    (table : expected <+: found) : wrongGlobal? slot expected found = none := by
  obtain ⟨more, rfl⟩ := table
  induction expected generalizing slot with
  | nil => cases more <;> rfl
  | cons name rest ih =>
      rw [List.cons_append, wrongGlobal?, if_pos rfl]
      exact ih

theorem globalsFault?_of_isPrefix {globals : List Name} (table : predefinedNames <+: globals) :
    globalsFault? globals = none := by
  rw [globalsFault?, if_neg (Nat.not_lt.mpr table.length_le)]
  exact wrongGlobal?_of_isPrefix table

theorem targetFault?_of_checked {code : Code} (checked : code.Checked) :
    targetFault? code = none := by
  have decoded : code.decodeAll = (code.decodeAll.1, none) := Prod.ext rfl checked.decodes
  rw [targetFault?, decoded]
  simpa using checked.lands

end Bundle

/-- A program that compiles, with operands that fit a signed word, passes verification, whatever
source it is packed with: its code decodes to its end, no target is still open, every jump goes to a
boundary, every closure is entered at the first instruction of the body of its lambda, the table of
names starts with the predefined ones, and what is declared is what the code needs. -/
theorem Program.verify_of_ofExprs (exprs : List Expr) (program : Program)
    (compiled : Program.ofExprs exprs = .ok program) (fits : Compiler.new.Fits exprs)
    (source : Bytes) :
    (Bundle.new source program.code program.globals).verify = .ok () ∧
      program.code.decodeAll.2 = none ∧
      (∀ located ∈ program.code.decodeAll.1,
        ∀ target ∈ located.instr.targets, target ≠ Expr.openTarget) ∧
      (∀ located ∈ program.code.decodeAll.1, ∀ target,
        located.instr = .jump target ∨ located.instr = .jumpIf target →
          0 ≤ target.toInt ∧ program.code.Continues target.toInt.toNat) ∧
      (∀ located ∈ program.code.decodeAll.1, ∀ entry arity captures,
        located.instr = .makeLambda entry arity captures →
          program.code.Starts entry.toInt.toNat ∧
            program.code.EntersBody (fun part => ∃ expr ∈ exprs, part.Within expr)
              located.offset entry arity captures) ∧
      predefinedNames <+: program.globals ∧
      Capability.required program.code program.globals =
        .ok (Bundle.new source program.code program.globals).capabilities := by
  obtain ⟨later, added, rfl⟩ := Compiler.ofExprs_eq_ok compiled
  obtain ⟨decodes, refers⟩ := Compiler.refers_of_addForms added fits (Code.ComesTo.zero _)
  have checked := Code.checked_of_refers decodes refers
  have table := (Compiler.addForms_extends Compiler.new exprs).globals
  rw [added] at table
  refine ⟨?_, decodes, ?_, ?_, ?_, table, ?_⟩
  · exact Bundle.verify_new (Bundle.globalsFault?_of_isPrefix table)
      (Bundle.targetFault?_of_checked checked)
  · rintro located listed target named rfl
    obtain ⟨nonnegative, -⟩ := ((refers located listed).lands named).continues decodes
    exact absurd nonnegative (by decide)
  · rintro located listed target jump
    refine ((refers located listed).lands ?_).continues decodes
    rcases jump with same | same <;> rw [same] <;> exact List.mem_cons_self
  · rintro ⟨offset, size, instr⟩ listed entry arity captures same
    cases same
    exact ⟨(refers _ listed).starts, (refers _ listed).2⟩
  · obtain ⟨instrs, decoded⟩ : ∃ instrs, later.buffer.code.decodeAll = (instrs, none) :=
      ⟨_, Prod.ext rfl decodes⟩
    simp only [Bundle.new, Capability.required, decoded]
    rfl

/-- A function that is chosen by a conditional and makes another one, and a call of it. -/
def branchProgram : List Expr :=
  [.define default [102] (.ifElse default (.bool default true)
      (.lambda default none [[120]] (.lambda default none [] (.var default [120])))
      (.int default 1)),
    .call default (.var default [102]) [.int default 5]]

/-- The code of `branchProgram`. -/
def branchCode : Code :=
  (Instr.encodeAll
    [.push (.bool true), .jumpIf 19, .push (.int 1), .jump 67, .jump 54, .jump 35, .get 1, .ret,
      .get 0, .makeLambda 29 0 1, .ret, .makeLambda 24 1 0, .defGlobal, .push (.int 5),
      .getGlobal 9, .call 1, .pop]).toArray

theorem Program.verify_of_ofExprs_branch :
    Program.ofExprs branchProgram = .ok ⟨branchCode, predefinedNames ++ [[102]], 0⟩ ∧
      (Bundle.new (utf8 "(f 5)") branchCode (predefinedNames ++ [[102]])).verify = .ok () := by
  have compiled : Program.ofExprs branchProgram =
      .ok ⟨branchCode, predefinedNames ++ [[102]], 0⟩ := by
    decide +kernel
  have fits : Compiler.new.Fits branchProgram := by
    unfold Compiler.Fits
    decide +kernel
  obtain ⟨verified, -⟩ := verify_of_ofExprs branchProgram _ compiled fits (utf8 "(f 5)")
  exact ⟨compiled, verified⟩

end ClosureLisp
