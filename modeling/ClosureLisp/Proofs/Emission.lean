import ClosureLisp.Proofs.Verification
import Std.Data.ExtTreeMap

/-!
# Writing code in one pass

Code can also be written instruction by instruction, with a jump left open until the place it
leads to is reached, with the frames of the lambdas that are open kept on a stack, and with the
slots of the globals looked up in an index. An error then stops in the middle and leaves all this
as it stands. `Emitter` is a compiler that works so. It writes what `Expr.generate` computes:
`writesGenerated` says so of an expression, `compile_compiler` of a batch.
-/

namespace ClosureLisp

/-! ## Targets that are written later -/

namespace CodeBuffer

/-- A buffer with bytes of its stream written over. -/
def revise (buffer : CodeBuffer) (site : Nat) (bytes : Bytes) : CodeBuffer :=
  ⟨overwrite buffer.block site bytes, buffer.used, by
    rw [size_overwrite]; exact buffer.used_le⟩

variable {buffer : CodeBuffer} {site place : Nat}

theorem eq_of_block {left right : CodeBuffer} (block : left.block = right.block)
    (used : left.used = right.used) : left = right := by
  cases left
  cases right
  cases block
  cases used
  rfl

theorem used_append (buffer : CodeBuffer) (bytes : Bytes) :
    (buffer.append bytes).used = buffer.used + bytes.length := by
  by_cases fits : buffer.used + bytes.length ≤ buffer.block.size
  · simp only [append, dif_pos fits]
  · simp only [append, dif_neg fits]

theorem overwrite_setIfInBounds (block : Array UInt8) (byte : UInt8) (bytes : Bytes)
    (apart : site < place) :
    overwrite (block.setIfInBounds site byte) place bytes =
      (overwrite block place bytes).setIfInBounds site byte := by
  induction bytes generalizing block place with
  | nil => rfl
  | cons first rest ih =>
      rw [overwrite, overwrite, Array.setIfInBounds_comm _ _ (Nat.ne_of_lt apart)]
      exact ih _ (Nat.lt_succ_of_lt apart)

/-- Bytes in different places are written in any order. -/
theorem overwrite_comm (block : Array UInt8) (bytes more : Bytes)
    (apart : site + bytes.length ≤ place) :
    overwrite (overwrite block site bytes) place more =
      overwrite (overwrite block place more) site bytes := by
  induction bytes generalizing block site with
  | nil => rfl
  | cons byte rest ih =>
      rw [List.length_cons] at apart
      rw [overwrite, overwrite, ih _ (by omega),
        overwrite_setIfInBounds _ _ _ (by omega : site < place)]

/-- Bytes that are written over again are as if they had been written once. -/
theorem overwrite_overwrite (block : Array UInt8) (site : Nat) {old new : Bytes}
    (length : old.length = new.length) :
    overwrite (overwrite block site old) site new = overwrite block site new := by
  induction old generalizing block site new with
  | nil =>
      rw [List.eq_nil_of_length_eq_zero length.symm]
      rfl
  | cons byte rest ih =>
      cases new with
      | nil => cases length
      | cons other later =>
          rw [overwrite, overwrite, overwrite, ← overwrite_setIfInBounds _ _ _ (Nat.lt_succ_self _),
            Array.setIfInBounds_setIfInBounds, ih _ _ (Nat.succ.inj length)]

/-- Writing over the front of a block leaves the rest as it is. -/
theorem overwrite_append (front back : Array UInt8) (bytes : Bytes)
    (inside : site + bytes.length ≤ front.size) :
    overwrite (front ++ back) site bytes = overwrite front site bytes ++ back := by
  induction bytes generalizing front site with
  | nil => rfl
  | cons byte rest ih =>
      rw [List.length_cons] at inside
      rw [overwrite, overwrite, Array.setIfInBounds_append_left (by omega),
        ih _ (by rw [Array.size_setIfInBounds]; omega)]

theorem extract_overwrite (block : Array UInt8) (bytes : Bytes) {used : Nat}
    (inside : site + bytes.length ≤ used) :
    (overwrite block site bytes).extract 0 used = overwrite (block.extract 0 used) site bytes := by
  induction bytes generalizing block site with
  | nil => rfl
  | cons byte rest ih =>
      rw [List.length_cons] at inside
      rw [overwrite, overwrite, ih _ (by omega)]
      congr 1
      grind

theorem revise_append (bytes more : Bytes) (inside : site + bytes.length ≤ buffer.used) :
    (buffer.revise site bytes).append more = (buffer.append more).revise site bytes := by
  have size := size_overwrite buffer.block site bytes
  by_cases fits : buffer.used + more.length ≤ buffer.block.size
  · refine eq_of_block ?_ ?_
    · simp only [append, revise, size, dif_pos fits]
      exact overwrite_comm _ _ _ inside
    · simp only [append, revise, size, dif_pos fits]
  · refine eq_of_block ?_ ?_
    · simp only [append, revise, size, dif_neg fits, code]
      rw [extract_overwrite _ _ inside, Array.append_assoc, Array.append_assoc, overwrite_append]
      rw [Array.size_extract, Nat.min_eq_left buffer.used_le]
      exact inside
    · simp only [append, revise, size, dif_neg fits]


theorem overwrite_end (front : Array UInt8) {old new : Bytes} (length : old.length = new.length) :
    overwrite (front ++ old.toArray) front.size new = front ++ new.toArray := by
  apply Array.toList_inj.mp
  rw [toList_overwrite _ _ _ (by simp [length])]
  simp [← length]

theorem revise_append_cons {byte : UInt8} {old new : Bytes} (length : old.length = new.length) :
    (buffer.append (byte :: old)).revise (buffer.used + 1) new = buffer.append (byte :: new) := by
  by_cases fits : buffer.used + (new.length + 1) ≤ buffer.block.size
  · refine eq_of_block ?_ ?_
    · simp only [append, revise, List.length_cons, length, dif_pos fits]
      exact overwrite_overwrite _ _ length
    · simp only [append, revise, List.length_cons, length, dif_pos fits]
  · refine eq_of_block ?_ ?_
    · simp only [append, revise, List.length_cons, length, dif_neg fits]
      have ended := overwrite_end (buffer.code ++ #[byte]) length
      rw [Array.size_append, size_code] at ended
      have front (bytes : Bytes) :
          buffer.code ++ (byte :: bytes).toArray = buffer.code ++ #[byte] ++ bytes.toArray := by
        simp
      rw [overwrite_append _ _ _ (by simp [size_code, length]; omega), front old, front new]
      exact congrArg (· ++ _) ended
    · simp only [append, revise, List.length_cons, length, dif_neg fits]

theorem revise_emitAll (bytes : Bytes) (instrs : List Instr)
    (inside : site + bytes.length ≤ buffer.used) :
    (buffer.revise site bytes).emitAll instrs = (buffer.emitAll instrs).revise site bytes := by
  induction instrs generalizing buffer with
  | nil => rfl
  | cons instr rest ih =>
      have room : site + bytes.length ≤ (buffer.emit instr).used := by
        rw [emit, used_append]
        exact Nat.le_add_right_of_le inside
      have first := revise_append bytes instr.encode inside
      have rested := ih room
      rw [emit, ← first] at rested
      exact rested

/-- A jump that is written open, and gets its target when more code stands behind it, is as if it
had been written with the target at once, spare room included. -/
theorem patch?_emitAll (buffer : CodeBuffer) {jump : Int32 → Instr} {byte : UInt8}
    (opens : ∀ target, (jump target).encode = byte :: Instr.operand target)
    (instrs : List Instr) (target : Nat) :
    (buffer.emitAll (jump Expr.openTarget :: instrs)).patch? ((buffer.used + 1 : Nat)) target =
      some (buffer.emitAll (jump (Expr.word target) :: instrs)) := by
  have words (number : Int32) : (Instr.operand number).length = 4 := rfl
  have room : buffer.used + 1 + 4 ≤ (buffer.emit (jump Expr.openTarget)).used := by
    rw [emit, used_append, opens, List.length_cons, words]
  have inside : buffer.used + 1 + 4 ≤ (buffer.emitAll (jump Expr.openTarget :: instrs)).used := by
    have later := used_emitAll (buffer.emit (jump Expr.openTarget)) instrs
    change (buffer.emitAll (jump Expr.openTarget :: instrs)).used = _ at later
    omega
  have written : (buffer.emit (jump Expr.openTarget)).revise (buffer.used + 1)
      (Instr.operand (Expr.word target)) = buffer.emit (jump (Expr.word target)) := by
    rw [emit, emit, opens, opens]
    exact revise_append_cons rfl
  have commuted := revise_emitAll (Instr.operand (Expr.word target)) instrs room
  rw [written] at commuted
  rw [patch?, if_pos (by omega)]
  exact congrArg some commuted.symm

theorem emitAll_append (buffer : CodeBuffer) (first second : List Instr) :
    buffer.emitAll (first ++ second) = (buffer.emitAll first).emitAll second :=
  List.foldl_append

end CodeBuffer

/-! ## Indexes -/

/-- The slots of names. -/
abbrev Index := Std.ExtTreeMap Name Nat

namespace Index

/-- An index without the given names. -/
def forget (index : Index) (names : List Name) : Index :=
  names.foldl (fun index name => index.erase name) index

/-- An index maps each of some names to its place among them, and nothing else. -/
def Lists (index : Index) (names : List Name) : Prop :=
  ∀ (name : Name) (slot : Nat), index[name]? = some slot ↔ names[slot]? = some name

theorem getElem?_forget (index : Index) (names : List Name) (name : Name) :
    (index.forget names)[name]? = if name ∈ names then none else index[name]? := by
  induction names generalizing index with
  | nil => rfl
  | cons first rest ih =>
      have erased : (index.erase first)[name]? = if first = name then none else index[name]? := by
        rw [Std.ExtTreeMap.getElem?_erase]
        simp only [Std.LawfulEqCmp.compare_eq_iff_eq]
      change (forget (index.erase first) rest)[name]? = _
      rw [ih, erased]
      by_cases same : first = name
      · simp [same]
      · simp [same, Ne.symm same]

namespace Lists

variable {index other : Index} {names : List Name}

/-- Names that have an index differ from each other. -/
theorem nodup (lists : index.Lists names) : names.Nodup := by
  rw [List.nodup_iff_injective_get]
  intro first second same
  have found := (lists (names.get first) first).mpr (List.getElem?_eq_getElem first.2)
  have again := (lists (names.get second) second).mpr (List.getElem?_eq_getElem second.2)
  rw [← same, found] at again
  exact Fin.ext (Option.some.inj again)

/-- Names have one index only. -/
theorem unique (lists : index.Lists names) (otherLists : other.Lists names) : index = other := by
  apply Std.ExtTreeMap.ext_getElem?
  intro name
  apply Option.ext
  intro slot
  rw [lists, otherLists]

/-- An index finds what a search among the names finds. -/
theorem idxOf?_eq (lists : index.Lists names) (name : Name) :
    names.idxOf? name = index[name]? := by
  cases found : names.idxOf? name with
  | some slot =>
      obtain ⟨inside, named, -⟩ := List.idxOf?_eq_some_iff.mp found
      exact ((lists name slot).mpr (by rw [List.getElem?_eq_getElem inside, named])).symm
  | none =>
      cases listed : index[name]? with
      | none => rfl
      | some slot =>
          exact absurd (List.mem_of_getElem? ((lists name slot).mp listed))
            (List.idxOf?_eq_none_iff.mp found)

theorem empty : Lists ∅ [] := by
  intro name slot
  simp

theorem insert (lists : index.Lists names) {name : Name} (fresh : index[name]? = none) :
    Lists (Std.ExtTreeMap.insert index name names.length) (names ++ [name]) := by
  intro other slot
  rw [Std.ExtTreeMap.getElem?_insert]
  simp only [Std.LawfulEqCmp.compare_eq_iff_eq]
  rcases Nat.lt_or_ge slot names.length with inside | outside
  · rw [List.getElem?_append_left inside, ← lists]
    split
    · next same =>
        rw [← same, fresh]
        simp [Nat.ne_of_gt inside]
    · rfl
  · obtain ⟨more, rfl⟩ := Nat.exists_eq_add_of_le outside
    have missing : index[other]? ≠ some (names.length + more) := by
      rw [Ne, lists, List.getElem?_eq_none outside]
      simp
    rw [List.getElem?_append_right outside, Nat.add_sub_cancel_left]
    by_cases same : name = other
    · cases more <;> simp [same]
    · cases more <;> simp_all

/-- Names behind a place are those with slots behind it. -/
theorem mem_drop_iff (lists : index.Lists names) {name : Name} {count : Nat} :
    name ∈ names.drop count ↔ ∃ slot, count ≤ slot ∧ index[name]? = some slot := by
  rw [List.mem_iff_getElem?]
  constructor
  · rintro ⟨place, listed⟩
    rw [List.getElem?_drop] at listed
    exact ⟨count + place, Nat.le_add_right _ _, (lists _ _).mpr listed⟩
  · rintro ⟨slot, behind, found⟩
    obtain ⟨place, rfl⟩ := Nat.exists_eq_add_of_le behind
    exact ⟨place, by rw [List.getElem?_drop, ← lists, found]⟩

/-- Taking the last names out of an index leaves an index of the others. -/
theorem take (lists : index.Lists names) (count : Nat) :
    Lists (index.forget (names.drop count)) (names.take count) := by
  intro name slot
  have listed : (names.take count)[slot]? = some name ↔
      slot < count ∧ index[name]? = some slot := by
    rw [List.getElem?_take, lists]
    split
    · next inside => exact (and_iff_right inside).symm
    · next outside => simp [outside]
  rw [getElem?_forget, listed]
  by_cases dropped : name ∈ names.drop count
  · obtain ⟨place, behind, found⟩ := lists.mem_drop_iff.mp dropped
    rw [if_pos dropped, found]
    constructor
    · intro absent
      cases absent
    · rintro ⟨inside, same⟩
      cases same
      exact absurd behind (Nat.not_le_of_lt inside)
  · rw [if_neg dropped]
    rw [lists.mem_drop_iff] at dropped
    constructor
    · intro found
      exact ⟨Nat.lt_of_not_le fun behind => dropped ⟨slot, behind, found⟩, found⟩
    · exact And.right

end Lists

end Index

/-! ## Emitters -/

/-- A compiler in the middle of a batch: the code so far, the names of the globals with an index of
their slots, and the frames of the lambdas that are open. -/
structure Emitter where
  buffer : CodeBuffer
  globals : List Name
  index : Index
  frames : List Frame

namespace Emitter

/-- A step of an emitter. An error leaves it as it stands. -/
abbrev Action := EStateM SourceError Emitter

/-- Writes an instruction. -/
def write (instr : Instr) : Action Unit := fun emitter =>
  .ok () { emitter with buffer := emitter.buffer.emit instr }

/-- Writes a jump that is still open and yields the place of its target. -/
def openJump (jump : Int32 → Instr) : Action Nat := fun emitter =>
  .ok (emitter.buffer.used + 1)
    { emitter with buffer := emitter.buffer.emit (jump Expr.openTarget) }

/-- Lets an open jump lead to the end of the stream. -/
def land (site : Nat) : Action Unit := fun emitter =>
  match emitter.buffer.patch? site emitter.buffer.used with
  | some buffer => .ok () { emitter with buffer := buffer }
  | none => .ok () emitter

/-- The present end of the stream. -/
def here : Action Nat := fun emitter =>
  .ok emitter.buffer.used emitter

/-- Opens a lambda. -/
def enter (frame : Frame) : Action Unit := fun emitter =>
  .ok () { emitter with frames := frame :: emitter.frames }

/-- Closes the innermost lambda and yields what it has captured. -/
def leave : Action (List Capture) := fun emitter =>
  match emitter.frames with
  | [] => .ok [] emitter
  | frame :: outer => .ok frame.captures { emitter with frames := outer }

/-- Loads a name: a local name extends the frames, any other one is looked up in the index. -/
def load (place : Position) (name : Name) : Action Unit := fun emitter =>
  match Frame.resolve? name emitter.frames with
  | some (slot, frames) => write (.get (Expr.word slot)) { emitter with frames := frames }
  | none =>
      match emitter.index[name]? with
      | some slot => write (.getGlobal (Expr.word slot)) emitter
      | none => .error ⟨place, .undefined name⟩ emitter

/-- Writes instructions one after the other. -/
def writeAll : List Instr → Action Unit
  | [] => pure ()
  | instr :: rest => do
      write instr
      writeAll rest

mutual

/-- Writes the code of an expression. -/
def emit : Expr → Action Unit
  | .int _ value => write (.push (.int value))
  | .bool _ value => write (.push (.bool value))
  | .var span name => load span.start name
  | .ifThen _ test consequent => do
      emit test
      let toThen ← openJump .jumpIf
      write (.push .nil)
      let toEnd ← openJump .jump
      land toThen
      emit consequent
      land toEnd
  | .ifElse _ test consequent alternative => do
      emit test
      let toThen ← openJump .jumpIf
      emit alternative
      let toEnd ← openJump .jump
      land toThen
      emit consequent
      land toEnd
  | .define span name _ => throw ⟨span.start, .nestedDefine name⟩
  | .lambda span self parameters body =>
      match Frame.new? self parameters with
      | none => throw ⟨span.start, .repeatedParameters parameters⟩
      | some frame => do
          enter frame
          let overBody ← openJump .jump
          let entry ← here
          emit body
          write .ret
          land overBody
          let captures ← leave
          writeAll (captures.map fun capture => .get (Expr.word capture.parentSlot))
          write (.makeLambda (Expr.word entry) (Expr.word parameters.length)
            (Expr.word captures.length))
  | .call _ callee arguments => do
      emitAll arguments
      emit callee
      write (.call (Expr.word arguments.length))

/-- Writes the code of expressions one after the other. -/
def emitAll : List Expr → Action Unit
  | [] => pure ()
  | expr :: rest => do
      emit expr
      emitAll rest

end

/-! ## Steps -/

/-- An emitter that has written further instructions and has come to the given frames. -/
def past (emitter : Emitter) (instrs : List Instr) (frames : List Frame) : Emitter :=
  { emitter with buffer := emitter.buffer.emitAll instrs, frames := frames }

section Steps

variable {emitter : Emitter} {α β : Type} {value : α} {next : Emitter}
  {action : Action α} {further : α → Action β}

theorem bind_of_ok (done : action emitter = .ok value next) :
    (action >>= further) emitter = further value next := by
  change EStateM.bind action further emitter = _
  rw [EStateM.bind, done]

theorem bind_of_error {error : SourceError} (failed : action emitter = .error error next) :
    (action >>= further) emitter = .error error next := by
  change EStateM.bind action further emitter = _
  rw [EStateM.bind, failed]

variable (emitter) (instrs : List Instr) (frames : List Frame)

theorem past_past (first second : List Instr) (frames after : List Frame) :
    (emitter.past first frames).past second after = emitter.past (first ++ second) after := by
  rw [past, past, past, CodeBuffer.emitAll_append]

theorem used_past : (emitter.past instrs frames).buffer.used =
    emitter.buffer.used + Instr.sizeAll instrs :=
  CodeBuffer.used_emitAll _ _

theorem write_past (instr : Instr) :
    write instr (emitter.past instrs frames) = .ok () (emitter.past (instrs ++ [instr]) frames) :=
  congrArg (EStateM.Result.ok ()) (past_past emitter instrs [instr] frames frames)

theorem openJump_past (jump : Int32 → Instr) :
    openJump jump (emitter.past instrs frames) =
      .ok (emitter.buffer.used + Instr.sizeAll instrs + 1)
        (emitter.past (instrs ++ [jump Expr.openTarget]) frames) := by
  rw [openJump, used_past]
  exact congrArg (EStateM.Result.ok _) (past_past emitter instrs [jump _] frames frames)

/-- A jump that lands is as if it had been written with its target at once. -/
theorem land_past {jump : Int32 → Instr} {byte : UInt8}
    (opens : ∀ target, (jump target).encode = byte :: Instr.operand target)
    (front rest patched : List Instr) (stop : Nat) {site : Nat}
    (written : instrs = front ++ jump Expr.openTarget :: rest)
    (place : site = emitter.buffer.used + Instr.sizeAll front + 1)
    (target : stop = emitter.buffer.used + Instr.sizeAll instrs)
    (done : patched = front ++ jump (Expr.word stop) :: rest) :
    land site (emitter.past instrs frames) = .ok () (emitter.past patched frames) := by
  subst written place target done
  have landed := CodeBuffer.patch?_emitAll (emitter.buffer.emitAll front) opens rest
    (emitter.buffer.used + Instr.sizeAll (front ++ jump Expr.openTarget :: rest))
  rw [CodeBuffer.used_emitAll, ← CodeBuffer.emitAll_append, ← CodeBuffer.emitAll_append] at landed
  rw [land, used_past, past]
  dsimp only
  rw [landed]
  rfl

theorem writeAll_past (more : List Instr) :
    writeAll more (emitter.past instrs frames) = .ok () (emitter.past (instrs ++ more) frames) := by
  induction more generalizing instrs with
  | nil =>
      rw [List.append_nil]
      rfl
  | cons instr rest ih =>
      rw [writeAll, bind_of_ok (write_past emitter instrs frames instr), ih, List.append_assoc]
      rfl

end Steps

/-! ## Code generation -/

open ClosureLisp.Expr (generate generateAll jumpSize openTarget thenOffset thenOffset_eq word)

/-- An emitter has written what is generated, or it has stopped with the error where generating
stops. -/
inductive Emits (emitter : Emitter) :
    Generated → EStateM.Result SourceError Emitter Unit → Prop where
  | done {instrs : List Instr} {frames : List Frame} :
      Emits emitter (.ok (instrs, frames)) (.ok () (emitter.past instrs frames))
  | failed {failure : GenerateFailure} {frames : List Frame} :
      Emits emitter (.error failure) (.error failure.error (emitter.past failure.written frames))

namespace Emits

variable {emitter : Emitter} {generated : Generated} {next : List Instr → List Frame → Generated}
  {front : List Instr} {frames : List Frame} {action : Action Unit} {further : Unit → Action Unit}

/-- What is written behind other code. -/
theorem behind {outcome : EStateM.Result SourceError Emitter Unit}
    (emits : Emits (emitter.past front frames) generated outcome) :
    Emits emitter
      (generated.onward (·.behind front) fun code after => .ok (front ++ code, after)) outcome := by
  cases emits with
  | done =>
      rw [past_past]
      exact .done
  | failed =>
      rw [past_past]
      exact @failed emitter (GenerateFailure.behind _ front) _

theorem of_eq {code written : List Instr} (same : code = written) :
    Emits emitter (.ok (code, frames)) (.ok () (emitter.past written frames)) := by
  rw [same]
  exact .done

/-- Goes on behind other code. -/
theorem andThen (emits : Emits (emitter.past front frames) generated
      (action (emitter.past front frames)))
    (later : ∀ code middle,
      Emits emitter (next code middle) (further () (emitter.past (front ++ code) middle))) :
    Emits emitter (generated.onward (·.behind front) next)
      ((action >>= further) (emitter.past front frames)) := by
  generalize made : action (emitter.past front frames) = outcome at emits
  cases emits with
  | done =>
      rw [bind_of_ok made, past_past]
      exact later _ _
  | failed =>
      rw [bind_of_error made, past_past]
      exact @failed emitter (GenerateFailure.behind _ front) _

/-- Goes on from the start. -/
theorem first (emits : Emits emitter generated (action emitter))
    (later : ∀ code middle,
      Emits emitter (next code middle) (further () (emitter.past code middle))) :
    Emits emitter (generated.onward id next) ((action >>= further) emitter) :=
  @andThen emitter generated next [] emitter.frames action further emits later

/-- A step that cannot fail. -/
theorem step {α : Type} {state middle : Emitter} {action : Action α} {further : α → Action Unit}
    {value : α} (stepped : action state = .ok value middle)
    (later : Emits emitter generated (further value middle)) :
    Emits emitter generated ((action >>= further) state) := by
  rw [bind_of_ok stepped]
  exact later

end Emits

/-- Wherever an emitter stands, it writes what is generated for an expression. -/
def WritesGenerated (expr : Expr) : Prop :=
  ∀ emitter : Emitter,
    Emits emitter (expr.generate (fun name => emitter.index[name]?) emitter.buffer.used
      emitter.frames) (emit expr emitter)

namespace WritesGenerated

variable {expr : Expr}

/-- What is written behind other code. -/
theorem behind (writes : WritesGenerated expr) {emitter : Emitter} {front : List Instr}
    {offset : Nat} (place : offset = emitter.buffer.used + Instr.sizeAll front)
    (frames : List Frame) :
    Emits (emitter.past front frames)
      (expr.generate (fun name => emitter.index[name]?) offset frames)
      (emit expr (emitter.past front frames)) := by
  have written := writes (emitter.past front frames)
  rw [used_past, ← place] at written
  exact written

end WritesGenerated

theorem encode_jump (target : Int32) :
    (Instr.jump target).encode = Opcode.jump.byte :: Instr.operand target :=
  rfl

theorem encode_jumpIf (target : Int32) :
    (Instr.jumpIf target).encode = Opcode.jumpIf.byte :: Instr.operand target :=
  rfl

theorem writesGenerated_ifThen (span : Span) {test consequent : Expr}
    (ihTest : WritesGenerated test) (ihConsequent : WritesGenerated consequent) :
    WritesGenerated (.ifThen span test consequent) := by
  intro emitter
  rw [emit, generate]
  refine .first (ihTest emitter) ?_
  intro testCode middle
  obtain ⟨thenAt, entry⟩ : ∃ thenAt, thenAt = thenOffset emitter.buffer.used testCode := ⟨_, rfl⟩
  have reached (target : Int32) : thenAt = emitter.buffer.used +
      Instr.sizeAll (testCode ++ [.jumpIf target, .push .nil] ++ [.jump openTarget]) := by
    rw [List.append_assoc, entry]
    exact (thenOffset_eq _ _ _ _).symm
  rw [thenOffset] at entry
  dsimp only
  rw [← entry]
  refine .step (openJump_past emitter _ _ .jumpIf) ?_
  refine .step (write_past emitter _ _ (.push .nil)) ?_
  refine .step (openJump_past emitter _ _ .jump) ?_
  refine .step (land_past emitter _ _ encode_jumpIf testCode [.push .nil, .jump openTarget]
    (testCode ++ [.jumpIf (word thenAt), .push .nil] ++ [.jump openTarget]) thenAt
    (by simp) rfl (by simpa using reached openTarget) (by simp)) ?_
  refine .andThen (ihConsequent.behind (reached _) _) ?_
  intro thenCode after
  rw [land_past emitter _ _ encode_jump (testCode ++ [.jumpIf (word thenAt), .push .nil]) thenCode
    _ (thenAt + Instr.sizeAll thenCode) (by simp) (by simp [Instr.size]) ?_ rfl]
  · exact .done
  · rw [Instr.sizeAll_append, ← Nat.add_assoc, ← reached]

theorem writesGenerated_ifElse (span : Span) {test consequent alternative : Expr}
    (ihTest : WritesGenerated test) (ihConsequent : WritesGenerated consequent)
    (ihAlternative : WritesGenerated alternative) :
    WritesGenerated (.ifElse span test consequent alternative) := by
  intro emitter
  rw [emit, generate]
  refine .first (ihTest emitter) ?_
  intro testCode first
  obtain ⟨elseAt, elseEntry⟩ :
    ∃ elseAt, elseAt = emitter.buffer.used + Instr.sizeAll testCode + jumpSize := ⟨_, rfl⟩
  have reached : elseAt =
      emitter.buffer.used + Instr.sizeAll (testCode ++ [.jumpIf openTarget]) := by
    rw [elseEntry, Instr.sizeAll_append, Nat.add_assoc]
    rfl
  dsimp only
  rw [← elseEntry]
  refine .step (openJump_past emitter _ _ .jumpIf) ?_
  refine .andThen (ihAlternative.behind reached _) ?_
  intro elseCode second
  obtain ⟨thenAt, thenEntry⟩ :
    ∃ thenAt, thenAt = elseAt + Instr.sizeAll elseCode + jumpSize := ⟨_, rfl⟩
  have landed (target : Int32) : thenAt = emitter.buffer.used +
      Instr.sizeAll (testCode ++ .jumpIf target :: elseCode ++ [.jump openTarget]) := by
    rw [thenEntry, elseEntry]
    simp [Instr.size, jumpSize]
    omega
  rw [← thenEntry]
  refine .step (openJump_past emitter _ _ .jump) ?_
  refine .step (land_past emitter _ _ encode_jumpIf testCode (elseCode ++ [.jump openTarget])
    (testCode ++ .jumpIf (word thenAt) :: elseCode ++ [.jump openTarget]) thenAt
    (by simp) rfl (by simpa using landed openTarget) (by simp)) ?_
  refine .andThen (ihConsequent.behind (landed _) _) ?_
  intro thenCode after
  rw [land_past emitter _ _ encode_jump (testCode ++ .jumpIf (word thenAt) :: elseCode) thenCode
    _ (thenAt + Instr.sizeAll thenCode) (by simp) (by simp [Instr.size]) ?_ rfl]
  · exact .done
  · rw [Instr.sizeAll_append, ← Nat.add_assoc, ← landed]

theorem writesGenerated_lambda (span : Span) (self : Option Name) (parameters : List Name)
    {body : Expr} (ih : WritesGenerated body) :
    WritesGenerated (.lambda span self parameters body) := by
  intro emitter
  rw [emit, generate, Frame.new?]
  by_cases distinct : parameters.Nodup
  · rw [if_pos distinct]
    dsimp only
    obtain ⟨entry, start⟩ : ∃ entry, entry = emitter.buffer.used + jumpSize := ⟨_, rfl⟩
    rw [← start]
    have reached : entry = emitter.buffer.used + Instr.sizeAll [.jump openTarget] := start
    have opened : enter ⟨parameters, self, []⟩ emitter =
      .ok () (emitter.past [] (⟨parameters, self, []⟩ :: emitter.frames)) := rfl
    have entered (frames : List Frame) : here (emitter.past [.jump openTarget] frames) =
      .ok entry (emitter.past [.jump openTarget] frames) := by
      rw [here, used_past, reached]
    refine .step opened ?_
    refine .step (openJump_past emitter _ _ .jump) ?_
    refine .step (entered _) ?_
    refine .andThen (ih.behind reached _) ?_
    intro bodyCode bodyFrames
    obtain ⟨stop, ended⟩ : ∃ stop, stop = entry + Instr.sizeAll bodyCode + 1 := ⟨_, rfl⟩
    rw [← ended]
    have left : leave (emitter.past (.jump (word stop) :: bodyCode ++ [.ret]) bodyFrames) =
        .ok (bodyFrames.headD ⟨parameters, self, []⟩).captures
          (emitter.past (.jump (word stop) :: bodyCode ++ [.ret]) bodyFrames.tail) := by
      cases bodyFrames <;> rfl
    refine .step (write_past emitter _ _ .ret) ?_
    refine .step (land_past emitter _ _ encode_jump [] (bodyCode ++ [.ret])
      (.jump (word stop) :: bodyCode ++ [.ret]) stop (by simp) rfl ?_ (by simp)) ?_
    · simp [Instr.size, ended, start, jumpSize]
      omega
    refine .step left ?_
    refine .step (writeAll_past emitter _ _ _) ?_
    rw [write_past]
    exact .of_eq (by simp)
  · rw [if_neg distinct]
    exact .failed

theorem writesGeneratedAll {exprs : List Expr} (each : ∀ expr ∈ exprs, WritesGenerated expr)
    (emitter : Emitter) :
    Emits emitter (generateAll (fun name => emitter.index[name]?) emitter.buffer.used
      emitter.frames exprs) (emitAll exprs emitter) := by
  induction exprs generalizing emitter with
  | nil => exact .done
  | cons expr rest ih =>
      obtain ⟨first, each⟩ := List.forall_mem_cons.mp each
      rw [emitAll, generateAll]
      refine .first (first emitter) ?_
      intro code middle
      have rested := (ih each (emitter.past code middle)).behind
      rw [used_past] at rested
      exact rested

theorem writesGenerated_call (span : Span) {callee : Expr} {arguments : List Expr}
    (ihCallee : WritesGenerated callee)
    (ihArguments : ∀ argument ∈ arguments, WritesGenerated argument) :
    WritesGenerated (.call span callee arguments) := by
  intro emitter
  rw [emit, generate]
  refine .first (writesGeneratedAll ihArguments emitter) ?_
  intro argumentCode middle
  refine .andThen (ihCallee.behind rfl _) ?_
  intro calleeCode after
  rw [write_past]
  exact .done

theorem writesGenerated_var (span : Span) (name : Name) : WritesGenerated (.var span name) := by
  intro emitter
  rw [emit, generate, load]
  cases Frame.resolve? name emitter.frames with
  | some found => exact .done
  | none =>
      cases emitter.index[name]? with
      | some slot => exact .done
      | none => exact @Emits.failed emitter (.immediate span.start (.undefined name)) emitter.frames

/-- An emitter writes what is generated. Where generating fails, it stops with the same error behind
the same code. -/
theorem writesGenerated (expr : Expr) : WritesGenerated expr := by
  induction expr using Expr.induction with
  | int span value => exact fun emitter => .done
  | bool span value => exact fun emitter => .done
  | var span name => exact writesGenerated_var span name
  | ifThen span test consequent ihTest ihConsequent =>
      exact writesGenerated_ifThen span ihTest ihConsequent
  | ifElse span test consequent alternative ihTest ihConsequent ihAlternative =>
      exact writesGenerated_ifElse span ihTest ihConsequent ihAlternative
  | define span name value _ =>
      exact fun emitter =>
        @Emits.failed emitter (.immediate span.start (.nestedDefine name)) emitter.frames
  | lambda span self parameters body ih => exact writesGenerated_lambda span self parameters ih
  | call span callee arguments ihCallee ihArguments =>
      exact writesGenerated_call span ihCallee ihArguments

/-! ## Batches -/

/-- An emitter with one more global name, which the index knows too. -/
def addGlobal (emitter : Emitter) (name : Name) : Emitter :=
  { emitter with
    globals := emitter.globals ++ [name]
    index := emitter.index.insert name emitter.globals.length }

/-- An emitter that knows the predefined names only. -/
def new : Emitter :=
  predefinedNames.foldl addGlobal ⟨CodeBuffer.empty, [], ∅, []⟩

/-- Adds a name to the globals. -/
def declare (name : Name) : Action Unit := fun emitter =>
  .ok () (emitter.addGlobal name)

/-- Stops at a name that is a global already. -/
def checkFresh (place : Position) (name : Name) : Action Unit := fun emitter =>
  match emitter.index[name]? with
  | some _ => .error ⟨place, .redefined name⟩ emitter
  | none => .ok () emitter

/-- Writes the code of a top-level expression. -/
def addForm : Expr → Action Unit
  | .define span name value => do
      checkFresh span.start name
      emit value
      declare name
      write .defGlobal
  | expr => do
      emit expr
      write .pop

/-- Writes the code of top-level expressions up to the first error. -/
def addForms : List Expr → Action Unit
  | [] => pure ()
  | expr :: rest => do
      addForm expr
      addForms rest

/-- The present point, as a compiler marks it. -/
def mark (emitter : Emitter) : Compiler.Mark :=
  ⟨emitter.buffer.used, emitter.globals.length⟩

/-- Sets an emitter back to a mark. The names behind it are taken out of the index one by one, and
no lambda is open any more. -/
def reset (emitter : Emitter) (mark : Compiler.Mark) : Bool × Emitter :=
  match emitter.buffer.truncate? mark.length with
  | none => (false, emitter)
  | some buffer =>
      if mark.globals ≤ emitter.globals.length then
        (true,
          { buffer := buffer
            globals := emitter.globals.take mark.globals
            index := emitter.index.forget (emitter.globals.drop mark.globals)
            frames := [] })
      else (false, { emitter with buffer := buffer })

/-- Compiles a batch; a batch that fails is undone. -/
def compile (emitter : Emitter) (exprs : List Expr) : Except SourceError Program × Emitter :=
  let mark := emitter.mark
  match addForms exprs emitter with
  | .error error emitter => (.error error, (emitter.reset mark).2)
  | .ok _ emitter => (.ok ⟨emitter.buffer.code, emitter.globals, mark.length⟩, emitter)

/-- An emitter as a compiler between two batches. -/
def compiler (emitter : Emitter) : Compiler :=
  ⟨emitter.buffer, emitter.globals⟩

variable {emitter : Emitter}

theorem slot?_compiler (lists : emitter.index.Lists emitter.globals) :
    (fun name => emitter.index[name]?) = emitter.compiler.slot? :=
  funext fun name => (lists.idxOf?_eq name).symm

/-- What an emitter writes at top level is what is generated. -/
theorem emit_cases (lists : emitter.index.Lists emitter.globals) (closed : emitter.frames = [])
    (expr : Expr) :
    (∃ instrs,
      expr.generate emitter.compiler.slot? emitter.compiler.buffer.used [] = .ok (instrs, []) ∧
      emit expr emitter = .ok () (emitter.past instrs [])) ∨
    ∃ failure frames,
      expr.generate emitter.compiler.slot? emitter.compiler.buffer.used [] = .error failure ∧
      emit expr emitter = .error failure.error (emitter.past failure.written frames) := by
  have written := writesGenerated expr emitter
  rw [slot?_compiler lists, closed] at written
  change Emits emitter (expr.generate _ emitter.compiler.buffer.used []) _ at written
  generalize generated : expr.generate _ _ _ = code at written
  generalize emitted : emit expr emitter = outcome at written
  cases written with
  | done =>
      have threaded : Frame.Threaded [] := True.intro
      obtain ⟨-, grown⟩ := Expr.keepsFrames _ expr threaded generated
      cases grown
      exact .inl ⟨_, rfl, rfl⟩
  | failed => exact .inr ⟨_, _, rfl, rfl⟩

/-- A compiler and an emitter have come to the same error or to none, and hold the same. -/
inductive AddAlike :
    Option SourceError × Compiler → EStateM.Result SourceError Emitter Unit → Prop where
  | done {later : Emitter} (lists : later.index.Lists later.globals) (closed : later.frames = []) :
      AddAlike (none, later.compiler) (.ok () later)
  | failed {error : SourceError} {later : Emitter} (lists : later.index.Lists later.globals) :
      AddAlike (some error, later.compiler) (.error error later)

theorem addForm_define (lists : emitter.index.Lists emitter.globals)
    (closed : emitter.frames = []) (span : Span) (name : Name) (value : Expr) :
    AddAlike (emitter.compiler.addForm (.define span name value))
      (addForm (.define span name value) emitter) := by
  have slot := congrFun (slot?_compiler lists) name
  rw [Compiler.addForm, addForm, ← slot]
  cases fresh : emitter.index[name]? with
  | some slot =>
      have stopped : checkFresh span.start name emitter =
          .error ⟨span.start, .redefined name⟩ emitter := by
        rw [checkFresh, fresh]
      rw [bind_of_error stopped]
      exact .failed lists
  | none =>
      have passed : checkFresh span.start name emitter = .ok () emitter := by
        rw [checkFresh, fresh]
      rw [bind_of_ok passed]
      rcases emit_cases lists closed value with
        ⟨instrs, generated, emitted⟩ | ⟨failure, frames, generated, emitted⟩
      · have added : (do declare name; write .defGlobal : Action Unit) (emitter.past instrs []) =
            .ok () ((emitter.past (instrs ++ [.defGlobal]) []).addGlobal name) := by
          rw [past, past, CodeBuffer.emitAll_append]
          rfl
        rw [bind_of_ok emitted, added, Compiler.addCode, generated]
        exact @AddAlike.done ((emitter.past (instrs ++ [.defGlobal]) []).addGlobal name)
          (lists.insert fresh) rfl
      · rw [bind_of_error emitted, Compiler.addCode, generated]
        exact @AddAlike.failed _ (emitter.past failure.written frames) lists

theorem addForm_alike (lists : emitter.index.Lists emitter.globals) (closed : emitter.frames = [])
    (form : Expr) : AddAlike (emitter.compiler.addForm form) (addForm form emitter) := by
  by_cases defines : ∃ span name value, form = .define span name value
  · obtain ⟨span, name, value, rfl⟩ := defines
    exact addForm_define lists closed span name value
  · have other : ∀ span name value, form ≠ .define span name value :=
      fun span name value equal => defines ⟨span, name, value, equal⟩
    have plain : addForm form = (do emit form; write .pop) := by
      cases form with
      | define span name value => exact absurd rfl (other span name value)
      | _ => rfl
    have alsoPlain : emitter.compiler.addForm form = emitter.compiler.addCode form .pop := by
      cases form with
      | define span name value => exact absurd rfl (other span name value)
      | _ => rfl
    rw [plain, alsoPlain, Compiler.addCode]
    rcases emit_cases lists closed form with
      ⟨instrs, generated, emitted⟩ | ⟨failure, frames, generated, emitted⟩
    · rw [bind_of_ok emitted, write_past, generated]
      exact @AddAlike.done (emitter.past (instrs ++ [.pop]) []) lists rfl
    · rw [bind_of_error emitted, generated]
      exact @AddAlike.failed _ (emitter.past failure.written frames) lists

theorem addForms_alike (lists : emitter.index.Lists emitter.globals) (closed : emitter.frames = [])
    (forms : List Expr) : AddAlike (emitter.compiler.addForms forms) (addForms forms emitter) := by
  induction forms generalizing emitter with
  | nil => exact .done lists closed
  | cons form rest ih =>
      have first := addForm_alike lists closed form
      rw [Compiler.addForms, addForms]
      generalize emitter.compiler.addForm form = added at first ⊢
      generalize emitted : addForm form emitter = outcome at first
      cases first with
      | done lists closed =>
          rw [bind_of_ok emitted]
          exact ih lists closed
      | failed lists =>
          rw [bind_of_error emitted]
          exact .failed lists

/-- An emitter is set back as a compiler is. -/
theorem reset_compiler (emitter : Emitter) (mark : Compiler.Mark) :
    (emitter.reset mark).1 = (emitter.compiler.reset mark).1 ∧
      (emitter.reset mark).2.compiler = (emitter.compiler.reset mark).2 := by
  rw [reset, Compiler.reset, compiler]
  cases emitter.buffer.truncate? mark.length with
  | none => exact ⟨rfl, rfl⟩
  | some buffer =>
      dsimp only
      split
      · exact ⟨rfl, rfl⟩
      · exact ⟨rfl, rfl⟩

theorem lists_reset (lists : emitter.index.Lists emitter.globals) (mark : Compiler.Mark) :
    (emitter.reset mark).2.index.Lists (emitter.reset mark).2.globals := by
  unfold reset
  split
  · exact lists
  · split
    · exact lists.take mark.globals
    · exact lists

/-- An emitter compiles a batch as a compiler does. What it leaves behind is indexed and has no
lambda open. -/
theorem compile_compiler (lists : emitter.index.Lists emitter.globals)
    (closed : emitter.frames = []) (forms : List Expr) :
    (emitter.compile forms).1 = (emitter.compiler.compile forms).1 ∧
      (emitter.compile forms).2.compiler = (emitter.compiler.compile forms).2 ∧
      (emitter.compile forms).2.index.Lists (emitter.compile forms).2.globals := by
  have added := addForms_alike lists closed forms
  rw [compile, Compiler.compile]
  generalize emitter.compiler.addForms forms = result at added ⊢
  generalize addForms forms emitter = outcome at added ⊢
  cases added with
  | done lists closed => exact ⟨rfl, rfl, lists⟩
  | @failed error later lists =>
      exact ⟨rfl, (reset_compiler later emitter.mark).2, lists_reset lists emitter.mark⟩

end Emitter

end ClosureLisp
