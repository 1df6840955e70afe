import ClosureLisp.Proofs.Verification

/-!
# Drafts of code

Code is drafted in a buffer: instructions are appended, jumps are written open and patched later,
and what turns out not to be wanted is cut off. `Draft` is the list of instructions that this
amounts to, with the places that have been handed out and are still good. Patching and cutting work
on bytes, and `Draft.Represents` says that these are the bytes of the list. One operation keeps this
(`Draft.Represents.perform`), and so does a whole history of them: the stream is decoded to what the
same operations leave on the list (`Draft.performAll_decodeAll`).
-/

namespace ClosureLisp

/-- A jump with another target; any other instruction stays as it is. -/
def Instr.retarget (target : Int32) : Instr → Instr
  | .jump _ => .jump target
  | .jumpIf _ => .jumpIf target
  | other => other

/-- Instructions, the places of the targets of the jumps among them that were written open, and
the lengths that the list was known to have. -/
structure Draft where
  instrs : List Instr
  sites : List Nat
  lengths : List Nat

namespace Draft

/-- An operation on a code buffer. -/
inductive Operation where
  | emit (record : InstrRecord)
  | emitJump (opcode : UInt8)
  | length
  | patch (site : Nat) (target : Int)
  | truncate (length : Nat)

/-- What an operation yields. -/
inductive Answer where
  | placed (offset size : Nat)
  | site (place : Nat)
  | length (bytes : Nat)
  | done
  deriving DecidableEq

end Draft

namespace CodeBuffer

open Draft

/-- The outcome of an operation on a buffer; there is none if it fails. -/
def perform (buffer : CodeBuffer) : Operation → Option (Answer × CodeBuffer)
  | .emit record =>
      match buffer.emitRecord record with
      | (.ok instr, after) => some (.placed buffer.used instr.size, after)
      | (.error _, _) => none
  | .emitJump opcode =>
      match buffer.emitJump opcode with
      | (.ok site, after) => some (.site site, after)
      | (.error _, _) => none
  | .length => some (.length buffer.used, buffer)
  | .patch site target => (buffer.patch? site target).map (.done, ·)
  | .truncate length => (buffer.truncate? length).map (.done, ·)

/-- The outcome of operations one after the other; there is none if one fails. -/
def performAll (buffer : CodeBuffer) : List Operation → Option (List Answer × CodeBuffer)
  | [] => some ([], buffer)
  | operation :: rest =>
      match buffer.perform operation with
      | none => none
      | some (answer, middle) =>
          (middle.performAll rest).map fun (answers, last) => (answer :: answers, last)

end CodeBuffer

namespace Draft

open Code (Located locate locate_append map_instr_locate)

/-- A draft of nothing. -/
def start : Draft :=
  ⟨[], [], []⟩

/-- The number of bytes of the instructions. -/
def size (draft : Draft) : Nat :=
  Instr.sizeAll draft.instrs

/-- The instructions, the jump whose target stands at a place leading elsewhere. -/
def redirected (site : Nat) (target : Int32) (instrs : List Instr) : List Instr :=
  (locate 0 instrs).map fun located =>
    if located.offset + 1 = site then located.instr.retarget target else located.instr

/-- The instructions without those at or behind an offset. -/
def before (offset : Nat) (instrs : List Instr) : List Instr :=
  ((locate 0 instrs).filter fun located => located.offset < offset).map Located.instr

/-- An open jump with the given opcode. -/
def openJump? (opcode : UInt8) : Option Instr :=
  match Opcode.ofByte? opcode with
  | some .jump => some (.jump Expr.openTarget)
  | some .jumpIf => some (.jumpIf Expr.openTarget)
  | _ => none

/-- A draft after an operation. A target is cut to thirty-two bits. What is cut off takes with it
the places of its jumps and the lengths beyond the new one. -/
def apply (draft : Draft) : Operation → Draft
  | .emit record =>
      match record.instr with
      | .ok instr => ⟨draft.instrs ++ [instr], draft.sites, draft.size :: draft.lengths⟩
      | .error _ => draft
  | .emitJump opcode =>
      match openJump? opcode with
      | some jump => ⟨draft.instrs ++ [jump], (draft.size + 1) :: draft.sites, draft.lengths⟩
      | none => draft
  | .length => { draft with lengths := draft.size :: draft.lengths }
  | .patch site target =>
      { draft with instrs := redirected site (Int32.ofInt target) draft.instrs }
  | .truncate length =>
      ⟨before length draft.instrs, draft.sites.filter (· ≤ length),
        draft.lengths.filter (· ≤ length)⟩

/-- What an operation on a draft yields: an instruction is placed behind all that are there. -/
def answer (draft : Draft) : Operation → Answer
  | .emit record =>
      match record.instr with
      | .ok instr => .placed draft.size instr.size
      | .error _ => .done
  | .emitJump _ => .site (draft.size + 1)
  | .length => .length draft.size
  | .patch _ _ => .done
  | .truncate _ => .done

/-- The operations that a draft is ready for: records of instructions and jumps can be appended, a
jump that was written open and is still there can be patched, and what is there can be cut back to
a length that was handed out and has not been cut below since. -/
inductive Allows (draft : Draft) : Operation → Prop where
  | emit {record : InstrRecord} {instr : Instr} (encodable : record.instr = .ok instr) :
      Allows draft (.emit record)
  | emitJump {opcode : Opcode} (jumps : opcode.isJump = true) :
      Allows draft (.emitJump opcode.byte)
  | length : Allows draft .length
  | patch {site : Nat} (standing : site ∈ draft.sites) (target : Int) :
      Allows draft (.patch site target)
  | truncate {length : Nat} (known : length ∈ draft.lengths) : Allows draft (.truncate length)

/-- A draft is ready for operations one after the other. -/
def AllowsAll (draft : Draft) : List Operation → Prop
  | [] => True
  | operation :: rest => draft.Allows operation ∧ (draft.apply operation).AllowsAll rest

/-- A draft after operations. -/
def after (draft : Draft) (operations : List Operation) : Draft :=
  operations.foldl apply draft

/-- What operations on a draft yield, in order. -/
def answers (draft : Draft) : List Operation → List Answer
  | [] => []
  | operation :: rest => draft.answer operation :: (draft.apply operation).answers rest

/-! ## Places in a list of instructions -/

section Places

variable {front rest : List Instr} {jump : Instr} {site : Nat} {target : Int32}

/-- Instructions stand between the place where they begin and the one where they end. -/
theorem mem_locate_bounds {offset : Nat} {instrs : List Instr} {located : Located}
    (listed : located ∈ locate offset instrs) :
    offset ≤ located.offset ∧ located.offset < offset + Instr.sizeAll instrs := by
  induction instrs generalizing offset with
  | nil => exact absurd listed List.not_mem_nil
  | cons instr more ih =>
      rw [locate, List.mem_cons] at listed
      rw [Instr.sizeAll_cons]
      have positive := instr.size_pos
      rcases listed with rfl | behind
      · dsimp only
        omega
      · have bounds := ih behind
        omega

/-- Only the instruction in front of a place is redirected there. -/
theorem redirected_append (placed : Instr.sizeAll front + 1 = site) :
    redirected site target (front ++ jump :: rest) = front ++ jump.retarget target :: rest := by
  have apart (offset : Nat) (instrs : List Instr)
      (other : ∀ located ∈ locate offset instrs, located.offset + 1 ≠ site) :
      (locate offset instrs).map (fun located =>
        if located.offset + 1 = site then located.instr.retarget target else located.instr) =
        instrs :=
    (List.map_congr_left fun located listed => if_neg (other located listed)).trans
      (map_instr_locate offset instrs)
  rw [redirected, locate_append, List.map_append, locate, List.map_cons, Nat.zero_add,
    if_pos placed, apart 0 front, apart _ rest]
  · intro located listed
    have bounds := mem_locate_bounds listed
    have positive := jump.size_pos
    omega
  · intro located listed
    have bounds := mem_locate_bounds listed
    omega

/-- The instructions before the end of a front are that front. -/
theorem before_append (front rest : List Instr) :
    before (Instr.sizeAll front) (front ++ rest) = front := by
  have kept : (locate 0 front).filter (fun located => located.offset < Instr.sizeAll front) =
      locate 0 front := by
    refine List.filter_eq_self.mpr fun located listed => decide_eq_true ?_
    have bounds := mem_locate_bounds listed
    omega
  have dropped : (locate (0 + Instr.sizeAll front) rest).filter
      (fun located => located.offset < Instr.sizeAll front) = [] := by
    refine List.filter_eq_nil_iff.mpr fun located listed => ?_
    have bounds := mem_locate_bounds listed
    simp only [decide_eq_true_eq]
    omega
  rw [before, locate_append, List.filter_append, kept, dropped, List.append_nil,
    map_instr_locate]

/-- An instruction that is located splits the list where it stands. -/
theorem exists_append_of_mem_locate {offset : Nat} {instrs : List Instr} {located : Located}
    (listed : located ∈ locate offset instrs) :
    ∃ front rest, instrs = front ++ located.instr :: rest ∧
      located.offset = offset + Instr.sizeAll front := by
  induction instrs generalizing offset with
  | nil => exact absurd listed List.not_mem_nil
  | cons instr more ih =>
      rw [locate, List.mem_cons] at listed
      rcases listed with rfl | behind
      · exact ⟨[], more, rfl, rfl⟩
      · obtain ⟨front, rest, rfl, place⟩ := ih behind
        exact ⟨instr :: front, rest, rfl, by rw [place, Instr.sizeAll_cons, Nat.add_assoc]⟩

/-- Instructions that are replaced by others of the same sizes leave all places as they are. -/
theorem locate_map {change : Located → Instr} (offset : Nat) {instrs : List Instr}
    (sized : ∀ located ∈ locate offset instrs, (change located).size = located.instr.size) :
    locate offset ((locate offset instrs).map change) =
        (locate offset instrs).map (fun located => { located with instr := change located }) ∧
      Instr.sizeAll ((locate offset instrs).map change) = Instr.sizeAll instrs := by
  induction instrs generalizing offset with
  | nil => exact ⟨rfl, rfl⟩
  | cons instr more ih =>
      rw [locate] at sized
      obtain ⟨first, others⟩ := List.forall_mem_cons.mp sized
      obtain ⟨places, total⟩ := ih _ others
      rw [locate, List.map_cons, locate, first, places, Instr.sizeAll_cons, first, total]
      exact ⟨rfl, rfl⟩

end Places

/-! ## Places that are still good -/

/-- The target of a jump stands at a place. -/
def OpenAt (instrs : List Instr) (site : Nat) : Prop :=
  ∃ located ∈ locate 0 instrs, located.offset + 1 = site ∧ located.instr.opcode.isJump = true

/-- A length ends in front of an instruction or behind all of them. -/
def EndsAt (instrs : List Instr) (length : Nat) : Prop :=
  (∃ located ∈ locate 0 instrs, located.offset = length) ∨ length = Instr.sizeAll instrs

section Good

variable {instrs front rest : List Instr} {site other length : Nat}

theorem mem_locate_append {located : Located} :
    located ∈ locate 0 (front ++ rest) ↔
      located ∈ locate 0 front ∨ located ∈ locate (Instr.sizeAll front) rest := by
  rw [locate_append, Nat.zero_add, List.mem_append]

theorem OpenAt.append (good : OpenAt front site) (rest : List Instr) :
    OpenAt (front ++ rest) site := by
  obtain ⟨located, listed, place⟩ := good
  exact ⟨located, mem_locate_append.mpr (.inl listed), place⟩

theorem openAt_last (instrs : List Instr) {jump : Instr} (jumps : jump.opcode.isJump = true) :
    OpenAt (instrs ++ [jump]) (Instr.sizeAll instrs + 1) :=
  ⟨⟨_, _, jump⟩, mem_locate_append.mpr (.inr List.mem_cons_self), rfl, jumps⟩

theorem endsAt_front (front rest : List Instr) : EndsAt (front ++ rest) (Instr.sizeAll front) := by
  cases rest with
  | nil => exact .inr (by rw [List.append_nil])
  | cons instr rest => exact .inl ⟨_, mem_locate_append.mpr (.inr List.mem_cons_self), rfl⟩

theorem EndsAt.exists_append (good : EndsAt instrs length) :
    ∃ front rest, instrs = front ++ rest ∧ Instr.sizeAll front = length := by
  rcases good with ⟨located, listed, rfl⟩ | rfl
  · obtain ⟨front, rest, whole, place⟩ := exists_append_of_mem_locate listed
    exact ⟨front, _, whole, (place.trans (Nat.zero_add _)).symm⟩
  · exact ⟨instrs, [], (List.append_nil _).symm, rfl⟩

theorem EndsAt.append (good : EndsAt instrs length) (rest : List Instr) :
    EndsAt (instrs ++ rest) length := by
  obtain ⟨front, behind, rfl, rfl⟩ := good.exists_append
  rw [List.append_assoc]
  exact endsAt_front _ _

theorem opcode_retarget (instr : Instr) (target : Int32) :
    (instr.retarget target).opcode = instr.opcode := by
  cases instr <;> rfl

theorem size_retarget (instr : Instr) (target : Int32) :
    (instr.retarget target).size = instr.size := by
  cases instr <;> rfl

/-- Redirecting a jump moves nothing. -/
theorem locate_redirected (site : Nat) (target : Int32) (instrs : List Instr) :
    (∀ located ∈ locate 0 instrs, ∃ later ∈ locate 0 (redirected site target instrs),
      later.offset = located.offset ∧ later.instr.opcode = located.instr.opcode) ∧
      Instr.sizeAll (redirected site target instrs) = Instr.sizeAll instrs := by
  obtain ⟨places, total⟩ := @locate_map (fun located =>
    if located.offset + 1 = site then located.instr.retarget target else located.instr) 0 instrs
    fun located _ => by
      split
      · exact size_retarget _ _
      · rfl
  refine ⟨fun located listed => ?_, total⟩
  rw [redirected, places]
  refine ⟨_, List.mem_map_of_mem listed, rfl, ?_⟩
  dsimp only
  split
  · exact opcode_retarget _ _
  · rfl

/-- The bytes of a jump are its opcode and its target. -/
theorem exists_encode_of_isJump {jump : Instr} (jumps : jump.opcode.isJump = true) :
    ∃ old : Int32, jump.encode = jump.opcode.byte :: Instr.operand old ∧
      ∀ target, (jump.retarget target).encode = jump.opcode.byte :: Instr.operand target := by
  cases jump with
  | jump old => exact ⟨old, rfl, fun _ => rfl⟩
  | jumpIf old => exact ⟨old, rfl, fun _ => rfl⟩
  | _ => cases jumps

theorem OpenAt.redirected (good : OpenAt instrs other) (site : Nat) (target : Int32) :
    OpenAt (redirected site target instrs) other := by
  obtain ⟨located, listed, place, jumps⟩ := good
  obtain ⟨later, found, same, kind⟩ := (locate_redirected site target instrs).1 located listed
  exact ⟨later, found, by rw [same, place], by rw [kind, jumps]⟩

theorem EndsAt.redirected (good : EndsAt instrs length) (site : Nat) (target : Int32) :
    EndsAt (redirected site target instrs) length := by
  obtain ⟨kept, total⟩ := locate_redirected site target instrs
  rcases good with ⟨located, listed, place⟩ | whole
  · obtain ⟨later, found, same, -⟩ := kept located listed
    exact .inl ⟨later, found, same.trans place⟩
  · exact .inr (whole.trans total.symm)

theorem OpenAt.of_append (good : OpenAt (front ++ rest) site)
    (inside : site ≤ Instr.sizeAll front) : OpenAt front site := by
  obtain ⟨located, listed, place⟩ := good
  rcases mem_locate_append.mp listed with kept | cut
  · exact ⟨located, kept, place⟩
  · have bounds := mem_locate_bounds cut
    omega

theorem EndsAt.of_append (good : EndsAt (front ++ rest) length)
    (inside : length ≤ Instr.sizeAll front) : EndsAt front length := by
  rcases good with ⟨located, listed, place⟩ | whole
  · rcases mem_locate_append.mp listed with kept | cut
    · exact .inl ⟨located, kept, place⟩
    · have bounds := mem_locate_bounds cut
      exact .inr (by omega)
  · rw [Instr.sizeAll_append] at whole
    exact .inr (by omega)

end Good

/-! ## Histories -/

/-- A buffer holds the bytes of a draft, and every place that the draft takes for good is so. -/
structure Represents (buffer : CodeBuffer) (draft : Draft) : Prop where
  stream : buffer.code.toList = Instr.encodeAll draft.instrs
  sites : ∀ site ∈ draft.sites, OpenAt draft.instrs site
  lengths : ∀ length ∈ draft.lengths, EndsAt draft.instrs length

namespace Represents

variable {buffer : CodeBuffer} {draft : Draft}

theorem used_eq (represents : Represents buffer draft) : buffer.used = draft.size := by
  rw [← CodeBuffer.length_code, represents.stream, Instr.length_encodeAll, size]

/-- The stream is decoded to the instructions of the draft. -/
theorem decodeAll_eq (represents : Represents buffer draft) :
    buffer.code.decodeAll = (locate 0 draft.instrs, none) := by
  rw [← Code.decodeAll_encodeAll, ← represents.stream]

theorem stream_emit (represents : Represents buffer draft) (instr : Instr) :
    (buffer.emit instr).code.toList = Instr.encodeAll (draft.instrs ++ [instr]) := by
  have emitted := CodeBuffer.toList_code_emitAll buffer [instr]
  rw [represents.stream, ← Instr.encodeAll_append] at emitted
  exact emitted

theorem emit (represents : Represents buffer draft) {record : InstrRecord} {instr : Instr}
    (encodable : record.instr = .ok instr) :
    ∃ later, buffer.perform (.emit record) = some (draft.answer (.emit record), later) ∧
      Represents later (draft.apply (.emit record)) := by
  refine ⟨buffer.emit instr, ?_, ?_⟩
  · have emitted : buffer.emitRecord record = (.ok instr, buffer.emit instr) := by
      rw [CodeBuffer.emitRecord, encodable]
    rw [CodeBuffer.perform, emitted, answer, encodable, represents.used_eq]
  · rw [apply, encodable]
    refine ⟨represents.stream_emit instr, fun site listed => ?_, ?_⟩
    · exact (represents.sites site listed).append _
    · exact List.forall_mem_cons.mpr
        ⟨endsAt_front _ _, fun length listed => (represents.lengths length listed).append _⟩

theorem emitJump (represents : Represents buffer draft) {opcode : Opcode}
    (jumps : opcode.isJump = true) :
    ∃ later,
      buffer.perform (.emitJump opcode.byte) =
        some (draft.answer (.emitJump opcode.byte), later) ∧
      Represents later (draft.apply (.emitJump opcode.byte)) := by
  obtain ⟨jump, opened, emitted, kind⟩ : ∃ jump, openJump? opcode.byte = some jump ∧
      buffer.emitJump opcode.byte = (.ok (buffer.used + 1), buffer.emit jump) ∧
      jump.opcode.isJump = true := by
    unfold openJump? CodeBuffer.emitJump
    rw [Opcode.ofByte?_byte]
    cases opcode with
    | jump => exact ⟨_, rfl, rfl, rfl⟩
    | jumpIf => exact ⟨_, rfl, rfl, rfl⟩
    | _ => cases jumps
  refine ⟨buffer.emit jump, ?_, ?_⟩
  · rw [CodeBuffer.perform, emitted, answer, represents.used_eq]
  · rw [apply, opened]
    refine ⟨represents.stream_emit jump, ?_, fun length listed => ?_⟩
    · exact List.forall_mem_cons.mpr
        ⟨openAt_last _ kind, fun site listed => (represents.sites site listed).append _⟩
    · exact (represents.lengths length listed).append _

theorem length (represents : Represents buffer draft) :
    ∃ later, buffer.perform .length = some (draft.answer .length, later) ∧
      Represents later (draft.apply .length) := by
  refine ⟨buffer, ?_, represents.stream, represents.sites, ?_⟩
  · rw [CodeBuffer.perform, answer, represents.used_eq]
  · exact List.forall_mem_cons.mpr ⟨.inr rfl, represents.lengths⟩

/-- The four bytes of a target are those behind the opcode of its jump. -/
theorem patch (represents : Represents buffer draft) {site : Nat} (standing : site ∈ draft.sites)
    (target : Int) :
    ∃ later, buffer.perform (.patch site target) = some (draft.answer (.patch site target), later) ∧
      Represents later (draft.apply (.patch site target)) := by
  obtain ⟨⟨offset, bytes, jump⟩, listed, place, jumps⟩ := represents.sites site standing
  obtain ⟨front, rest, whole, start⟩ := exists_append_of_mem_locate listed
  have behind : Instr.sizeAll front + 1 = site := by
    rw [← place, start, Nat.zero_add]
  obtain ⟨old, shape, written⟩ := exists_encode_of_isJump jumps
  have stream : buffer.code.toList = (Instr.encodeAll front ++ [jump.opcode.byte]) ++
      (Instr.operand old ++ Instr.encodeAll rest) := by
    rw [represents.stream, whole, Instr.encodeAll_append, Instr.encodeAll_cons, shape]
    simp
  have leading : (Instr.encodeAll front ++ [jump.opcode.byte]).length = site := by
    rw [List.length_append, Instr.length_encodeAll, ← behind]
    rfl
  have words (number : Int32) : (Instr.operand number).length = 4 := rfl
  have inside : site + 4 ≤ buffer.used := by
    rw [← CodeBuffer.length_code, stream, List.length_append, leading, List.length_append, words]
    omega
  obtain ⟨patched, done, bytes⟩ := CodeBuffer.exists_patch? buffer inside target
  refine ⟨patched, ?_, ?_, fun other good => ?_, fun length good => ?_⟩
  · rw [CodeBuffer.perform, done, answer]
    rfl
  · have dropped : (Instr.encodeAll front ++ [jump.opcode.byte] ++ Instr.operand old).length =
        site + 4 := by
      rw [List.length_append, leading, words]
    rw [bytes, stream, List.take_left' leading, ← List.append_assoc _ (Instr.operand old),
      List.drop_left' dropped, apply]
    dsimp only
    rw [whole, redirected_append behind, Instr.encodeAll_append, Instr.encodeAll_cons, written]
    simp
  · exact (represents.sites other good).redirected _ _
  · exact (represents.lengths length good).redirected _ _

theorem truncate (represents : Represents buffer draft) {length : Nat}
    (known : length ∈ draft.lengths) :
    ∃ later, buffer.perform (.truncate length) = some (draft.answer (.truncate length), later) ∧
      Represents later (draft.apply (.truncate length)) := by
  obtain ⟨front, rest, whole, rfl⟩ := (represents.lengths length known).exists_append
  have inside : Instr.sizeAll front ≤ buffer.used := by
    rw [represents.used_eq, size, whole, Instr.sizeAll_append]
    exact Nat.le_add_right _ _
  obtain ⟨cut, done, -, bytes⟩ := CodeBuffer.truncate?_of_le buffer inside
  have kept : before (Instr.sizeAll front) draft.instrs = front := by
    rw [whole, before_append]
  refine ⟨cut, ?_, ?_, fun site good => ?_, fun length good => ?_⟩
  · rw [CodeBuffer.perform, done, answer]
    rfl
  · rw [bytes, represents.stream, apply, kept, whole, Instr.encodeAll_append]
    exact List.take_left' (Instr.length_encodeAll front)
  · obtain ⟨standing, below⟩ := List.mem_filter.mp good
    have placed := represents.sites site standing
    rw [whole] at placed
    rw [apply, kept]
    exact placed.of_append (of_decide_eq_true below)
  · obtain ⟨known, below⟩ := List.mem_filter.mp good
    have ended := represents.lengths length known
    rw [whole] at ended
    rw [apply, kept]
    exact ended.of_append (of_decide_eq_true below)

/-- An operation that a draft is ready for succeeds on the bytes, yields what it yields on the list
and leaves the bytes of the list that it leaves. -/
theorem perform (represents : Represents buffer draft) {operation : Operation}
    (allowed : draft.Allows operation) :
    ∃ later, buffer.perform operation = some (draft.answer operation, later) ∧
      Represents later (draft.apply operation) := by
  cases allowed with
  | emit encodable => exact represents.emit encodable
  | emitJump jumps => exact represents.emitJump jumps
  | length => exact represents.length
  | patch standing target => exact represents.patch standing target
  | truncate known => exact represents.truncate known

theorem performAll (represents : Represents buffer draft) {operations : List Operation}
    (allowed : draft.AllowsAll operations) :
    ∃ last, buffer.performAll operations = some (draft.answers operations, last) ∧
      Represents last (draft.after operations) := by
  induction operations generalizing buffer draft with
  | nil => exact ⟨buffer, rfl, represents⟩
  | cons operation rest ih =>
      obtain ⟨middle, performed, onward⟩ := represents.perform allowed.1
      obtain ⟨last, others, stays⟩ := ih onward allowed.2
      refine ⟨last, ?_, stays⟩
      rw [CodeBuffer.performAll, performed]
      dsimp only
      rw [others]
      rfl

end Represents

/-- Whatever has been appended, patched and cut off in a buffer, with only places and lengths that
are still good, nothing has failed. Every instruction was placed behind all those in front of it,
and the stream is decoded to its end, to the instructions that the same operations leave on a
list. -/
theorem performAll_decodeAll {operations : List Operation} (allowed : start.AllowsAll operations) :
    ∃ last, CodeBuffer.empty.performAll operations = some (start.answers operations, last) ∧
      last.code.decodeAll = (locate 0 (start.after operations).instrs, none) := by
  have empty : Represents CodeBuffer.empty start :=
    ⟨rfl, fun _ listed => absurd listed List.not_mem_nil,
      fun _ listed => absurd listed List.not_mem_nil⟩
  obtain ⟨last, performed, represents⟩ := empty.performAll allowed
  exact ⟨last, performed, represents.decodeAll_eq⟩

/-- Two jumps are written open. The second one is patched and then cut off with all behind it; the
first one is patched when something else stands there, with a target that is too large. -/
def reworked : List Operation :=
  [.emitJump 6, .emit { opcode := 0, value := some (.int 7) }, .length, .emitJump 5,
    .emit { opcode := 1 }, .patch 12 17, .truncate 11, .emit { opcode := 8 },
    .patch 1 4294967307]

theorem performAll_decodeAll_reworked :
    start.AllowsAll reworked ∧
      ∃ last, CodeBuffer.empty.performAll reworked =
          some ([.site 1, .placed 5 6, .length 11, .site 12, .placed 16 1, .done, .done,
            .placed 11 1, .done], last) ∧
        last.code.decodeAll =
          ([⟨0, 5, .jumpIf 11⟩, ⟨5, 6, .push (.int 7)⟩, ⟨11, 1, .ret⟩], none) := by
  have allowed : start.AllowsAll reworked :=
    ⟨@Allows.emitJump _ .jumpIf rfl, .emit rfl, .length, @Allows.emitJump _ .jump rfl,
      .emit rfl, .patch (by decide) 17, .truncate (by decide), .emit rfl, .patch (by decide) _,
      True.intro⟩
  exact ⟨allowed, performAll_decodeAll allowed⟩

end Draft

end ClosureLisp
