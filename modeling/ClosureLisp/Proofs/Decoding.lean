import ClosureLisp.Bytecode.Record
import ClosureLisp.Proofs.Placement

/-!
# The stream format

Writing instructions and decoding a stream undo each other. What is read at an offset is the one
instruction whose bytes stand there, so no instruction has a second form, and a stream that decodes
to its end is what writing the decoded instructions yields. Of any other stream the decoding lists
the longest run of instructions that can be read from its start.
-/

namespace ClosureLisp

/-- A word made of four bytes has these bytes. -/
theorem Bytes.word32_toWord32 (first second third fourth : UInt8) :
    word32 (toWord32 first second third fourth) = [first, second, third, fourth] := by
  have := first.toNat_lt
  have := second.toNat_lt
  have := third.toNat_lt
  have := fourth.toNat_lt
  -- Some word has these four bytes, and a word is what its bytes make up.
  obtain ⟨word, value⟩ : ∃ word : UInt32, word.toNat =
      first.toNat * 16777216 + second.toNat * 65536 + third.toNat * 256 + fourth.toNat :=
    ⟨.ofNat _, UInt32.toNat_ofNat_of_lt' (by change _ < 4294967296; omega)⟩
  have parts : word32 word = [first, second, third, fourth] := by
    simp only [word32, List.cons.injEq, ← UInt8.toNat_inj, UInt32.toNat_toUInt8,
      UInt32.toNat_shiftRight, UInt32.reduceToNat, Nat.reduceMod, Nat.shiftRight_eq_div_pow,
      value, and_true]
    omega
  have whole := toWord32_bytes word
  simp only [word32, List.cons.injEq] at parts
  obtain ⟨rfl, rfl, rfl, rfl, -⟩ := parts
  rw [whole]
  rfl

theorem Opcode.byte_of_ofByte? {byte : UInt8} {opcode : Opcode}
    (known : ofByte? byte = some opcode) : opcode.byte = byte := by
  unfold ofByte? at known
  split at known <;> cases known <;> rfl

namespace Code

variable {code : Code} {offset size : Nat} {instr : Instr}

/-! ## What is read stands in the stream -/

namespace Holds

theorem append {first second : Bytes} (front : code.Holds offset first)
    (back : code.Holds (offset + first.length) second) :
    code.Holds offset (first ++ second) := by
  obtain ⟨before, rest, split, rfl⟩ := front
  obtain ⟨through, behind, again, reached⟩ := back
  have lengths : (before ++ first).length = through.length := by
    rw [List.length_append, reached]
  rw [split, ← List.append_assoc] at again
  obtain ⟨rfl, rfl⟩ := List.append_inj again lengths
  exact ⟨before, behind, by rw [split, List.append_assoc], rfl⟩

theorem nil (inside : offset ≤ code.size) : code.Holds offset [] := by
  refine ⟨code.toList.take offset, code.toList.drop offset, ?_, ?_⟩
  · exact (List.take_append_drop offset _).symm
  · exact List.length_take_of_le (by rwa [Array.length_toList])

theorem single {byte : UInt8} (found : code[offset]? = some byte) :
    code.Holds offset [byte] := by
  rw [← Array.getElem?_toList] at found
  obtain ⟨inside, rfl⟩ := List.getElem?_eq_some_iff.mp found
  refine ⟨code.toList.take offset, code.toList.drop (offset + 1), ?_, ?_⟩
  · rw [List.singleton_append, List.getElem_cons_drop, List.take_append_drop]
  · exact List.length_take_of_le (Nat.le_of_lt inside)

theorem cons {byte : UInt8} {bytes : Bytes} (found : code[offset]? = some byte)
    (rest : code.Holds (offset + 1) bytes) : code.Holds offset (byte :: bytes) :=
  (single found).append rest

/-- A word that is read is written as the four bytes it was read from. -/
theorem word (inside : offset + 4 ≤ code.size) :
    code.Holds offset (Instr.operand (code.wordAt offset)) := by
  have found : ∀ index < code.size, code[index]? = some (code.byteAt index) := by
    intro index within
    rw [Code.byteAt, Array.getD_eq_getD_getElem?, Array.getElem?_eq_getElem within]
    rfl
  have bytes : Instr.operand (code.wordAt offset) = [code.byteAt offset, code.byteAt (offset + 1),
      code.byteAt (offset + 1 + 1), code.byteAt (offset + 1 + 1 + 1)] :=
    Bytes.word32_toWord32 _ _ _ _
  rw [bytes]
  exact cons (found _ (by omega)) (cons (found _ (by omega)) (cons (found _ (by omega))
    (single (found _ (by omega)))))

end Holds

theorem holds_of_constantAt {constant : Constant}
    (read : code.constantAt offset = .ok (constant, size)) :
    code.Holds offset constant.encode ∧ size = constant.size := by
  unfold constantAt at read
  split at read
  · cases read
  · next tag =>
      cases read
      exact ⟨.single tag, rfl⟩
  · next tag =>
      split at read
      · cases read
      · next enough =>
          cases read
          exact ⟨.cons tag (.word (by omega)), rfl⟩
  · next tag =>
      split at read
      · cases read
      · next payload =>
          cases read
          exact ⟨.cons tag (.single payload), rfl⟩
      · next payload =>
          cases read
          exact ⟨.cons tag (.single payload), rfl⟩
      · cases read
  · cases read

theorem holds_of_withOperands {opcode : Opcode} {words : Nat}
    (counted : opcode.operandWords? = some words) (inside : offset + 4 * words ≤ code.size) :
    (code.withOperands offset opcode).opcode = opcode ∧
      code.Holds offset (code.withOperands offset opcode).operands ∧
      1 + 4 * words = (code.withOperands offset opcode).size := by
  cases opcode with
  | push => cases counted
  | pop | defGlobal | ret =>
      cases counted
      exact ⟨rfl, .nil inside, rfl⟩
  | get | getGlobal | jump | jumpIf | call =>
      cases counted
      exact ⟨rfl, .word inside, rfl⟩
  | makeLambda =>
      cases counted
      have entry : code.Holds offset (Instr.operand (code.wordAt offset)) := .word (by omega)
      have arity : code.Holds (offset + 4) (Instr.operand (code.wordAt (offset + 4))) :=
        .word (by omega)
      have captures : code.Holds (offset + 8) (Instr.operand (code.wordAt (offset + 8))) :=
        .word (by omega)
      exact ⟨rfl, (entry.append arity).append captures, rfl⟩

/-- What is read as an instruction is written as the bytes it was read from. -/
theorem holds_of_instrAt (decoded : code.instrAt offset = .ok (instr, size)) :
    code.Holds offset instr.encode ∧ size = instr.size := by
  unfold instrAt at decoded
  split at decoded
  · cases decoded
  · next byte first =>
      split at decoded
      · cases decoded
      · next opcode known =>
          have same := Opcode.byte_of_ofByte? known
          subst same
          split at decoded
          · next inline =>
              obtain rfl : opcode = .push := by
                cases opcode with
                | push => rfl
                | _ => cases inline
              split at decoded
              · cases decoded
              · next constant length read =>
                  cases decoded
                  obtain ⟨held, rfl⟩ := holds_of_constantAt read
                  exact ⟨.cons first held, rfl⟩
          · next words counted =>
              split at decoded
              · cases decoded
              · next enough =>
                  cases decoded
                  obtain ⟨operation, held, total⟩ :=
                    holds_of_withOperands counted (Nat.not_lt.mp enough)
                  refine ⟨.cons ?_ held, total⟩
                  rw [operation]
                  exact first

theorem instrAt_stop_le (decoded : code.instrAt offset = .ok (instr, size)) :
    offset + size ≤ code.size := by
  obtain ⟨held, rfl⟩ := holds_of_instrAt decoded
  rw [← Instr.length_encode]
  exact held.stop_le

/-! ## Runs of instructions -/

/-- Instructions one behind the other from an offset on, with their places and sizes. -/
def locate : Nat → List Instr → List Located
  | _, [] => []
  | offset, instr :: rest => ⟨offset, instr.size, instr⟩ :: locate (offset + instr.size) rest

theorem map_instr_locate (offset : Nat) (instrs : List Instr) :
    (locate offset instrs).map Located.instr = instrs := by
  induction instrs generalizing offset with
  | nil => rfl
  | cons instr rest ih => rw [locate, List.map_cons, ih]

/-- One step of the linear decoding. -/
theorem decodeFrom_of_instrAt (decoded : code.instrAt offset = .ok (instr, size)) :
    code.decodeFrom offset =
      (⟨offset, size, instr⟩ :: (code.decodeFrom (offset + size)).1,
        (code.decodeFrom (offset + size)).2) := by
  rw [decodeFrom, if_pos (instrAt_offset_lt decoded)]
  split
  · next failed =>
      rw [decoded] at failed
      cases failed
  · next found =>
      rw [decoded] at found
      cases found
      rfl

/-- The linear decoding lists instructions that stand in the stream, and goes on behind them. -/
theorem decodeFrom_of_places {instrs : List Instr} (placed : code.Places offset instrs) :
    code.decodeFrom offset =
      (locate offset instrs ++ (code.decodeFrom (offset + Instr.sizeAll instrs)).1,
        (code.decodeFrom (offset + Instr.sizeAll instrs)).2) := by
  induction instrs generalizing offset with
  | nil => rfl
  | cons instr rest ih =>
      rw [decodeFrom_of_instrAt placed.instrAt, ih placed.tail, Instr.sizeAll_cons, Nat.add_assoc]
      rfl

/-- Instructions that are written are decoded, each at the sum of the sizes in front of it. -/
theorem decodeAll_encodeAll (instrs : List Instr) :
    decodeAll (Instr.encodeAll instrs).toArray = (locate 0 instrs, none) := by
  have placed : Code.Places (Instr.encodeAll instrs).toArray 0 instrs :=
    ⟨[], [], by simp, rfl⟩
  rw [decodeAll, decodeFrom_of_places placed, decodeFrom, if_neg, List.append_nil]
  rw [Nat.zero_add, List.size_toArray, Instr.length_encodeAll]
  exact Nat.lt_irrefl _

/-- Where a linear decoding stops: at the end of the stream, or where nothing can be read. -/
def StopsAt (code : Code) (offset : Nat) : Option DecodeError → Prop
  | none => offset = code.size
  | some error => offset < code.size ∧ code.instrAt offset = .error error

/-- The instructions that a linear decoding lists stand in the stream one behind the other, up to
where it stops. -/
theorem exists_of_decodeFrom (inside : offset ≤ code.size) :
    ∃ instrs, (code.decodeFrom offset).1 = locate offset instrs ∧ code.Places offset instrs ∧
      code.StopsAt (offset + Instr.sizeAll instrs) (code.decodeFrom offset).2 := by
  fun_induction decodeFrom code offset with
  | case1 offset within error failed =>
      exact ⟨[], rfl, .nil inside, within, failed⟩
  | case2 offset within instr size decoded rest ih =>
      obtain ⟨held, rfl⟩ := holds_of_instrAt decoded
      obtain ⟨instrs, listed, placed, stops⟩ := ih (instrAt_stop_le decoded)
      refine ⟨instr :: instrs, by rw [locate, ← listed], ?_, ?_⟩
      · rw [← Instr.length_encode] at placed
        exact held.append placed
      · rw [Instr.sizeAll_cons, ← Nat.add_assoc]
        exact stops
  | case3 offset outside =>
      exact ⟨[], rfl, .nil inside, Nat.le_antisymm inside (Nat.not_lt.mp outside)⟩

/-- Instructions that can be read one behind the other from an offset on. -/
inductive Reads (code : Code) : Nat → List Instr → Prop where
  | nil (offset : Nat) : Reads code offset []
  | cons {offset size : Nat} {instr : Instr} {rest : List Instr}
      (read : code.instrAt offset = .ok (instr, size))
      (behind : Reads code (offset + size) rest) : Reads code offset (instr :: rest)

theorem Reads.of_places {instrs : List Instr} (placed : code.Places offset instrs) :
    code.Reads offset instrs := by
  induction instrs generalizing offset with
  | nil => exact .nil offset
  | cons instr rest ih => exact .cons placed.instrAt (ih placed.tail)

/-- The linear decoding lists all that can be read one behind the other. -/
theorem Reads.isPrefix {instrs : List Instr} (reads : code.Reads offset instrs) :
    instrs <+: (code.decodeFrom offset).1.map Located.instr := by
  induction reads with
  | nil => exact List.nil_prefix
  | cons read _ ih =>
      rw [decodeFrom_of_instrAt read, List.map_cons]
      exact (List.prefix_cons_inj _).mpr ih

end Code

/-! ## Records -/

namespace InstrRecord

variable {record : InstrRecord} {opcode : Opcode}

/-- A record is an instruction with the given opcode: a push carries a constant and nothing else
carries a value, and the numbers that the opcode does not use are zero. -/
structure IsInstr (record : InstrRecord) (opcode : Opcode) : Prop where
  byte : record.opcode = opcode.byte
  value : if opcode = .push then ∃ constant : Constant, record.value = some constant.value
    else record.value = none
  index : opcode = .get ∨ opcode = .getGlobal ∨ record.index = 0
  target : opcode.isJump = true ∨ opcode = .makeLambda ∨ record.target = 0
  arity : opcode = .call ∨ opcode = .makeLambda ∨ record.arity = 0
  captures : opcode = .makeLambda ∨ record.captures = 0

/-- Such records are those of the instructions. -/
theorem IsInstr.exists_eq_ofInstr (proper : record.IsInstr opcode) :
    ∃ instr, record = ofInstr instr := by
  obtain ⟨byte, value, index, target, arity, captures⟩ := record
  obtain ⟨rfl, held, unindexed, untargeted, unapplied, uncaptured⟩ := proper
  cases opcode with
  | push =>
      obtain ⟨constant, rfl⟩ := held
      exact ⟨.push constant, by simp_all [ofInstr, Opcode.isJump]⟩
  | pop => exact ⟨.pop, by simp_all [ofInstr, Opcode.isJump]⟩
  | get => exact ⟨.get index, by simp_all [ofInstr, Opcode.isJump]⟩
  | defGlobal => exact ⟨.defGlobal, by simp_all [ofInstr, Opcode.isJump]⟩
  | getGlobal => exact ⟨.getGlobal index, by simp_all [ofInstr, Opcode.isJump]⟩
  | jump => exact ⟨.jump target, by simp_all [ofInstr, Opcode.isJump]⟩
  | jumpIf => exact ⟨.jumpIf target, by simp_all [ofInstr, Opcode.isJump]⟩
  | call => exact ⟨.call arity, by simp_all [ofInstr, Opcode.isJump]⟩
  | ret => exact ⟨.ret, by simp_all [ofInstr, Opcode.isJump]⟩
  | makeLambda => exact ⟨.makeLambda target arity captures, by simp_all [ofInstr, Opcode.isJump]⟩

theorem exists_eq_map_ofInstr {records : List InstrRecord}
    (proper : ∀ record ∈ records, ∃ opcode, record.IsInstr opcode) :
    ∃ instrs : List Instr, records = instrs.map ofInstr := by
  induction records with
  | nil => exact ⟨[], rfl⟩
  | cons record rest ih =>
      obtain ⟨⟨opcode, first⟩, others⟩ := List.forall_mem_cons.mp proper
      obtain ⟨instr, rfl⟩ := first.exists_eq_ofInstr
      obtain ⟨instrs, rfl⟩ := ih others
      exact ⟨instr :: instrs, rfl⟩

theorem encode_ofInstr (instr : Instr) : (ofInstr instr).encode = .ok instr.encode := by
  rw [encode, instr_ofInstr]
  rfl

theorem size_ofInstr (instr : Instr) : (ofInstr instr).size = .ok instr.size := by
  rw [size, instr_ofInstr]

/-- Bytes with records written behind them one after the other. -/
def appendAll (bytes : Bytes) : List InstrRecord → Except EncodeFault Bytes
  | [] => .ok bytes
  | record :: rest =>
      match record.encode with
      | .error fault => .error fault
      | .ok written => appendAll (bytes ++ written) rest

theorem appendAll_ofInstr (bytes : Bytes) (instrs : List Instr) :
    appendAll bytes (instrs.map ofInstr) = .ok (bytes ++ Instr.encodeAll instrs) := by
  induction instrs generalizing bytes with
  | nil => exact congrArg Except.ok (List.append_nil bytes).symm
  | cons instr rest ih =>
      rw [List.map_cons, appendAll, encode_ofInstr]
      dsimp only
      rw [ih, Instr.encodeAll_cons, List.append_assoc]

end InstrRecord

namespace Code

/-- The records of the instructions that the linear decoding of a stream lists. -/
def records (code : Code) : List InstrRecord :=
  (code.decodeAll.1.map Located.instr).map .ofInstr

/-- The records of a stream are written as its bytes, up to where its decoding stops. -/
theorem exists_appendAll_records (code : Code) :
    ∃ bytes, InstrRecord.appendAll [] code.records = .ok bytes ∧ bytes <+: code.toList ∧
      code.StopsAt bytes.length code.decodeAll.2 := by
  obtain ⟨instrs, listed, placed, stops⟩ := exists_of_decodeFrom (Nat.zero_le code.size)
  have written : code.records = instrs.map .ofInstr := by
    rw [records, decodeAll, listed, map_instr_locate]
  refine ⟨Instr.encodeAll instrs, ?_, ?_, ?_⟩
  · rw [written, InstrRecord.appendAll_ofInstr]
    rfl
  · obtain ⟨front, rest, split, empty⟩ := placed
    rw [List.length_eq_zero_iff.mp empty] at split
    exact ⟨rest, split.symm⟩
  · rw [Instr.length_encodeAll]
    rw [Nat.zero_add] at stops
    exact stops

/-- Writing and decoding are inverse to each other. Instructions that are written take the bytes
that their sizes say and are all that the stream decodes to, each at the sum of the sizes in front
of it. A stream that decodes to its end is what its instructions are written as. In any other
stream the decoding meets an error where nothing can be read; its instructions are written as the
bytes in front of that place, and nothing more can be read from the start of the stream. -/
theorem decodeAll_inverts_appendAll :
    (∀ records : List InstrRecord, (∀ record ∈ records, ∃ opcode, record.IsInstr opcode) →
      (∀ record ∈ records, ∃ written, record.encode = .ok written ∧
        record.size = .ok written.length) ∧
      ∃ bytes instrs, InstrRecord.appendAll [] records = .ok bytes ∧
        records = instrs.map .ofInstr ∧ decodeAll bytes.toArray = (locate 0 instrs, none)) ∧
    (∀ code : Code, code.decodeAll.2 = none →
      InstrRecord.appendAll [] code.records = .ok code.toList) ∧
    ∀ (code : Code) (error : DecodeError), code.decodeAll.2 = some error →
      (∃ bytes, InstrRecord.appendAll [] code.records = .ok bytes ∧ bytes <+: code.toList ∧
        bytes.length < code.size ∧ code.instrAt bytes.length = .error error) ∧
      code.Reads 0 (code.decodeAll.1.map Located.instr) ∧
      ∀ instrs, code.Reads 0 instrs → instrs <+: code.decodeAll.1.map Located.instr := by
  refine ⟨fun records proper => ?_, fun code whole => ?_, fun code error failed => ?_⟩
  · obtain ⟨instrs, rfl⟩ := InstrRecord.exists_eq_map_ofInstr proper
    refine ⟨?_, Instr.encodeAll instrs, instrs, ?_, rfl, decodeAll_encodeAll instrs⟩
    · intro record listed
      obtain ⟨instr, -, rfl⟩ := List.mem_map.mp listed
      refine ⟨instr.encode, InstrRecord.encode_ofInstr instr, ?_⟩
      rw [InstrRecord.size_ofInstr, Instr.length_encode]
    · rw [InstrRecord.appendAll_ofInstr]
      rfl
  · obtain ⟨bytes, written, leading, stops⟩ := exists_appendAll_records code
    rw [whole] at stops
    rw [written, leading.eq_of_length (stops.trans Array.length_toList.symm)]
  · refine ⟨?_, ?_, fun instrs reads => reads.isPrefix⟩
    · obtain ⟨bytes, written, leading, stops⟩ := exists_appendAll_records code
      rw [failed] at stops
      exact ⟨bytes, written, leading, stops⟩
    · obtain ⟨instrs, listed, placed, -⟩ := exists_of_decodeFrom (Nat.zero_le code.size)
      rw [decodeAll, listed, map_instr_locate]
      exact .of_places placed

/-- The record of a closure with three captures, entered at an open target, and that of a truth
value. -/
def openLambda : List InstrRecord :=
  [{ opcode := 9, target := -1, arity := 2, captures := 3 },
    { opcode := 0, value := some (.bool true) }]

/-- A return and behind it a truth value that is none. -/
def wrongBool : Code := #[8, 0, 2, 7]

theorem decodeAll_inverts_appendAll_openLambda :
    (∃ bytes instrs, InstrRecord.appendAll [] openLambda = .ok bytes ∧
      openLambda = instrs.map .ofInstr ∧ decodeAll bytes.toArray = (locate 0 instrs, none)) ∧
    wrongBool.decodeAll.2 = some ⟨3, .invalidBool 7⟩ ∧
    ∃ bytes, InstrRecord.appendAll [] wrongBool.records = .ok bytes ∧ bytes <+: wrongBool.toList ∧
      bytes.length < wrongBool.size ∧
      wrongBool.instrAt bytes.length = .error ⟨3, .invalidBool 7⟩ := by
  obtain ⟨reads, -, stops⟩ := decodeAll_inverts_appendAll
  have failed : wrongBool.decodeAll.2 = some ⟨3, .invalidBool 7⟩ := by decide +kernel
  refine ⟨(reads openLambda ?_).2, failed, (stops wrongBool _ failed).1⟩
  refine List.forall_mem_cons.mpr ⟨⟨.makeLambda, ?_⟩, List.forall_mem_singleton.mpr ⟨.push, ?_⟩⟩
  · exact ⟨rfl, rfl, .inr (.inr rfl), .inr (.inl rfl), .inr (.inl rfl), .inl rfl⟩
  · exact ⟨rfl, ⟨.bool true, rfl⟩, .inr (.inr rfl), .inr (.inr rfl), .inr (.inr rfl), .inr rfl⟩

end Code

end ClosureLisp
