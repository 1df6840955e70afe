import ClosureLisp.Bytecode.Buffer

/-!
# Code in place

Where instructions stand in a stream. `Code.Holds` places bytes at an offset and
`Code.Places` a run of instructions. Decoding at the offset of a placed instruction yields
that instruction, what is decoded from a stream is decoded from every longer one, and a code
buffer places what is emitted behind what it held before.
-/

namespace ClosureLisp

/-- The four bytes of a word give the word back. -/
theorem Bytes.toWord32_bytes (word : UInt32) :
    toWord32 (word >>> 24).toUInt8 (word >>> 16).toUInt8 (word >>> 8).toUInt8 word.toUInt8 =
      word := by
  apply UInt32.toNat_inj.mp
  simp only [toWord32, UInt32.toNat_or, UInt32.toNat_shiftLeft, UInt8.toNat_toUInt32,
    UInt32.toNat_toUInt8, UInt32.toNat_shiftRight, UInt32.reduceToNat, Nat.reduceMod]
  apply Nat.eq_of_testBit_eq
  intro index
  have clear : 32 ≤ index → word.toNat.testBit index = false := fun above =>
    Nat.testBit_lt_two_pow
      (Nat.lt_of_lt_of_le word.toNat_lt (Nat.pow_le_pow_right (by decide) above))
  simp only [Nat.testBit_or, Nat.testBit_mod_two_pow, Nat.testBit_shiftLeft,
    Nat.testBit_shiftRight]
  -- The index lies in exactly one of the four bytes.
  rcases Nat.lt_or_ge index 8 with first | first
  · grind
  rcases Nat.lt_or_ge index 16 with second | second
  · have shifted : 8 + (index - 8) = index := by omega
    grind
  rcases Nat.lt_or_ge index 24 with third | third
  · have shifted : 16 + (index - 16) = index := by omega
    grind
  · have shifted : 24 + (index - 24) = index := by omega
    grind

namespace Instr

@[simp]
theorem sizeAll_nil : sizeAll [] = 0 := rfl

@[simp]
theorem sizeAll_cons (instr : Instr) (rest : List Instr) :
    sizeAll (instr :: rest) = instr.size + sizeAll rest := rfl

theorem sizeAll_singleton (instr : Instr) : sizeAll [instr] = instr.size := by
  rw [sizeAll_cons, sizeAll_nil, Nat.add_zero]

@[simp]
theorem sizeAll_append (first second : List Instr) :
    sizeAll (first ++ second) = sizeAll first + sizeAll second := by
  induction first with
  | nil => simp
  | cons instr rest ih => simp [ih, Nat.add_assoc]

@[simp]
theorem encodeAll_cons (instr : Instr) (rest : List Instr) :
    encodeAll (instr :: rest) = instr.encode ++ encodeAll rest := rfl

@[simp]
theorem encodeAll_append (first second : List Instr) :
    encodeAll (first ++ second) = encodeAll first ++ encodeAll second :=
  List.flatMap_append

theorem length_encodeAll (instrs : List Instr) : (encodeAll instrs).length = sizeAll instrs := by
  induction instrs with
  | nil => rfl
  | cons instr rest ih => rw [encodeAll_cons, List.length_append, length_encode, ih, sizeAll_cons]

end Instr

namespace Code

/-- The given bytes stand in a stream at an offset. -/
def Holds (code : Code) (offset : Nat) (bytes : Bytes) : Prop :=
  ∃ front rest : Bytes, code.toList = front ++ (bytes ++ rest) ∧ front.length = offset

/-- The given instructions stand in a stream at an offset. -/
def Places (code : Code) (offset : Nat) (instrs : List Instr) : Prop :=
  code.Holds offset (Instr.encodeAll instrs)

namespace Holds

theorem getElem? {code : Code} {offset : Nat} {bytes : Bytes}
    (held : code.Holds offset bytes) (index : Nat) (inside : index < bytes.length) :
    code[offset + index]? = bytes[index]? := by
  obtain ⟨front, rest, split, rfl⟩ := held
  rw [← Array.getElem?_toList, split, List.getElem?_append_right (Nat.le_add_right _ _),
    Nat.add_sub_cancel_left, List.getElem?_append_left inside]

theorem byteAt {code : Code} {offset : Nat} {bytes : Bytes}
    (held : code.Holds offset bytes) (index : Nat) {byte : UInt8}
    (found : bytes[index]? = some byte) : code.byteAt (offset + index) = byte := by
  have inside : index < bytes.length := (List.getElem?_eq_some_iff.mp found).1
  rw [Code.byteAt, Array.getD_eq_getD_getElem?, held.getElem? index inside, found]
  rfl

theorem stop_le {code : Code} {offset : Nat} {bytes : Bytes}
    (held : code.Holds offset bytes) : offset + bytes.length ≤ code.size := by
  obtain ⟨front, rest, split, rfl⟩ := held
  rw [← Array.length_toList, split, List.length_append, List.length_append]
  omega

theorem left {code : Code} {offset : Nat} {first second : Bytes}
    (held : code.Holds offset (first ++ second)) : code.Holds offset first := by
  obtain ⟨front, rest, split, start⟩ := held
  exact ⟨front, second ++ rest, by rw [split, List.append_assoc], start⟩

theorem right {code : Code} {offset : Nat} {first second : Bytes}
    (held : code.Holds offset (first ++ second)) :
    code.Holds (offset + first.length) second := by
  obtain ⟨front, rest, split, rfl⟩ := held
  refine ⟨front ++ first, rest, ?_, List.length_append⟩
  rw [split, List.append_assoc, List.append_assoc]

theorem tail {code : Code} {offset : Nat} {byte : UInt8} {bytes : Bytes}
    (held : code.Holds offset (byte :: bytes)) : code.Holds (offset + 1) bytes :=
  (show code.Holds offset ([byte] ++ bytes) from held).right

/-- What stands in a stream also stands in every longer one. -/
theorem extend {code longer : Code} {offset : Nat} {bytes : Bytes}
    (held : code.Holds offset bytes) (extended : code.toList <+: longer.toList) :
    longer.Holds offset bytes := by
  obtain ⟨front, rest, split, start⟩ := held
  obtain ⟨behind, grown⟩ := extended
  exact ⟨front, rest ++ behind, by rw [← grown, split]; simp only [List.append_assoc], start⟩

theorem wordAt {code : Code} {offset : Nat} {number : Int32}
    (held : code.Holds offset (Instr.operand number)) : code.wordAt offset = number := by
  have first : code.byteAt offset = _ := held.byteAt 0 rfl
  rw [Code.wordAt, first, held.byteAt 1 rfl, held.byteAt 2 rfl,
    held.byteAt 3 rfl, Bytes.toWord32_bytes]
  rfl

theorem constantAt {code : Code} {offset : Nat} {constant : Constant}
    (held : code.Holds offset constant.encode) :
    code.constantAt offset = .ok (constant, constant.size) := by
  have bound := held.stop_le
  rw [Constant.length_encode] at bound
  cases constant with
  | nil =>
      have tag : code[offset]? = some 0 := held.getElem? 0 (by decide)
      simp [Code.constantAt, tag, Constant.size]
  | int number =>
      have tag : code[offset]? = some 1 := held.getElem? 0 (by simp [Constant.encode])
      have payload : code.wordAt (offset + 1) = number := wordAt held.tail
      have fits : ¬ code.size < offset + 5 := Nat.not_lt.mpr bound
      simp [Code.constantAt, tag, fits, payload, Constant.size]
  | bool flag =>
      cases flag with
      | false =>
          have tag : code[offset]? = some 2 := held.getElem? 0 (by decide)
          have payload : code[offset + 1]? = some 0 := held.getElem? 1 (by decide)
          simp [Code.constantAt, tag, payload, Constant.size]
      | true =>
          have tag : code[offset]? = some 2 := held.getElem? 0 (by decide)
          have payload : code[offset + 1]? = some 1 := held.getElem? 1 (by decide)
          simp [Code.constantAt, tag, payload, Constant.size]

/-- Decoding where an instruction stands yields that instruction. -/
theorem instrAt {code : Code} {offset : Nat} {instr : Instr}
    (held : code.Holds offset instr.encode) :
    code.instrAt offset = .ok (instr, instr.size) := by
  have bound := held.stop_le
  rw [Instr.length_encode] at bound
  have opcode : code[offset]? = some instr.opcode.byte :=
    held.getElem? 0 (Nat.succ_pos _)
  have operands : code.Holds (offset + 1) instr.operands := held.tail
  rw [Code.instrAt, opcode]
  simp only [Opcode.ofByte?_byte]
  cases instr with
  | push constant =>
      have payload : code.constantAt (offset + 1) = .ok (constant, constant.size) :=
        constantAt operands
      simp [Instr.opcode, Opcode.operandWords?, payload, Instr.size]
  | makeLambda entry arity captures =>
      have fits : ¬ code.size < offset + 1 + 4 * 3 := Nat.not_lt.mpr bound
      have first : code.wordAt (offset + 1) = entry := wordAt operands.left.left
      have second : code.wordAt (offset + 1 + 4) = arity := wordAt operands.left.right
      have third : code.wordAt (offset + 1 + 8) = captures := wordAt operands.right
      simp [Instr.opcode, Opcode.operandWords?, fits, withOperands, first, second, third,
        Instr.size]
  | get slot | getGlobal slot =>
      have fits : ¬ code.size < offset + 1 + 4 * 1 := Nat.not_lt.mpr bound
      have word : code.wordAt (offset + 1) = slot := wordAt operands
      simp [Instr.opcode, Opcode.operandWords?, fits, withOperands, word, Instr.size]
  | jump target | jumpIf target =>
      have fits : ¬ code.size < offset + 1 + 4 * 1 := Nat.not_lt.mpr bound
      have word : code.wordAt (offset + 1) = target := wordAt operands
      simp [Instr.opcode, Opcode.operandWords?, fits, withOperands, word, Instr.size]
  | call count =>
      have fits : ¬ code.size < offset + 1 + 4 * 1 := Nat.not_lt.mpr bound
      have word : code.wordAt (offset + 1) = count := wordAt operands
      simp [Instr.opcode, Opcode.operandWords?, fits, withOperands, word, Instr.size]
  | pop | defGlobal | ret =>
      have fits : ¬ code.size < offset + 1 := Nat.not_lt.mpr bound
      simp [Instr.opcode, Opcode.operandWords?, fits, withOperands, Instr.size]

end Holds

namespace Places

theorem left {code : Code} {offset : Nat} {first second : List Instr}
    (placed : code.Places offset (first ++ second)) : code.Places offset first := by
  rw [Places, Instr.encodeAll_append] at placed
  exact Holds.left placed

theorem right {code : Code} {offset : Nat} {first second : List Instr}
    (placed : code.Places offset (first ++ second)) :
    code.Places (offset + Instr.sizeAll first) second := by
  rw [Places, Instr.encodeAll_append] at placed
  rw [← Instr.length_encodeAll]
  exact Holds.right placed

theorem tail {code : Code} {offset : Nat} {instr : Instr} {rest : List Instr}
    (placed : code.Places offset (instr :: rest)) : code.Places (offset + instr.size) rest :=
  (show code.Places offset ([instr] ++ rest) from placed).right

theorem stop_le {code : Code} {offset : Nat} {instrs : List Instr}
    (placed : code.Places offset instrs) : offset + Instr.sizeAll instrs ≤ code.size := by
  rw [← Instr.length_encodeAll]
  exact Holds.stop_le placed

theorem instrAt {code : Code} {offset : Nat} {instr : Instr} {rest : List Instr}
    (placed : code.Places offset (instr :: rest)) :
    code.instrAt offset = .ok (instr, instr.size) :=
  Holds.instrAt (Holds.left placed)

theorem extend {code longer : Code} {offset : Nat} {instrs : List Instr}
    (placed : code.Places offset instrs) (extended : code.toList <+: longer.toList) :
    longer.Places offset instrs :=
  Holds.extend placed extended

end Places

/-! ## Longer streams -/

section Longer

variable {short long : Code} {offset : Nat}

theorem getElem?_of_isPrefix (extended : short.toList <+: long.toList) {byte : UInt8}
    (found : short[offset]? = some byte) : long[offset]? = some byte := by
  obtain ⟨more, whole⟩ := extended
  rw [← Array.getElem?_toList] at found ⊢
  rw [← whole, List.getElem?_append_left (List.getElem?_eq_some_iff.mp found).1]
  exact found

theorem wordAt_of_isPrefix (extended : short.toList <+: long.toList)
    (inside : offset + 4 ≤ short.size) : long.wordAt offset = short.wordAt offset := by
  have byte : ∀ index < short.size, long.byteAt index = short.byteAt index := by
    intro index within
    have found := getElem?_of_isPrefix extended (Array.getElem?_eq_getElem within)
    simp [byteAt, Array.getD_eq_getD_getElem?, found, within]
  unfold wordAt
  rw [byte offset (by omega), byte (offset + 1) (by omega), byte (offset + 2) (by omega),
    byte (offset + 3) (by omega)]

theorem constantAt_of_isPrefix (extended : short.toList <+: long.toList) {found : Constant × Nat}
    (read : short.constantAt offset = .ok found) : long.constantAt offset = .ok found := by
  have sizes : short.size ≤ long.size := by
    rw [← Array.length_toList, ← Array.length_toList]
    exact extended.length_le
  unfold constantAt at read ⊢
  split at read
  · cases read
  · next tag =>
      rw [getElem?_of_isPrefix extended tag]
      exact read
  · next tag =>
      rw [getElem?_of_isPrefix extended tag]
      split at read
      · cases read
      · next enough =>
          simp only [if_neg (show ¬ long.size < offset + 5 by omega),
            wordAt_of_isPrefix extended (show offset + 1 + 4 ≤ short.size by omega)]
          exact read
  · next tag =>
      rw [getElem?_of_isPrefix extended tag]
      split at read
      · cases read
      · next payload =>
          simp only [getElem?_of_isPrefix extended payload]
          exact read
      · next payload =>
          simp only [getElem?_of_isPrefix extended payload]
          exact read
      · cases read
  · cases read

theorem withOperands_of_isPrefix (extended : short.toList <+: long.toList) {opcode : Opcode}
    {words : Nat} (counted : opcode.operandWords? = some words)
    (inside : offset + 4 * words ≤ short.size) :
    long.withOperands offset opcode = short.withOperands offset opcode := by
  cases opcode with
  | push => cases counted
  | pop | defGlobal | ret => rfl
  | get | getGlobal | jump | jumpIf | call =>
      cases counted
      have word := wordAt_of_isPrefix extended inside
      rw [withOperands, withOperands, word]
  | makeLambda =>
      cases counted
      have entry : long.wordAt offset = short.wordAt offset :=
        wordAt_of_isPrefix extended (by omega)
      have arity : long.wordAt (offset + 4) = short.wordAt (offset + 4) :=
        wordAt_of_isPrefix extended (by omega)
      have captures : long.wordAt (offset + 8) = short.wordAt (offset + 8) :=
        wordAt_of_isPrefix extended (by omega)
      rw [withOperands, withOperands, entry, arity, captures]

/-- What is decoded from a stream is decoded from every longer one. -/
theorem instrAt_of_isPrefix (extended : short.toList <+: long.toList) {found : Instr × Nat}
    (decoded : short.instrAt offset = .ok found) : long.instrAt offset = .ok found := by
  have sizes : short.size ≤ long.size := by
    rw [← Array.length_toList, ← Array.length_toList]
    exact extended.length_le
  unfold instrAt at decoded ⊢
  split at decoded
  · cases decoded
  · next byte first =>
      rw [getElem?_of_isPrefix extended first]
      dsimp only
      split at decoded
      · cases decoded
      · next opcode known =>
          split at decoded
          · split at decoded
            · cases decoded
            · next read =>
                simp only [constantAt_of_isPrefix extended read]
                exact decoded
          · next words counted =>
              split at decoded
              · cases decoded
              · next enough =>
                  rw [← withOperands_of_isPrefix extended counted (by omega)] at decoded
                  rw [if_neg (by omega)]
                  exact decoded

end Longer

end Code

namespace CodeBuffer

theorem toList_overwrite (block : Array UInt8) (offset : Nat) (bytes : Bytes)
    (fits : offset + bytes.length ≤ block.size) :
    (overwrite block offset bytes).toList =
      block.toList.take offset ++ (bytes ++ block.toList.drop (offset + bytes.length)) := by
  induction bytes generalizing block offset with
  | nil => simp [overwrite]
  | cons byte rest ih =>
      simp only [List.length_cons] at fits
      have inside : offset < block.toList.length := by
        rw [Array.length_toList]
        omega
      have front : (block.toList.take offset).length = offset :=
        List.length_take_of_le (Nat.le_of_lt inside)
      rw [overwrite, ih _ _ (by rw [Array.size_setIfInBounds]; omega), Array.toList_setIfInBounds,
        List.take_set, List.drop_set_of_lt (by omega), List.take_succ_eq_append_getElem inside,
        List.set_append_right _ _ (Nat.le_of_eq front), front, Nat.sub_self]
      simp [Nat.add_assoc, Nat.add_comm 1]

/-- What is appended stands behind the stream as it was. -/
theorem toList_code_append (buffer : CodeBuffer) (bytes : Bytes) :
    (buffer.append bytes).code.toList = buffer.code.toList ++ bytes := by
  have front : (buffer.block.toList.take buffer.used).length = buffer.used :=
    List.length_take_of_le (by rw [Array.length_toList]; exact buffer.used_le)
  have length : (buffer.block.toList.take buffer.used ++ bytes).length =
      buffer.used + bytes.length := by rw [List.length_append, front]
  by_cases fits : buffer.used + bytes.length ≤ buffer.block.size
  · simp only [append, dif_pos fits, code, Array.toList_extract, List.extract_eq_take_drop,
      Nat.sub_zero, List.drop_zero]
    rw [toList_overwrite _ _ _ fits, ← List.append_assoc]
    exact List.take_left' length
  · simp only [append, dif_neg fits, code, Array.toList_extract, List.extract_eq_take_drop,
      Nat.sub_zero, List.drop_zero, Array.toList_append]
    exact List.take_left' length

theorem toList_code_emitAll (buffer : CodeBuffer) (instrs : List Instr) :
    (buffer.emitAll instrs).code.toList = buffer.code.toList ++ Instr.encodeAll instrs := by
  induction instrs generalizing buffer with
  | nil => simp [emitAll, Instr.encodeAll]
  | cons instr rest ih =>
      have emitted := toList_code_append buffer instr.encode
      have rested := ih (buffer.emit instr)
      rw [emit, emitted] at rested
      rw [Instr.encodeAll_cons, ← List.append_assoc]
      exact rested

theorem length_code (buffer : CodeBuffer) : buffer.code.toList.length = buffer.used := by
  rw [Array.length_toList, size_code]

theorem used_emitAll (buffer : CodeBuffer) (instrs : List Instr) :
    (buffer.emitAll instrs).used = buffer.used + Instr.sizeAll instrs := by
  rw [← length_code, toList_code_emitAll, List.length_append, length_code,
    Instr.length_encodeAll]

/-- The end of a stream can be moved back to any place inside it. -/
theorem truncate?_of_le (buffer : CodeBuffer) {length : Nat} (inside : length ≤ buffer.used) :
    ∃ cut, buffer.truncate? length = some cut ∧ cut.used = length ∧
      cut.code.toList = buffer.code.toList.take length := by
  have bound := buffer.used_le
  have fits : (0 : Int) ≤ length ∧ (length : Int) ≤ buffer.block.size := by omega
  refine ⟨⟨buffer.block, (length : Int).toNat, by omega⟩, dif_pos fits, Int.toNat_natCast _, ?_⟩
  simp only [code, Array.toList_extract, List.extract_eq_take_drop, Nat.sub_zero,
    List.drop_zero, Int.toNat_natCast, List.take_take, Nat.min_eq_left inside]

end CodeBuffer

end ClosureLisp
