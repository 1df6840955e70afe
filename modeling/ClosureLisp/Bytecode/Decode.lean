import ClosureLisp.Bytecode.Instr

/-!
# Decoding instruction streams

Reading one constant or one instruction at an offset of a code stream, and the linear
decoding of a whole stream from its first byte. A stream that does not decode to its
end yields the instructions in front of the malformed place together with the error.
-/

namespace ClosureLisp

/-- A stream of encoded instructions. -/
abbrev Code := Array UInt8

/-- Why bytes are no instruction. -/
inductive DecodeFault where
  | tagOutOfRange
  | truncatedInt
  | truncatedBool
  | invalidBool (byte : UInt8)
  | unknownTag (byte : UInt8)
  | offsetOutOfRange
  | unknownOpcode (byte : UInt8)
  | truncatedOperands (opcode : Opcode)
  deriving DecidableEq, Repr

namespace DecodeFault

/-- The wording of a decode fault. -/
def detail : DecodeFault → Bytes
  | .tagOutOfRange => utf8 "value tag out of range"
  | .truncatedInt => utf8 "truncated int payload"
  | .truncatedBool => utf8 "truncated bool payload"
  | .invalidBool byte => utf8 "invalid bool byte 0x" ++ Bytes.upperHexByte byte
  | .unknownTag byte => utf8 "unknown value tag 0x" ++ Bytes.upperHexByte byte
  | .offsetOutOfRange => utf8 "instruction offset out of range"
  | .unknownOpcode byte => utf8 "unknown opcode 0x" ++ Bytes.upperHexByte byte
  | .truncatedOperands opcode => utf8 "truncated " ++ opcode.name ++ utf8 " operands"

end DecodeFault

/-- A decode fault and the offset where it was met. -/
structure DecodeError where
  offset : Int
  fault : DecodeFault
  deriving DecidableEq, Repr

/-- The full wording of a decode error. -/
def DecodeError.message (error : DecodeError) : Bytes :=
  utf8 "malformed bytecode at offset " ++ Bytes.decimal error.offset ++ utf8 ": " ++
    error.fault.detail

namespace Code

/-- The byte at an offset, zero behind the end. -/
def byteAt (code : Code) (offset : Nat) : UInt8 :=
  code.getD offset 0

/-- The big-endian word at an offset. -/
def wordAt (code : Code) (offset : Nat) : Int32 :=
  (Bytes.toWord32 (code.byteAt offset) (code.byteAt (offset + 1)) (code.byteAt (offset + 2))
    (code.byteAt (offset + 3))).toInt32

/-- Reads the constant at an offset and the number of bytes it takes. -/
def constantAt (code : Code) (offset : Nat) : Except DecodeError (Constant × Nat) :=
  match code[offset]? with
  | none => .error ⟨offset, .tagOutOfRange⟩
  | some 0 => .ok (.nil, 1)
  | some 1 =>
      if code.size < offset + 5 then .error ⟨offset, .truncatedInt⟩
      else .ok (.int (code.wordAt (offset + 1)), 5)
  | some 2 =>
      match code[offset + 1]? with
      | none => .error ⟨offset, .truncatedBool⟩
      | some 0 => .ok (.bool false, 2)
      | some 1 => .ok (.bool true, 2)
      | some byte => .error ⟨offset + 1, .invalidBool byte⟩
  | some byte => .error ⟨offset, .unknownTag byte⟩

/-- The instruction with the given opcode whose operand words start at an offset. -/
def withOperands (code : Code) (offset : Nat) : Opcode → Instr
  | .push => .push .nil
  | .pop => .pop
  | .get => .get (code.wordAt offset)
  | .defGlobal => .defGlobal
  | .getGlobal => .getGlobal (code.wordAt offset)
  | .jump => .jump (code.wordAt offset)
  | .jumpIf => .jumpIf (code.wordAt offset)
  | .call => .call (code.wordAt offset)
  | .ret => .ret
  | .makeLambda =>
      .makeLambda (code.wordAt offset) (code.wordAt (offset + 4)) (code.wordAt (offset + 8))

/-- Reads the instruction at an offset and the number of bytes it takes. -/
def instrAt (code : Code) (offset : Nat) : Except DecodeError (Instr × Nat) :=
  match code[offset]? with
  | none => .error ⟨offset, .offsetOutOfRange⟩
  | some byte =>
      match Opcode.ofByte? byte with
      | none => .error ⟨offset, .unknownOpcode byte⟩
      | some opcode =>
          match opcode.operandWords? with
          | none =>
              match code.constantAt (offset + 1) with
              | .error error => .error error
              | .ok (constant, size) => .ok (.push constant, 1 + size)
          | some words =>
              if code.size < offset + 1 + 4 * words then
                .error ⟨offset, .truncatedOperands opcode⟩
              else .ok (code.withOperands (offset + 1) opcode, 1 + 4 * words)

theorem instrAt_size_pos {code : Code} {offset size : Nat} {instr : Instr}
    (decoded : code.instrAt offset = .ok (instr, size)) : 0 < size := by
  unfold instrAt at decoded
  repeat' split at decoded
  all_goals cases decoded
  all_goals omega

theorem instrAt_offset_lt {code : Code} {offset size : Nat} {instr : Instr}
    (decoded : code.instrAt offset = .ok (instr, size)) : offset < code.size := by
  unfold instrAt at decoded
  split at decoded
  · cases decoded
  · next found => exact (Array.getElem?_eq_some_iff.mp found).1

/-- An instruction and where it stands in its stream. -/
structure Located where
  offset : Nat
  size : Nat
  instr : Instr
  deriving DecidableEq, Repr

/-- The instructions from an offset on, up to the end or the first malformed place. -/
def decodeFrom (code : Code) (offset : Nat) : List Located × Option DecodeError :=
  if offset < code.size then
    match _decoded : code.instrAt offset with
    | .error error => ([], some error)
    | .ok (instr, size) =>
        let rest := code.decodeFrom (offset + size)
        (⟨offset, size, instr⟩ :: rest.1, rest.2)
  else ([], none)
termination_by code.size - offset
decreasing_by
  have positive := instrAt_size_pos _decoded
  omega

/-- The linear decoding of a stream. -/
def decodeAll (code : Code) : List Located × Option DecodeError :=
  code.decodeFrom 0

/-- Reads the constant at an offset that may lie outside the stream on either side. -/
def constantAtInt (code : Code) (offset : Int) : Except DecodeError (Constant × Nat) :=
  match offset with
  | .ofNat offset => code.constantAt offset
  | .negSucc _ => .error ⟨offset, .tagOutOfRange⟩

/-- Reads the instruction at an offset that may lie outside the stream on either side. -/
def instrAtInt (code : Code) (offset : Int) : Except DecodeError (Instr × Nat) :=
  match offset with
  | .ofNat offset => code.instrAt offset
  | .negSucc _ => .error ⟨offset, .offsetOutOfRange⟩

end Code

end ClosureLisp
