import ClosureLisp.Bytecode.Instr

/-!
# Instruction records

The flat form in which tools hand instructions over: an opcode byte and every operand
field, whether the opcode uses it or not. Only some records are instructions; `instr?`
says which, and the encoding of a record is the encoding of its instruction.
-/

namespace ClosureLisp

/-- A flat instruction record. -/
structure InstrRecord where
  opcode : UInt8
  value : Option Value := none
  index : Int32 := 0
  target : Int32 := 0
  arity : Int32 := 0
  captures : Int32 := 0
  deriving DecidableEq, Repr

/-- Why a record cannot be encoded. -/
inductive EncodeFault where
  | missingValue
  | notSerializable (tag : Value.Tag)
  | unknownOpcode (byte : UInt8)
  | notJump (byte : UInt8)
  deriving DecidableEq, Repr

/-- The wording of an encode fault; a missing value has none. -/
def EncodeFault.message? : EncodeFault → Option Bytes
  | .missingValue => none
  | .notSerializable tag => some (utf8 "vm: " ++ tag.name ++ utf8 " values are not serializable")
  | .unknownOpcode byte => some (utf8 "vm: cannot encode opcode " ++ Opcode.describe byte)
  | .notJump byte => some (utf8 "vm: " ++ Opcode.describe byte ++ utf8 " is not a jump")

/-- The constant of a value, or why it has none. -/
def Value.serializable (value : Value) : Except EncodeFault Constant :=
  match Constant.ofValue? value with
  | some constant => .ok constant
  | none => .error (.notSerializable value.tag)

namespace InstrRecord

/-- The record of an instruction: unused fields are zero. -/
def ofInstr : Instr → InstrRecord
  | .push constant => { opcode := Opcode.push.byte, value := some constant.value }
  | .pop => { opcode := Opcode.pop.byte }
  | .get slot => { opcode := Opcode.get.byte, index := slot }
  | .defGlobal => { opcode := Opcode.defGlobal.byte }
  | .getGlobal slot => { opcode := Opcode.getGlobal.byte, index := slot }
  | .jump target => { opcode := Opcode.jump.byte, target := target }
  | .jumpIf target => { opcode := Opcode.jumpIf.byte, target := target }
  | .call arity => { opcode := Opcode.call.byte, arity := arity }
  | .ret => { opcode := Opcode.ret.byte }
  | .makeLambda entry arity captures =>
      { opcode := Opcode.makeLambda.byte, target := entry, arity := arity, captures := captures }

/-- The constant that a push record carries. -/
def constant (record : InstrRecord) : Except EncodeFault Constant :=
  match record.value with
  | none => .error .missingValue
  | some value => value.serializable

/-- The instruction of a record, which ignores the fields its opcode does not use. -/
def instr (record : InstrRecord) : Except EncodeFault Instr :=
  match Opcode.ofByte? record.opcode with
  | none => .error (.unknownOpcode record.opcode)
  | some .push => record.constant.map Instr.push
  | some .pop => .ok .pop
  | some .get => .ok (.get record.index)
  | some .defGlobal => .ok .defGlobal
  | some .getGlobal => .ok (.getGlobal record.index)
  | some .jump => .ok (.jump record.target)
  | some .jumpIf => .ok (.jumpIf record.target)
  | some .call => .ok (.call record.arity)
  | some .ret => .ok .ret
  | some .makeLambda => .ok (.makeLambda record.target record.arity record.captures)

theorem instr_ofInstr (given : Instr) : (ofInstr given).instr = .ok given := by
  cases given with
  | push constant =>
      simp [ofInstr, instr, InstrRecord.constant, Value.serializable, Constant.ofValue?_value,
        Except.map, Opcode.ofByte?_byte]
  | _ => rfl

/-- The bytes of a record. -/
def encode (record : InstrRecord) : Except EncodeFault Bytes :=
  record.instr.map Instr.encode

/-- The number of bytes of a record; an unknown opcode counts for one. -/
def size (record : InstrRecord) : Except EncodeFault Nat :=
  match record.instr with
  | .ok instr => .ok instr.size
  | .error (.unknownOpcode _) => .ok 1
  | .error fault => .error fault

/-- A record as it is listed, also when it is no instruction. -/
def text (record : InstrRecord) : Bytes :=
  match record.instr with
  | .ok instr => instr.text
  | .error (.unknownOpcode byte) => Opcode.describe byte
  | .error _ =>
      Opcode.push.name ++ utf8 " " ++ ((record.value.map Value.text).getD (utf8 "%!s(<nil>)"))

end InstrRecord

end ClosureLisp
