import ClosureLisp.Text.Bytes

/-!
# Opcodes

The ten operations of the machine, their bytes and their listing names.
-/

namespace ClosureLisp

/-- An operation of the machine. -/
inductive Opcode where
  | push
  | pop
  | get
  | defGlobal
  | getGlobal
  | jump
  | jumpIf
  | call
  | ret
  | makeLambda
  deriving DecidableEq, Repr, Inhabited

namespace Opcode

/-- The byte of an operation. -/
def byte : Opcode → UInt8
  | .push => 0
  | .pop => 1
  | .get => 2
  | .defGlobal => 3
  | .getGlobal => 4
  | .jump => 5
  | .jumpIf => 6
  | .call => 7
  | .ret => 8
  | .makeLambda => 9

/-- The operation of a byte. -/
def ofByte? : UInt8 → Option Opcode
  | 0 => some .push
  | 1 => some .pop
  | 2 => some .get
  | 3 => some .defGlobal
  | 4 => some .getGlobal
  | 5 => some .jump
  | 6 => some .jumpIf
  | 7 => some .call
  | 8 => some .ret
  | 9 => some .makeLambda
  | _ => none

theorem ofByte?_byte (opcode : Opcode) : ofByte? opcode.byte = some opcode := by
  cases opcode <;> rfl

/-- The listing name of an operation. -/
def name : Opcode → Bytes
  | .push => utf8 "PUSH"
  | .pop => utf8 "POP"
  | .get => utf8 "GET"
  | .defGlobal => utf8 "DEF_GLOBAL"
  | .getGlobal => utf8 "GET_GLOBAL"
  | .jump => utf8 "JMP"
  | .jumpIf => utf8 "JMP_IF"
  | .call => utf8 "CALL"
  | .ret => utf8 "RETURN"
  | .makeLambda => utf8 "MAKE_LAMBDA"

/-- The listing name of a byte, whether it is an operation or not. -/
def describe (byte : UInt8) : Bytes :=
  match ofByte? byte with
  | some opcode => opcode.name
  | none => utf8 "UNKNOWN_" ++ Bytes.upperHexByte byte

/-- The number of operand words behind the opcode byte; a push has an inline constant instead. -/
def operandWords? : Opcode → Option Nat
  | .push => none
  | .pop | .defGlobal | .ret => some 0
  | .get | .getGlobal | .jump | .jumpIf | .call => some 1
  | .makeLambda => some 3

/-- The net effect on the stack depth, where it does not depend on the operands. -/
def stackEffect? : Opcode → Option Int
  | .push | .get | .getGlobal => some 1
  | .pop | .defGlobal | .jumpIf => some (-1)
  | .jump => some 0
  | .call | .ret | .makeLambda => none

/-- Whether an operation carries a jump target. -/
def isJump : Opcode → Bool
  | .jump | .jumpIf => true
  | _ => false

end Opcode

end ClosureLisp
