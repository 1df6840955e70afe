import ClosureLisp.Bytecode.Opcode
import ClosureLisp.Value

/-!
# Instructions

One instruction is an opcode byte followed by its operands: big-endian words of
thirty-two bits, or the inline constant of a push.
-/

namespace ClosureLisp

/-- One instruction of the machine. -/
inductive Instr where
  | push (constant : Constant)
  | pop
  | get (slot : Int32)
  | defGlobal
  | getGlobal (slot : Int32)
  | jump (target : Int32)
  | jumpIf (target : Int32)
  | call (arity : Int32)
  | ret
  | makeLambda (entry arity captures : Int32)
  deriving DecidableEq, Repr, Inhabited

namespace Instr

/-- The opcode of an instruction. -/
def opcode : Instr → Opcode
  | .push _ => .push
  | .pop => .pop
  | .get _ => .get
  | .defGlobal => .defGlobal
  | .getGlobal _ => .getGlobal
  | .jump _ => .jump
  | .jumpIf _ => .jumpIf
  | .call _ => .call
  | .ret => .ret
  | .makeLambda _ _ _ => .makeLambda

/-- The bytes of an operand. -/
def operand (number : Int32) : Bytes :=
  Bytes.word32 number.toUInt32

/-- The bytes behind the opcode. -/
def operands : Instr → Bytes
  | .push constant => constant.encode
  | .pop | .defGlobal | .ret => []
  | .get slot | .getGlobal slot => operand slot
  | .jump target | .jumpIf target => operand target
  | .call arity => operand arity
  | .makeLambda entry arity captures => operand entry ++ operand arity ++ operand captures

/-- The bytes of an instruction. -/
def encode (instr : Instr) : Bytes :=
  instr.opcode.byte :: instr.operands

/-- The number of bytes of an instruction. -/
def size : Instr → Nat
  | .push constant => 1 + constant.size
  | .pop | .defGlobal | .ret => 1
  | .get _ | .getGlobal _ | .jump _ | .jumpIf _ | .call _ => 5
  | .makeLambda _ _ _ => 13

theorem length_encode (instr : Instr) : instr.encode.length = instr.size := by
  cases instr with
  | push constant => simp [encode, operands, size, Constant.length_encode, Nat.add_comm]
  | _ => rfl

theorem size_pos (instr : Instr) : 0 < instr.size := by
  cases instr with
  | push constant => exact Nat.lt_of_lt_of_le Nat.zero_lt_one (Nat.le_add_right 1 _)
  | _ => exact Nat.succ_pos _

/-- The bytes of a run of instructions. -/
def encodeAll (instrs : List Instr) : Bytes :=
  instrs.flatMap encode

/-- The number of bytes of a run of instructions. -/
def sizeAll (instrs : List Instr) : Nat :=
  instrs.foldr (fun instr total => instr.size + total) 0

/-- A jump target as it is listed. -/
def targetText (target : Int32) : Bytes :=
  Bytes.zeroPadded 4 target.toInt

/-- An instruction as it is listed. -/
def text : Instr → Bytes
  | .push constant => Opcode.push.name ++ utf8 " " ++ constant.value.text
  | .get slot => Opcode.get.name ++ utf8 " " ++ Bytes.decimal slot.toInt
  | .getGlobal slot => Opcode.getGlobal.name ++ utf8 " " ++ Bytes.decimal slot.toInt
  | .jump target => Opcode.jump.name ++ utf8 " -> " ++ targetText target
  | .jumpIf target => Opcode.jumpIf.name ++ utf8 " -> " ++ targetText target
  | .call arity => Opcode.call.name ++ utf8 " " ++ Bytes.decimal arity.toInt
  | .makeLambda entry arity captures =>
      Opcode.makeLambda.name ++ utf8 " entry=" ++ targetText entry ++ utf8 " arity=" ++
        Bytes.decimal arity.toInt ++ utf8 " captures=" ++ Bytes.decimal captures.toInt
  | .pop => Opcode.pop.name
  | .defGlobal => Opcode.defGlobal.name
  | .ret => Opcode.ret.name

end Instr

end ClosureLisp
