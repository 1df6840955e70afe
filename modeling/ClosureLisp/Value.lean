import ClosureLisp.Source.Token

/-!
# Values

Run-time values. A closure value is only a handle; the closure itself lives in a heap.
`Constant` is the part of the values that can stand inside an instruction stream.
-/

namespace ClosureLisp

/-- A run-time value. -/
inductive Value where
  | nil
  | int (number : Int32)
  | bool (flag : Bool)
  | builtin (name : Name) (arity : Int)
  | closure (handle : UInt32) (arity : Int)
  deriving DecidableEq, Repr, Inhabited

namespace Value

/-- The five kinds of values. -/
inductive Tag where
  | nil
  | int
  | bool
  | builtin
  | closure
  deriving DecidableEq, Repr

namespace Tag

/-- The name of a kind. -/
def name : Tag → Bytes
  | .nil => utf8 "nil"
  | .int => utf8 "int"
  | .bool => utf8 "bool"
  | .builtin => utf8 "builtin"
  | .closure => utf8 "closure"

/-- The kind that a byte stands for. -/
def ofByte? : UInt8 → Option Tag
  | 0 => some .nil
  | 1 => some .int
  | 2 => some .bool
  | 3 => some .builtin
  | 4 => some .closure
  | _ => none

/-- The name of the kind that a byte stands for, or the byte itself. -/
def describe (byte : UInt8) : Bytes :=
  match ofByte? byte with
  | some tag => tag.name
  | none => utf8 "Tag(0x" ++ Bytes.upperHexByte byte ++ utf8 ")"

end Tag

/-- The kind of a value. -/
def tag : Value → Tag
  | .nil => .nil
  | .int _ => .int
  | .bool _ => .bool
  | .builtin _ _ => .builtin
  | .closure _ _ => .closure

/-- A value as it is displayed. -/
def text : Value → Bytes
  | .nil => utf8 "nil"
  | .int number => Bytes.decimal number.toInt
  | .bool true => utf8 "#t"
  | .bool false => utf8 "#f"
  | .builtin name arity => utf8 "<builtin " ++ name ++ utf8 "/" ++ Bytes.decimal arity ++ utf8 ">"
  | .closure handle arity =>
      utf8 "<closure #" ++ Bytes.decimalNat handle.toNat ++ utf8 "/" ++ Bytes.decimal arity ++
        utf8 ">"

/-- Whether a value is `nil`. -/
def isNil : Value → Bool
  | .nil => true
  | _ => false

/-- The handle of a closure value. -/
def handle? : Value → Option UInt32
  | .closure handle _ => some handle
  | _ => none

end Value

/-- A value that can be written into an instruction stream. -/
inductive Constant where
  | nil
  | int (number : Int32)
  | bool (flag : Bool)
  deriving DecidableEq, Repr, Inhabited

namespace Constant

/-- The run-time value of a constant. -/
def value : Constant → Value
  | .nil => .nil
  | .int number => .int number
  | .bool flag => .bool flag

/-- The constant that is a given value, if it is one. -/
def ofValue? : Value → Option Constant
  | .nil => some .nil
  | .int number => some (.int number)
  | .bool flag => some (.bool flag)
  | _ => none

/-- The bytes of a constant: its tag, then its payload. -/
def encode : Constant → Bytes
  | .nil => [0]
  | .int number => 1 :: Bytes.word32 number.toUInt32
  | .bool false => [2, 0]
  | .bool true => [2, 1]

/-- The number of bytes of a constant. -/
def size : Constant → Nat
  | .nil => 1
  | .int _ => 5
  | .bool _ => 2

theorem length_encode (constant : Constant) : constant.encode.length = constant.size := by
  cases constant with
  | nil => rfl
  | int number => rfl
  | bool flag => cases flag <;> rfl

theorem ofValue?_value (constant : Constant) : ofValue? constant.value = some constant := by
  cases constant <;> rfl

end Constant

end ClosureLisp
