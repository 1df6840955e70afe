import ClosureLisp.Fault

/-!
# Primitives

The functions that exist before any program runs. Every global table starts with them,
in the order of `Primitive.all`, followed by the name of the value `nil`. Integer
arithmetic wraps around at thirty-two bits.
-/

namespace ClosureLisp

/-- A predefined function. -/
inductive Primitive where
  | add
  | subtract
  | multiply
  | less
  | equal
  | display
  | assert
  | isNil
  deriving DecidableEq, Repr

namespace Primitive

/-- The primitives in the order of their global slots. -/
def all : List Primitive :=
  [.add, .subtract, .multiply, .less, .equal, .display, .assert, .isNil]

/-- The global name of a primitive. -/
def name : Primitive → Name
  | .add => utf8 "+"
  | .subtract => utf8 "-"
  | .multiply => utf8 "*"
  | .less => utf8 "<"
  | .equal => utf8 "="
  | .display => utf8 "display"
  | .assert => utf8 "assert"
  | .isNil => utf8 "isnil"

/-- The number of arguments of a primitive. -/
def arity : Primitive → Nat
  | .add | .subtract | .multiply | .less | .equal => 2
  | .display | .assert | .isNil => 1

/-- The primitive with a given name. -/
def ofName? (name : Name) : Option Primitive :=
  all.find? fun primitive => primitive.name = name

/-- The value that names a primitive at run time. -/
def value (primitive : Primitive) : Value :=
  .builtin primitive.name primitive.arity

/-- What a primitive yields: a result and, for `display`, the value it shows. -/
structure Yield where
  result : Value
  shown : Option Value := none
  deriving DecidableEq, Repr

/-- Applies an operation to two integers. -/
def onInts (operation : Int32 → Int32 → Value) : Value → Value → Except Fault Yield
  | .int left, .int right => .ok { result := operation left right }
  | .int _, right => .error (.notInt right.tag)
  | left, _ => .error (.notInt left.tag)

/-- Compares two integers or two booleans. -/
def compare : Value → Value → Except Fault Yield
  | .int left, .int right => .ok { result := .bool (left == right) }
  | .bool left, .bool right => .ok { result := .bool (left == right) }
  | left, right => .error (.notComparable left.tag right.tag)

/-- Checks an assertion. -/
def check : Value → Except Fault Yield
  | .bool true => .ok { result := .nil }
  | .bool false => .error .assertionFailed
  | other => .error (.assertNotBool other.tag)

/-- Applies a primitive to its arguments. What is displayed is handed to a writer, which is taken
never to fail: `display` always results in nothing, and what it has shown is not lost. -/
def apply (primitive : Primitive) (arguments : List Value) : Except Fault Yield :=
  match primitive, arguments with
  | .add, [left, right] => onInts (fun left right => .int (left + right)) left right
  | .subtract, [left, right] => onInts (fun left right => .int (left - right)) left right
  | .multiply, [left, right] => onInts (fun left right => .int (left * right)) left right
  | .less, [left, right] => onInts (fun left right => .bool (left < right)) left right
  | .equal, [left, right] => compare left right
  | .display, [shown] => .ok { result := .nil, shown := some shown }
  | .assert, [condition] => check condition
  | .isNil, [value] => .ok { result := .bool value.isNil }
  | _, _ => .error (.builtinArity primitive.name primitive.arity arguments.length)

/-- Applies the primitive with a given name to its arguments. -/
def applyNamed (name : Name) (arguments : List Value) : Except Fault Yield :=
  match ofName? name with
  | none => .error (.unknownBuiltin name)
  | some primitive => primitive.apply arguments

theorem onInts_ok {operation : Int32 → Int32 → Value} {left right : Value} {yielded : Yield}
    (plain : ∀ left right, ∃ constant : Constant, operation left right = constant.value)
    (applied : onInts operation left right = .ok yielded) :
    ∃ constant : Constant, yielded.result = constant.value := by
  unfold onInts at applied
  split at applied
  · cases applied
    exact plain _ _
  · cases applied
  · cases applied

/-- What a primitive results in is no function. -/
theorem applyNamed_ok {name : Name} {arguments : List Value} {yielded : Yield}
    (applied : applyNamed name arguments = .ok yielded) :
    ∃ constant : Constant, yielded.result = constant.value := by
  unfold applyNamed at applied
  split at applied
  · cases applied
  · unfold apply at applied
    split at applied
    · exact onInts_ok (fun _ _ => ⟨.int _, rfl⟩) applied
    · exact onInts_ok (fun _ _ => ⟨.int _, rfl⟩) applied
    · exact onInts_ok (fun _ _ => ⟨.int _, rfl⟩) applied
    · exact onInts_ok (fun _ _ => ⟨.bool _, rfl⟩) applied
    · unfold compare at applied
      split at applied
      · cases applied
        exact ⟨.bool _, rfl⟩
      · cases applied
        exact ⟨.bool _, rfl⟩
      · cases applied
    · cases applied
      exact ⟨.nil, rfl⟩
    · unfold check at applied
      split at applied
      · cases applied
        exact ⟨.nil, rfl⟩
      · cases applied
      · cases applied
    · cases applied
      exact ⟨.bool _, rfl⟩
    · cases applied

end Primitive

/-- The global names that exist before any program runs, in slot order. -/
def predefinedNames : List Name :=
  Primitive.all.map Primitive.name ++ [utf8 "nil"]

/-- The values of the predefined names, slot for slot. -/
def predefinedValues : List Value :=
  Primitive.all.map Primitive.value ++ [.nil]

end ClosureLisp
