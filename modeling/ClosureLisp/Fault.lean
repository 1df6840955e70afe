import ClosureLisp.Value

/-!
# Run-time faults

Everything that can stop a running program, as causes; `Fault.message` is the only place
where the wording stands. The machine and the evaluator share this type, so that their
failures can be compared by kind.
-/

namespace ClosureLisp

/-- Why a running program stops. -/
inductive Fault where
  | emptyStack
  | missingArguments (needed : Int) (depth : Nat)
  | missingCaptures (needed : Int) (depth : Nat)
  | frameAboveStack (base depth : Nat)
  | stackLimit (limit : Nat)
  | callDepth (depth : Nat)
  | localOutsideCall (slot : Int32)
  | localOutOfRange (slot : Int32) (count : Nat)
  | globalOutOfRange (slot : Int32) (count : Nat)
  | unknownHandle (handle : UInt32)
  | targetOutOfRange (target : Int32) (length : Nat)
  | startOutOfRange
  | returnOutsideCall
  | builtinArity (name : Name) (expected given : Nat)
  | closureArity (handle : UInt32) (expected : Nat) (given : Nat)
  | functionArity (expected given : Nat)
  | negativeArity (arity : Int32)
  | conditionNotBool (tag : Value.Tag)
  | testNotBool (tag : Value.Tag)
  | notInt (tag : Value.Tag)
  | notComparable (left right : Value.Tag)
  | assertNotBool (tag : Value.Tag)
  | notCallable (value : Value)
  | unknownBuiltin (name : Name)
  | assertionFailed
  deriving DecidableEq, Repr

namespace Fault

/-- The kinds of run-time faults. -/
inductive Kind where
  | stackUnderflow
  | stackOverflow
  | badLocal
  | badGlobal
  | badHandle
  | badJump
  | badReturn
  | arity
  | typeMismatch
  | notCallable
  | assertion
  deriving DecidableEq, Repr

/-- The kind of a fault. -/
def kind : Fault → Kind
  | .emptyStack | .missingArguments _ _ | .missingCaptures _ _ | .frameAboveStack _ _ =>
      .stackUnderflow
  | .stackLimit _ | .callDepth _ => .stackOverflow
  | .localOutsideCall _ | .localOutOfRange _ _ => .badLocal
  | .globalOutOfRange _ _ => .badGlobal
  | .unknownHandle _ => .badHandle
  | .targetOutOfRange _ _ | .startOutOfRange => .badJump
  | .returnOutsideCall => .badReturn
  | .builtinArity _ _ _ | .closureArity _ _ _ | .functionArity _ _ | .negativeArity _ => .arity
  | .conditionNotBool _ | .testNotBool _ | .notInt _ | .notComparable _ _ | .assertNotBool _ =>
      .typeMismatch
  | .notCallable _ | .unknownBuiltin _ => .notCallable
  | .assertionFailed => .assertion

/-- The general part of the wording. -/
def Kind.summary : Kind → Bytes
  | .stackUnderflow => utf8 "stack underflow"
  | .stackOverflow => utf8 "stack overflow"
  | .badLocal => utf8 "local index out of range"
  | .badGlobal => utf8 "global index out of range"
  | .badHandle => utf8 "bad heap handle"
  | .badJump => utf8 "jump target out of range"
  | .badReturn => utf8 "return outside of a call"
  | .arity => utf8 "arity mismatch"
  | .typeMismatch => utf8 "type mismatch"
  | .notCallable => utf8 "value is not callable"
  | .assertion => utf8 "assertion failed"

/-- The particular part of the wording, where there is one. -/
def detail? : Fault → Option Bytes
  | .emptyStack | .startOutOfRange | .returnOutsideCall | .assertionFailed => none
  | .missingArguments needed depth =>
      some (utf8 "call needs " ++ Bytes.decimal needed ++ utf8 " arguments, stack has " ++
        Bytes.decimalNat depth)
  | .missingCaptures needed depth =>
      some (utf8 "lambda needs " ++ Bytes.decimal needed ++ utf8 " captures, stack has " ++
        Bytes.decimalNat depth)
  | .frameAboveStack base depth =>
      some (utf8 "frame base " ++ Bytes.decimalNat base ++ utf8 " above stack top " ++
        Bytes.decimalNat depth)
  | .stackLimit limit => some (utf8 "limit " ++ Bytes.decimalNat limit)
  | .callDepth depth => some (utf8 "call depth " ++ Bytes.decimalNat depth)
  | .localOutsideCall slot =>
      some (utf8 "slot " ++ Bytes.decimal slot.toInt ++ utf8 " outside of any call")
  | .localOutOfRange slot count =>
      some (utf8 "slot " ++ Bytes.decimal slot.toInt ++ utf8 ", frame has " ++
        Bytes.decimalNat count)
  | .globalOutOfRange slot count =>
      some (utf8 "slot " ++ Bytes.decimal slot.toInt ++ utf8 ", " ++ Bytes.decimalNat count ++
        utf8 " defined")
  | .unknownHandle handle => some (Bytes.decimalNat handle.toNat)
  | .targetOutOfRange target length =>
      some (Bytes.decimal target.toInt ++ utf8 " not in [0, " ++ Bytes.decimalNat length ++
        utf8 "]")
  | .builtinArity name expected given =>
      some (name ++ utf8 " expects " ++ Bytes.decimalNat expected ++ utf8 " arguments, got " ++
        Bytes.decimalNat given)
  | .closureArity handle expected given =>
      some (utf8 "closure #" ++ Bytes.decimalNat handle.toNat ++ utf8 " expects " ++
        Bytes.decimalNat expected ++ utf8 " arguments, got " ++ Bytes.decimalNat given)
  | .functionArity expected given =>
      some (utf8 "closure takes " ++ Bytes.decimalNat expected ++ utf8 " arguments, got " ++
        Bytes.decimalNat given)
  | .negativeArity arity => some (utf8 "negative arity " ++ Bytes.decimal arity.toInt)
  | .conditionNotBool tag => some (utf8 "condition is " ++ tag.name ++ utf8 ", not bool")
  | .testNotBool tag => some (utf8 "if condition must be bool, got " ++ tag.name)
  | .notInt tag => some (utf8 "expected int, got " ++ tag.name)
  | .notComparable left right =>
      some (utf8 "cannot compare " ++ left.name ++ utf8 " with " ++ right.name)
  | .assertNotBool tag => some (utf8 "assert expects bool, got " ++ tag.name)
  | .notCallable value => some value.text
  | .unknownBuiltin name => some (utf8 "unknown builtin " ++ Quoted.quote name)

/-- The full wording of a fault. -/
def message (fault : Fault) : Bytes :=
  match fault.detail? with
  | none => fault.kind.summary
  | some detail => fault.kind.summary ++ utf8 ": " ++ detail

end Fault

end ClosureLisp
