import ClosureLisp.Fault
import ClosureLisp.Heap.Reach

/-!
# The heap

Closures live in a heap and are named by handles, which count up from one in thirty-two bits. The
heap keeps an account of its footprint in bytes, in a signed word of sixty-four bits, and asks for
a collection once the footprint exceeds a threshold.
-/

namespace ClosureLisp

/-- A function value: an entry point and the values captured when it was made. -/
structure Closure where
  arity : UInt32
  captures : List Value
  entry : UInt32
  deriving DecidableEq, Repr

namespace Value

/-- The bytes that a captured value is charged with. -/
def footprint : Value → Nat
  | .nil => 1
  | .int _ => 5
  | .bool _ => 2
  | .builtin name _ => 5 + name.length
  | .closure _ _ => 9

end Value

namespace Closure

/-- The bytes that a closure is charged with: sixteen and those of its captures. -/
def footprint (closure : Closure) : Nat :=
  16 + closure.captures.foldr (fun value total => value.footprint + total) 0

/-- The handles among the captured values. -/
def handles (closure : Closure) : List UInt32 :=
  closure.captures.filterMap Value.handle?

end Closure

/-- The account of one collection. -/
structure Collection where
  roots : Nat
  marked : Nat
  swept : Nat
  freed : Int64
  after : Int64
  deriving DecidableEq, Repr

/-- A heap of closures. -/
structure Heap where
  objects : Table Closure
  next : UInt32
  size : Int64
  threshold : Int
  cycles : Nat
  last : Option Collection

namespace Heap

/-- The footprint above which a heap asks for a collection, unless told otherwise. -/
def defaultThreshold : Int := 65536

/-- An empty heap; a threshold that is not positive stands for the default. -/
def new (threshold : Int) : Heap where
  objects := ∅
  next := 1
  size := 0
  threshold := if threshold ≤ 0 then defaultThreshold else threshold
  cycles := 0
  last := none

/-- Stores a closure under the next handle. -/
def alloc (heap : Heap) (closure : Closure) : UInt32 × Heap :=
  (heap.next,
    { heap with
      objects := heap.objects.insert heap.next closure
      next := heap.next + 1
      size := heap.size + Int64.ofNat closure.footprint })

/-- The closure with a given handle. -/
def get (heap : Heap) (handle : UInt32) : Except Fault Closure :=
  match heap.objects[handle]? with
  | some closure => .ok closure
  | none => .error (.unknownHandle handle)

/-- Whether the footprint exceeds the threshold. -/
def needsCollection (heap : Heap) : Bool :=
  heap.threshold < heap.size.toInt

/-- The live handles in ascending order. -/
def handles (heap : Heap) : List UInt32 :=
  heap.objects.keys

end Heap

end ClosureLisp
