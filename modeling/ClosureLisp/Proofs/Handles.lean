import ClosureLisp.Proofs.Reachability
import Mathlib.Data.List.Nodup

/-!
# The handles a heap gives out

The life of a heap is a run of operations, each of which makes a closure or collects. Handles are
counted in thirty-two bits, so the first 2 ^ 32 closures of a life have handles of their own, and
the next one is given the handle of the first, whether that one is still stored or has long been
collected. `after` is the heap behind a run and `given` are the handles that the run hands out.
-/

namespace ClosureLisp.Heap

/-- What changes a heap. -/
inductive Operation where
  | alloc (closure : Closure)
  | collect (roots : List Value)

/-- The heap behind one operation. -/
def apply (heap : Heap) : Operation → Heap
  | .alloc closure => (heap.alloc closure).2
  | .collect roots => (heap.collect roots).2

/-- The heap behind a run of operations. -/
def after (heap : Heap) (operations : List Operation) : Heap :=
  operations.foldl apply heap

/-- The handles that a run of operations hands out, in order. -/
def given (heap : Heap) : List Operation → List UInt32
  | [] => []
  | .alloc closure :: rest => (heap.alloc closure).1 :: (heap.alloc closure).2.given rest
  | .collect roots :: rest => (heap.collect roots).2.given rest

/-- The number of closures that a run of operations makes. -/
def allocations : List Operation → Nat
  | [] => 0
  | .alloc _ :: rest => allocations rest + 1
  | .collect _ :: rest => allocations rest

section Runs

variable {heap : Heap} {handle : UInt32} {front back operations : List Operation}

theorem after_append (heap : Heap) (front back : List Operation) :
    heap.after (front ++ back) = (heap.after front).after back :=
  List.foldl_append

theorem given_append (heap : Heap) (front back : List Operation) :
    heap.given (front ++ back) = heap.given front ++ (heap.after front).given back := by
  induction front generalizing heap with
  | nil => rfl
  | cons operation front ih =>
      cases operation with
      | alloc closure => exact congrArg (List.cons _) (ih _)
      | collect roots => exact ih _

/-! ## Which handles -/

/-- The handles of a run are the ones from the counter on. -/
theorem given_eq (heap : Heap) (operations : List Operation) :
    heap.given operations =
      (List.range (allocations operations)).map fun number =>
        heap.next + UInt32.ofNat number := by
  induction operations generalizing heap with
  | nil => rfl
  | cons operation rest ih =>
      cases operation with
      | alloc closure =>
          rw [given, ih, allocations, List.range_succ_eq_map, List.map_cons, List.map_map]
          refine congrArg₂ List.cons (UInt32.add_zero _).symm ?_
          refine List.map_congr_left fun number _ => ?_
          simp [Heap.alloc, UInt32.ofNat_add, UInt32.add_assoc, UInt32.add_comm 1]
      | collect roots =>
          rw [given, ih, next_collect]
          rfl

/-- The handles of a run differ exactly as long as the counter does not come round. -/
theorem nodup_given_iff (heap : Heap) (operations : List Operation) :
    (heap.given operations).Nodup ↔ allocations operations ≤ UInt32.size := by
  rw [given_eq, List.nodup_map_iff_inj_on List.nodup_range]
  constructor
  · intro distinct
    by_contra many
    have same := distinct 0 (List.mem_range.mpr (by omega)) UInt32.size
      (List.mem_range.mpr (by omega)) rfl
    cases same
  · intro few left leftRange right rightRange same
    have equal := congrArg UInt32.toNat ((UInt32.add_right_inj _).mp same)
    rw [List.mem_range] at leftRange rightRange
    rwa [UInt32.toNat_ofNat_of_lt' (Nat.lt_of_lt_of_le leftRange few),
      UInt32.toNat_ofNat_of_lt' (Nat.lt_of_lt_of_le rightRange few)] at equal

/-! ## Handles that are not stored -/

theorem get_eq_error_iff :
    heap.get handle = .error (.unknownHandle handle) ↔ heap.objects[handle]? = none := by
  unfold get
  cases heap.objects[handle]? <;> simp

theorem get_alloc_next (heap : Heap) (closure : Closure) :
    (heap.alloc closure).2.get heap.next = .ok closure := by
  simp [get, Heap.alloc]

/-- A collection brings nothing back. -/
theorem missing_collect (roots : List Value) (missing : heap.objects[handle]? = none) :
    (heap.collect roots).2.objects[handle]? = none := by
  refine Option.eq_none_iff_forall_ne_some.mpr fun closure stored => ?_
  rw [getElem?_collect_iff, missing] at stored
  cases stored.1

/-- A collection without roots leaves nothing. -/
theorem missing_collect_nil (heap : Heap) (handle : UInt32) :
    (heap.collect []).2.objects[handle]? = none := by
  refine Option.eq_none_iff_forall_ne_some.mpr fun closure stored => ?_
  exact Table.Reaches.not_nil ((getElem?_collect_iff heap [] handle closure).mp stored).2

/-- What is not stored is not stored later, unless its handle is given out. -/
theorem missing_after (missing : heap.objects[handle]? = none)
    (apart : handle ∉ heap.given operations) :
    (heap.after operations).objects[handle]? = none := by
  induction operations generalizing heap with
  | nil => exact missing
  | cons operation rest ih =>
      cases operation with
      | alloc closure =>
          rw [given, List.mem_cons, not_or] at apart
          refine ih ?_ apart.2
          rw [apply, Heap.alloc, Std.TreeMap.getElem?_insert,
            if_neg (by simpa using fun same => apart.1 same.symm)]
          exact missing
      | collect roots => exact ih (missing_collect roots missing) apart

/-- A handle that a run gives out is the counter before one of its allocations. -/
theorem exists_alloc_of_mem_given (listed : handle ∈ heap.given operations) :
    ∃ front closure back,
      operations = front ++ .alloc closure :: back ∧ (heap.after front).next = handle := by
  induction operations generalizing heap with
  | nil => exact absurd listed List.not_mem_nil
  | cons operation rest ih =>
      cases operation with
      | alloc closure =>
          rcases List.mem_cons.mp listed with same | later
          · exact ⟨[], closure, rest, rfl, same.symm⟩
          · obtain ⟨front, made, back, rfl, counter⟩ := ih later
            exact ⟨.alloc closure :: front, made, back, rfl, counter⟩
      | collect roots =>
          obtain ⟨front, made, back, rfl, counter⟩ := ih listed
          exact ⟨.collect roots :: front, made, back, rfl, counter⟩

/-- A handle is unknown at every point of a run. -/
def StaysUnknown (heap : Heap) (handle : UInt32) (operations : List Operation) : Prop :=
  ∀ front back, operations = front ++ back →
    (heap.after front).get handle = .error (.unknownHandle handle)

/-- An unknown handle stays unknown exactly as long as it is not given out. -/
theorem staysUnknown_iff (unknown : heap.get handle = .error (.unknownHandle handle)) :
    heap.StaysUnknown handle operations ↔ handle ∉ heap.given operations := by
  constructor
  · intro stays listed
    obtain ⟨front, closure, back, rfl, counter⟩ := exists_alloc_of_mem_given listed
    have later := stays (front ++ [.alloc closure]) back (by simp)
    rw [after_append, ← counter] at later
    exact absurd ((get_alloc_next _ closure).symm.trans later) (by simp)
  · rintro apart front back rfl
    rw [given_append, List.mem_append, not_or] at apart
    exact get_eq_error_iff.mpr (missing_after (get_eq_error_iff.mp unknown) apart.1)

end Runs

/-! ## Lives of a heap -/

/-- Every closure that a run stores in a new heap has a handle that the run gave out. -/
theorem mem_given_of_stored {threshold : Int} {operations : List Operation} {handle : UInt32}
    {closure : Closure}
    (stored : ((new threshold).after operations).get handle = .ok closure) :
    handle ∈ (new threshold).given operations := by
  by_contra apart
  have missing : ((new threshold).after operations).objects[handle]? = none :=
    missing_after (by simp [new]) apart
  cases (get_eq_error_iff.mpr missing).symm.trans stored

/-- A collection drops the closure of a handle. -/
def Drops (heap : Heap) (roots : List Value) (handle : UInt32) : Prop :=
  (∃ closure, heap.get handle = .ok closure) ∧
    (heap.collect roots).2.get handle = .error (.unknownHandle handle)

/-- Whatever a collection of a run drops is unknown from then on. -/
def DropsForGood (heap : Heap) (operations : List Operation) : Prop :=
  ∀ front roots back handle, operations = front ++ .collect roots :: back →
    (heap.after front).Drops roots handle →
      ((heap.after front).collect roots).2.StaysUnknown handle back

/-- Exactly the lives of a heap with at most 2 ^ 32 allocations give out no handle twice and never
find a collected closure again. In a life of any length the handle of a collected closure is
unknown up to the next time that it is given out. -/
theorem new_handles_unique_iff (threshold : Int) (operations : List Operation) :
    (((new threshold).given operations).Nodup ∧ (new threshold).DropsForGood operations ↔
      allocations operations ≤ UInt32.size) ∧
    ∀ front roots handle, ((new threshold).after front).Drops roots handle →
      ∀ back, (((new threshold).after front).collect roots).2.StaysUnknown handle back ↔
        handle ∉ (((new threshold).after front).collect roots).2.given back := by
  refine ⟨⟨fun unique => (nodup_given_iff _ _).mp unique.1, fun few => ?_⟩, ?_⟩
  · have distinct := (nodup_given_iff (new threshold) operations).mpr few
    refine ⟨distinct, ?_⟩
    rintro front roots back handle rfl ⟨⟨closure, stored⟩, dropped⟩
    rw [given_append] at distinct
    refine (staysUnknown_iff dropped).mpr fun again => ?_
    exact (List.disjoint_of_nodup_append distinct) (mem_given_of_stored stored) again
  · rintro front roots handle ⟨-, dropped⟩ back
    exact staysUnknown_iff dropped

/-- A life that collects its first closure and then makes a number of others. -/
def lifeWithLater (count : Nat) : List Operation :=
  .alloc ⟨0, [], 0⟩ :: .collect [] :: List.replicate count (.alloc ⟨0, [], 5⟩)

theorem allocations_replicate (count : Nat) (closure : Closure) :
    allocations (List.replicate count (.alloc closure)) = count := by
  induction count with
  | zero => rfl
  | succ count ih => rw [List.replicate_succ, allocations, ih]

/-- With 2 ^ 32 later closures, the last one of them is given the handle of the collected one. -/
theorem lifeWithLater_reuses :
    ¬ ((new 0).given (lifeWithLater UInt32.size)).Nodup ∧
      ¬ (new 0).DropsForGood (lifeWithLater UInt32.size) := by
  constructor
  · rw [nodup_given_iff, lifeWithLater, allocations, allocations, allocations_replicate]
    exact Nat.not_succ_le_self _
  · intro forGood
    have dropped : ((new 0).after [.alloc ⟨0, [], 0⟩]).Drops [] 1 :=
      ⟨⟨⟨0, [], 0⟩, rfl⟩, get_eq_error_iff.mpr (missing_collect_nil _ 1)⟩
    have stays := forGood [.alloc ⟨0, [], 0⟩] [] _ 1 rfl dropped
    rw [staysUnknown_iff dropped.2, given_eq, next_collect, allocations_replicate] at stays
    exact stays (List.mem_map.mpr ⟨UInt32.size - 1, List.mem_range.mpr (by decide), by decide⟩)

end ClosureLisp.Heap
