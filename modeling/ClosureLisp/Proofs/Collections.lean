import ClosureLisp.Proofs.Handles
import Mathlib

/-!
# The account of a heap

A sweep splits the closures of a heap into those that are marked and those that it drops, and its
account is the account of that split. Along a life of a heap the running size is therefore the
footprint of what is stored, counted in sixty-four bits, and the handles of what is stored stay
below the counter up to the allocation with which it comes round.
-/

namespace ClosureLisp

namespace Table

variable {α : Type}

theorem nodup_toList (table : Table α) : table.toList.Nodup := by
  refine List.Nodup.of_map Prod.fst ?_
  rw [Std.TreeMap.map_fst_toList_eq_keys]
  exact Std.TreeMap.nodup_keys

/-- What is left of a table and what has been taken out of it make up the table. -/
theorem toList_without_append_perm (table dropped : Table α)
    (taken : ∀ (handle : UInt32) (object : α),
      dropped[handle]? = some object → table[handle]? = some object) :
    ((table.without dropped).toList ++ dropped.toList).Perm table.toList := by
  have rest : dropped.toList.Perm (table.toList.filter fun entry => dropped.contains entry.1) := by
    refine (List.perm_ext_iff_of_nodup dropped.nodup_toList (table.nodup_toList.filter _)).mpr ?_
    rintro ⟨handle, object⟩
    rw [List.mem_filter, Std.TreeMap.mem_toList_iff_getElem?_eq_some,
      Std.TreeMap.mem_toList_iff_getElem?_eq_some, Std.TreeMap.contains_eq_isSome_getElem?,
      Option.isSome_iff_exists]
    constructor
    · intro found
      exact ⟨taken handle object found, object, found⟩
    · rintro ⟨stored, other, found⟩
      rw [found, ← stored, taken handle other found]
  have kept : (table.without dropped).toList =
      table.toList.filter fun entry => !dropped.contains entry.1 := Std.TreeMap.toList_filter
  rw [kept]
  refine (List.Perm.append_left _ rest).trans (List.perm_append_comm.trans ?_)
  exact List.filter_append_perm _ _

/-- Every object of a table is led to or not. -/
theorem size_kept_add (references : α → List UInt32) (table : Table α) (roots : List UInt32) :
    (table.without (table.unreached references roots)).size +
      (table.unreached references roots).size = table.size := by
  have split := toList_without_append_perm table (table.unreached references roots)
    fun handle object found => ((getElem?_unreached_iff table roots handle object).mp found).1
  have whole := split.length_eq
  rw [List.length_append, Std.TreeMap.length_toList, Std.TreeMap.length_toList,
    Std.TreeMap.length_toList] at whole
  exact whole

/-- A new handle puts its object in front of the others. -/
theorem toList_insert_perm_of_missing {table : Table α} {handle : UInt32} {object : α}
    (missing : table[handle]? = none) :
    (table.insert handle object).toList.Perm ((handle, object) :: table.toList) := by
  refine Std.TreeMap.toList_insert_perm.trans (List.Perm.of_eq ?_)
  refine congrArg _ (List.filter_eq_self.mpr fun entry listed => ?_)
  have found := Std.TreeMap.mem_toList_iff_getElem?_eq_some.mp listed
  rw [decide_eq_true_eq, beq_iff_eq]
  rintro rfl
  cases missing.symm.trans found

/-- As many handles are marked as there are objects, if these are the ones with objects. -/
theorem size_eq_of_mem_iff {marked : Marks} {table : Table α}
    (same : ∀ handle, handle ∈ marked ↔ handle ∈ table) : marked.size = table.size := by
  have distinct : marked.toList.Nodup := Std.TreeSet.distinct_toList.imp fun differ equal =>
    differ (Std.LawfulEqCmp.compare_eq_iff_eq.mpr equal)
  have listed : marked.toList.Perm table.keys :=
    (List.perm_ext_iff_of_nodup distinct Std.TreeMap.nodup_keys).mpr fun handle => by
      rw [Std.TreeSet.mem_toList, same, Std.TreeMap.mem_keys]
  rw [← Std.TreeSet.length_toList, listed.length_eq, Std.TreeMap.length_keys]

end Table

namespace Heap

/-- The bytes that entries of a heap are charged with. -/
def charge (entries : List (UInt32 × Closure)) : Nat :=
  (entries.map fun entry => entry.2.footprint).sum

/-- The bytes that a set of closures is charged with. -/
def footprint (objects : Table Closure) : Nat :=
  charge objects.toList

theorem charge_eq_of_perm {entries others : List (UInt32 × Closure)}
    (same : entries.Perm others) : charge entries = charge others :=
  (same.map _).sum_eq

theorem charge_append (front back : List (UInt32 × Closure)) :
    charge (front ++ back) = charge front + charge back := by
  rw [charge, List.map_append, List.sum_append]
  rfl

theorem footprint_insert {objects : Table Closure} {handle : UInt32} (closure : Closure)
    (missing : objects[handle]? = none) :
    footprint (objects.insert handle closure) = closure.footprint + footprint objects :=
  charge_eq_of_perm (Table.toList_insert_perm_of_missing missing)

/-! ## Sweeping -/

section Sweeping

variable {marked : Marks} {entries : List (UInt32 × Closure)} {account : Collection} {heap : Heap}

/-- The entries that a sweep drops. -/
def dropped (marked : Marks) (entries : List (UInt32 × Closure)) : List (UInt32 × Closure) :=
  entries.filter fun entry => !marked.contains entry.1

theorem dropped_of_mem {entry : UInt32 × Closure} (seen : entry.1 ∈ marked) :
    dropped marked (entry :: entries) = dropped marked entries :=
  List.filter_cons_of_neg (by simpa using seen)

theorem dropped_of_not_mem {entry : UInt32 × Closure} (unseen : entry.1 ∉ marked) :
    dropped marked (entry :: entries) = entry :: dropped marked entries := by
  have unmarked := Bool.eq_false_iff.mpr (mt Std.TreeSet.contains_iff_mem.mp unseen)
  exact List.filter_cons_of_pos (by rw [unmarked]; rfl)

/-- What a sweep leaves of an account and of the size of a heap. -/
structure Swept (before after : Collection × Heap) (dropped : List (UInt32 × Closure)) : Prop where
  marked : after.1.marked = before.1.marked
  swept : after.1.swept = before.1.swept + dropped.length
  freed : after.1.freed = before.1.freed + Int64.ofNat (charge dropped)
  size : after.2.size = before.2.size - Int64.ofNat (charge dropped)

theorem swept_sweep :
    Swept (account, heap) (sweep marked entries (account, heap)) (dropped marked entries) := by
  induction entries generalizing account heap with
  | nil => exact ⟨rfl, rfl, (Int64.add_zero _).symm, (Int64.sub_zero _).symm⟩
  | cons entry entries ih =>
      by_cases seen : entry.1 ∈ marked
      · rw [sweep_of_mem seen, dropped_of_mem seen]
        exact ih
      · rw [sweep_of_not_mem seen, dropped_of_not_mem seen]
        obtain ⟨counted, swept, freed, size⟩ := @ih
          { account with
            swept := account.swept + 1
            freed := account.freed + Int64.ofNat entry.2.footprint }
          { heap with
            objects := heap.objects.erase entry.1
            size := heap.size - Int64.ofNat entry.2.footprint }
        have charged : Int64.ofNat (charge (entry :: dropped marked entries)) =
            Int64.ofNat entry.2.footprint + Int64.ofNat (charge (dropped marked entries)) := by
          rw [← Int64.ofNat_add]
          rfl
        refine ⟨counted, ?_, ?_, ?_⟩
        · rw [swept, List.length_cons, Nat.add_assoc, Nat.add_comm 1]
        · rw [freed, charged, Int64.add_assoc]
        · rw [size, charged, Int64.sub_sub]

end Sweeping

/-! ## Collecting -/

/-- A collection with the given roots ends with this account and this heap, and both are exact. -/
structure ExactCollection (heap : Heap) (roots : List Value) (account : Collection)
    (kept : Heap) : Prop where
  /-- Exactly what the roots lead to is kept, with nothing changed in it. -/
  stored : ∀ (handle : UInt32) (closure : Closure), kept.objects[handle]? = some closure ↔
    heap.objects[handle]? = some closure ∧ heap.Reaches roots handle
  counted : account.marked + account.swept = heap.objects.size
  marked : account.marked = kept.objects.size
  freed : ∃ bytes, account.freed = Int64.ofNat bytes ∧
    footprint kept.objects + bytes = footprint heap.objects
  after : account.after = heap.size - account.freed
  size : kept.size = account.after
  next : kept.next = heap.next

section Collecting

variable (heap : Heap) (roots : List Value)

/-- The handles that a collection marks. -/
def marks : Marks :=
  heap.objects.mark Closure.handles ∅ (Value.handlesOf roots).reverse

/-- What a collection keeps and what it drops make up the heap. -/
theorem toList_collect_perm :
    ((heap.collect roots).2.objects.toList ++ dropped (heap.marks roots) heap.objects.toList).Perm
      heap.objects.toList := by
  have kept : (heap.collect roots).2.objects.toList.Perm
      (heap.objects.toList.filter fun entry => (heap.marks roots).contains entry.1) := by
    refine (List.perm_ext_iff_of_nodup (Table.nodup_toList _)
      ((Table.nodup_toList _).filter _)).mpr fun ⟨handle, closure⟩ => ?_
    rw [List.mem_filter, Std.TreeMap.mem_toList_iff_getElem?_eq_some,
      Std.TreeMap.mem_toList_iff_getElem?_eq_some, getElem?_collect_iff,
      Std.TreeSet.contains_iff_mem, marks, mem_collect_marks_iff]
    exact and_congr_right fun stored => (and_iff_right ⟨closure, stored⟩).symm
  exact (kept.append_right _).trans (List.filter_append_perm _ _)

theorem size_marks : (heap.marks roots).size = (heap.collect roots).2.objects.size := by
  refine Table.size_eq_of_mem_iff fun handle => ?_
  rw [marks, mem_collect_marks_iff, Std.TreeMap.mem_iff_isSome_getElem?, Option.isSome_iff_exists]
  simp only [getElem?_collect_iff, exists_and_right]

theorem exact_collect :
    heap.ExactCollection roots (heap.collect roots).1 (heap.collect roots).2 := by
  have split := heap.toList_collect_perm roots
  have swept := @swept_sweep (heap.marks roots) heap.objects.toList
    ⟨roots.length, (heap.marks roots).size, 0, 0, heap.size⟩ heap
  have freed : (heap.collect roots).1.freed =
      Int64.ofNat (charge (dropped (heap.marks roots) heap.objects.toList)) :=
    swept.freed.trans (Int64.zero_add _)
  have count : (heap.collect roots).1.swept =
      (dropped (heap.marks roots) heap.objects.toList).length :=
    swept.swept.trans (Nat.zero_add _)
  have marked : (heap.collect roots).1.marked = (heap.collect roots).2.objects.size :=
    swept.marked.trans (heap.size_marks roots)
  refine ⟨heap.getElem?_collect_iff roots, ?_, marked, ⟨_, freed, ?_⟩, ?_, rfl,
    next_collect heap roots⟩
  · rw [marked, count, ← Std.TreeMap.length_toList, ← List.length_append, split.length_eq,
      Std.TreeMap.length_toList]
  · rw [footprint, ← charge_append, charge_eq_of_perm split, footprint]
  · rw [freed]
    exact swept.size

end Collecting

/-! ## Along a life -/

/-- The account of a heap with a number of closures made so far. -/
structure Accounted (heap : Heap) (made : Nat) : Prop where
  size : heap.size = Int64.ofNat (footprint heap.objects)
  next : heap.next = UInt32.ofNat (made + 1)
  below : ∀ (handle : UInt32) (closure : Closure),
    heap.objects[handle]? = some closure → handle.toNat < made + 1

namespace Accounted

variable {heap : Heap} {made : Nat}

protected theorem new (threshold : Int) : (new threshold).Accounted 0 where
  size := rfl
  next := rfl
  below handle closure stored := by simp [Heap.new] at stored

theorem toNat_next (accounted : heap.Accounted made) (room : made + 1 < UInt32.size) :
    heap.next.toNat = made + 1 := by
  rw [accounted.next, UInt32.toNat_ofNat_of_lt' room]

/-- The counter is not in use. -/
theorem missing_next (accounted : heap.Accounted made) (room : made + 1 < UInt32.size) :
    heap.objects[heap.next]? = none := by
  refine Option.eq_none_iff_forall_ne_some.mpr fun closure stored => ?_
  have below := accounted.below heap.next closure stored
  rw [accounted.toNat_next room] at below
  exact Nat.lt_irrefl _ below

theorem footprint_alloc (accounted : heap.Accounted made) (room : made + 1 < UInt32.size)
    (closure : Closure) :
    footprint (heap.alloc closure).2.objects = closure.footprint + footprint heap.objects :=
  footprint_insert closure (accounted.missing_next room)

protected theorem alloc (accounted : heap.Accounted made) (room : made + 1 < UInt32.size)
    (closure : Closure) : (heap.alloc closure).2.Accounted (made + 1) where
  size := by
    rw [accounted.footprint_alloc room, Int64.ofNat_add, Int64.add_comm, ← accounted.size]
    rfl
  next := by rw [Heap.alloc, accounted.next, UInt32.ofNat_add (made + 1) 1]; rfl
  below handle other stored := by
    rw [Heap.alloc, Std.TreeMap.getElem?_insert] at stored
    split at stored
    · next same =>
        rw [Std.LawfulEqCmp.compare_eq_iff_eq] at same
        rw [← same, accounted.toNat_next room]
        exact Nat.lt_succ_self _
    · exact Nat.lt_succ_of_lt (accounted.below handle other stored)

protected theorem collect (accounted : heap.Accounted made) (roots : List Value) :
    (heap.collect roots).2.Accounted made where
  size := by
    have collected := heap.exact_collect roots
    obtain ⟨bytes, freed, whole⟩ := collected.freed
    rw [collected.size, collected.after, accounted.size, freed, ← whole, Int64.ofNat_add,
      Int64.add_sub_cancel]
  next := (next_collect heap roots).trans accounted.next
  below handle closure stored :=
    accounted.below handle closure ((getElem?_collect_iff heap roots handle closure).mp stored).1

/-- A run keeps the account up as long as the counter does not come round. -/
protected theorem after {operations : List Operation} (accounted : heap.Accounted made)
    (room : made + allocations operations < UInt32.size) :
    (heap.after operations).Accounted (made + allocations operations) := by
  induction operations generalizing heap made with
  | nil => exact accounted
  | cons operation rest ih =>
      cases operation with
      | alloc closure =>
          rw [allocations] at room ⊢
          rw [Nat.add_comm (allocations rest), ← Nat.add_assoc] at room ⊢
          exact ih (accounted.alloc (Nat.lt_of_le_of_lt (Nat.le_add_right _ _) room) closure) room
      | collect roots => exact ih (accounted.collect roots) room

theorem of_new (threshold : Int) {operations : List Operation}
    (few : allocations operations < UInt32.size) :
    ((new threshold).after operations).Accounted (allocations operations) := by
  have accounted := (Accounted.new threshold).after (by rwa [Nat.zero_add])
  rwa [Nat.zero_add] at accounted

/-- The size is the footprint, and so not negative, as long as a signed word holds it. -/
theorem size_iff (accounted : heap.Accounted made) :
    heap.size.toInt = footprint heap.objects ∧ 0 ≤ heap.size.toInt ↔
      footprint heap.objects < 2 ^ 63 := by
  rw [accounted.size]
  constructor
  · rintro ⟨same, -⟩
    have bound := Int64.toInt_lt (Int64.ofNat (footprint heap.objects))
    rw [same] at bound
    exact_mod_cast bound
  · intro small
    rw [Int64.toInt_ofNat_of_lt small]
    exact ⟨rfl, Int.natCast_nonneg _⟩

/-- The last allocation before the counter comes round leaves it at zero. -/
theorem next_eq_zero (accounted : heap.Accounted made) (full : made + 1 = UInt32.size) :
    heap.next = 0 := by
  rw [accounted.next, full]
  rfl

/-- The handles of what is stored are below the counter unless it has come round. -/
theorem below_iff (accounted : heap.Accounted made) (few : made < UInt32.size) :
    (∀ (handle : UInt32) (closure : Closure),
        heap.objects[handle]? = some closure → handle < heap.next) ↔
      heap.objects.isEmpty = true ∨ made + 1 < UInt32.size := by
  constructor
  · intro below
    rcases Nat.lt_or_eq_of_le few with room | full
    · exact .inr room
    · refine .inl (Std.TreeMap.isEmpty_iff_forall_not_mem.mpr fun handle stored => ?_)
      rw [Std.TreeMap.mem_iff_isSome_getElem?, Option.isSome_iff_exists] at stored
      obtain ⟨closure, stored⟩ := stored
      have lower := below handle closure stored
      rw [accounted.next_eq_zero full] at lower
      exact absurd lower UInt32.not_lt_zero
  · rintro (nothing | room) handle closure stored
    · have listed : handle ∈ heap.objects := by
        rw [Std.TreeMap.mem_iff_isSome_getElem?, stored]
        rfl
      exact absurd listed (Std.TreeMap.isEmpty_iff_forall_not_mem.mp nothing handle)
    · rw [UInt32.lt_iff_toNat_lt, accounted.toNat_next room]
      exact accounted.below handle closure stored

end Accounted

/-- What the account of a heap is worth behind a number of allocations. -/
structure Audited (heap : Heap) (made : Nat) : Prop where
  /-- The size is the footprint of what is stored, counted in sixty-four bits. -/
  counted : heap.size = Int64.ofNat (footprint heap.objects)
  /-- It is that number, and so not negative, as long as a signed word holds it. -/
  size_iff : heap.size.toInt = footprint heap.objects ∧ 0 ≤ heap.size.toInt ↔
    footprint heap.objects < 2 ^ 63
  /-- What is stored lies below the next handle, unless the counter has just come round. -/
  below_iff : (∀ (handle : UInt32) (closure : Closure),
      heap.objects[handle]? = some closure → handle < heap.next) ↔
    heap.objects.isEmpty = true ∨ made + 1 < UInt32.size

/-- Every collection is exact. In every life with fewer than 2 ^ 32 allocations the size is the
footprint of what is stored exactly as long as that is less than 2 ^ 63, and every stored closure
lies below the next handle unless there have been 2 ^ 32 - 1 allocations: then the next handle is
zero. -/
theorem collect_exact_and_audited (heap : Heap) (roots : List Value) (threshold : Int)
    (operations : List Operation) :
    heap.ExactCollection roots (heap.collect roots).1 (heap.collect roots).2 ∧
      (allocations operations < UInt32.size →
        ((new threshold).after operations).Audited (allocations operations)) := by
  refine ⟨heap.exact_collect roots, fun few => ?_⟩
  have accounted := Accounted.of_new threshold few
  exact ⟨accounted.size, accounted.size_iff, accounted.below_iff few⟩

/-- Two closures that capture each other and one apart from them, collected from roots of which
one is listed twice and one dangles. -/
def cyclicLife : List Operation :=
  [.alloc ⟨0, [.closure 2 0], 5⟩, .alloc ⟨0, [.closure 1 0], 9⟩, .alloc ⟨1, [.int 7], 13⟩,
    .collect [.closure 2 0, .closure 999 0, .closure 2 0]]

theorem collect_exact_and_audited_cyclicLife :
    allocations cyclicLife < UInt32.size ∧ ((new 0).after cyclicLife).Audited 3 ∧
      ((new 0).after cyclicLife).handles = [1, 2] ∧
      ((new 0).after cyclicLife).size.toInt = 50 ∧ ((new 0).after cyclicLife).next = 4 :=
  ⟨by decide, (collect_exact_and_audited (new 0) [] 0 cyclicLife).2 (by decide), by cbv, by cbv,
    by cbv⟩

/-! ## Lives that go wrong -/

theorem footprint_replicate (arity entry : UInt32) (value : Value) (count : Nat) :
    Closure.footprint ⟨arity, List.replicate count value, entry⟩ =
      16 + count * value.footprint := by
  have captured : (List.replicate count value).foldr
      (fun value total => value.footprint + total) 0 = count * value.footprint := by
    induction count with
    | zero => exact (Nat.zero_mul _).symm
    | succ count ih => rw [List.replicate_succ, List.foldr_cons, ih, Nat.succ_mul, Nat.add_comm]
  rw [Closure.footprint, captured]

theorem footprint_after_replicate (threshold : Int) (closure : Closure) {count : Nat}
    (few : count < UInt32.size) :
    footprint ((new threshold).after (List.replicate count (.alloc closure))).objects =
      count * closure.footprint := by
  induction count with
  | zero => exact (Nat.zero_mul _).symm
  | succ count ih =>
      have fewer : allocations (List.replicate count (.alloc closure)) < UInt32.size := by
        rw [allocations_replicate]
        exact Nat.lt_of_succ_lt few
      have accounted := Accounted.of_new threshold fewer
      rw [allocations_replicate] at accounted
      rw [List.replicate_succ', after_append, Nat.succ_mul, Nat.add_comm,
        ← ih (Nat.lt_of_succ_lt few)]
      exact accounted.footprint_alloc few closure

/-- A closure with 2 ^ 20 captures of a function whose name has 2 ^ 20 bytes. -/
def heavyClosure : Closure :=
  ⟨0, List.replicate 1048576 (.builtin (List.replicate 1048576 97) 0), 0⟩

/-- Behind 2 ^ 32 - 1 allocations the counter is below the closure made last, and 2 ^ 23 closures
can be so heavy that their size is negative. -/
theorem not_audited_lives :
    allocations (List.replicate 4294967295 (.alloc ⟨0, [], 0⟩)) < UInt32.size ∧
      (¬ ∀ (handle : UInt32) (closure : Closure),
        ((new 0).after (List.replicate 4294967295 (.alloc ⟨0, [], 0⟩))).objects[handle]? =
          some closure →
        handle < ((new 0).after (List.replicate 4294967295 (.alloc ⟨0, [], 0⟩))).next) ∧
      allocations (List.replicate 8388608 (.alloc heavyClosure)) < UInt32.size ∧
      ((new 0).after (List.replicate 8388608 (.alloc heavyClosure))).size.toInt < 0 := by
  have few : allocations (List.replicate 4294967295 (.alloc ⟨0, [], 0⟩)) < UInt32.size := by
    rw [allocations_replicate]
    decide
  have fewHeavy : allocations (List.replicate 8388608 (.alloc heavyClosure)) < UInt32.size := by
    rw [allocations_replicate]
    decide
  refine ⟨few, fun below => ?_, fewHeavy, ?_⟩
  · have accounted := Accounted.of_new 0 few
    rw [allocations_replicate] at accounted
    rcases (accounted.below_iff (by decide)).mp below with nothing | room
    · have bytes := @footprint_after_replicate 0 ⟨0, [], 0⟩ 4294967295 (by decide)
      rw [footprint, charge, List.isEmpty_iff.mp (Std.TreeMap.isEmpty_toList.trans nothing)]
        at bytes
      exact absurd bytes (by decide)
    · exact absurd room (by decide)
  · rw [(Accounted.of_new 0 fewHeavy).size, footprint_after_replicate 0 _ (by decide),
      heavyClosure, footprint_replicate, Value.footprint, List.length_replicate]
    decide

end Heap

end ClosureLisp
