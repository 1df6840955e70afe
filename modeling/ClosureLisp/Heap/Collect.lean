import ClosureLisp.Heap.Basic
import Std.Data.TreeSet

/-!
# Collection

A collection marks the closures that a list of root values leads to through captures and then
sweeps the heap: whatever has not been marked is dropped. Nothing is dropped before all is marked.
Its account says how many closures there were of either sort and how many bytes were freed.
-/

namespace ClosureLisp

/-- Handles that have been marked. -/
abbrev Marks := Std.TreeSet UInt32

namespace Table

variable {α : Type}

/-- The number of objects that are not marked. -/
def unmarked (table : Table α) (marked : Marks) : Nat :=
  (table.keys.filter fun handle => !marked.contains handle).length

theorem unmarked_insert_lt {table : Table α} {marked : Marks} {handle : UInt32} {object : α}
    (unseen : ¬ marked.contains handle = true) (found : table[handle]? = some object) :
    table.unmarked (marked.insert handle) < table.unmarked marked := by
  have stored : handle ∈ table.keys := by
    rw [Std.TreeMap.mem_keys, Std.TreeMap.mem_iff_isSome_getElem?, found]
    rfl
  have fewer : (table.keys.filter fun other => !(marked.insert handle).contains other) =
      (table.keys.filter fun other => !marked.contains other).filter fun other =>
        !(marked.insert handle).contains other := by
    rw [List.filter_filter]
    refine List.filter_congr fun other _ => ?_
    rw [Std.TreeSet.contains_insert]
    cases compare handle other == .eq <;> simp
  rw [unmarked, unmarked, fewer, List.length_filter_lt_length_iff_exists]
  have listed : (!marked.contains handle) = true := by rw [Bool.eq_false_iff.mpr unseen]; rfl
  exact ⟨handle, List.mem_filter.mpr ⟨stored, listed⟩, by simp⟩

/-- Marks what a work list leads to. The first handle of the list is taken from it, and if there is
an object under it that has not been marked, this is marked and the handles that it refers to are
put in front of the list, the last one first. -/
def mark (references : α → List UInt32) (table : Table α) (marked : Marks) :
    List UInt32 → Marks
  | [] => marked
  | handle :: work =>
      if _seen : marked.contains handle = true then mark references table marked work
      else
        match _found : table[handle]? with
        | none => mark references table marked work
        | some object =>
            mark references table (marked.insert handle) ((references object).reverse ++ work)
termination_by work => (table.unmarked marked, work.length)
decreasing_by
  · exact Prod.Lex.right _ (Nat.lt_succ_self _)
  · exact Prod.Lex.right _ (Nat.lt_succ_self _)
  · exact Prod.Lex.left _ _ (unmarked_insert_lt _seen _found)

end Table

namespace Heap

/-- Goes through stored closures, drops each one that is not marked and notes its bytes. -/
def sweep (marked : Marks) : List (UInt32 × Closure) → Collection × Heap → Collection × Heap
  | [], done => done
  | (handle, closure) :: rest, (account, heap) =>
      if marked.contains handle then sweep marked rest (account, heap)
      else
        let bytes := Int64.ofNat closure.footprint
        sweep marked rest
          ({ account with swept := account.swept + 1, freed := account.freed + bytes },
            { heap with objects := heap.objects.erase handle, size := heap.size - bytes })

section Sweeping

variable {marked : Marks} {entry : UInt32 × Closure} {entries : List (UInt32 × Closure)}
  {account : Collection} {heap : Heap}

theorem sweep_of_mem (seen : entry.1 ∈ marked) :
    sweep marked (entry :: entries) (account, heap) = sweep marked entries (account, heap) := by
  rw [sweep, if_pos (Std.TreeSet.contains_iff_mem.mpr seen)]

theorem sweep_of_not_mem (unseen : entry.1 ∉ marked) :
    sweep marked (entry :: entries) (account, heap) =
      sweep marked entries
        ({ account with
            swept := account.swept + 1
            freed := account.freed + Int64.ofNat entry.2.footprint },
          { heap with
            objects := heap.objects.erase entry.1
            size := heap.size - Int64.ofNat entry.2.footprint }) := by
  rw [sweep, if_neg (mt Std.TreeSet.contains_iff_mem.mp unseen)]

@[simp]
theorem next_sweep : (sweep marked entries (account, heap)).2.next = heap.next := by
  induction entries generalizing account heap with
  | nil => rfl
  | cons entry entries ih =>
      by_cases seen : entry.1 ∈ marked
      · rw [sweep_of_mem seen, ih]
      · rw [sweep_of_not_mem seen, ih]

end Sweeping

/-- Drops every closure that is not reachable from the roots. -/
def collect (heap : Heap) (roots : List Value) : Collection × Heap :=
  let marked := heap.objects.mark Closure.handles ∅ (roots.filterMap Value.handle?).reverse
  let begun : Collection :=
    { roots := roots.length, marked := marked.size, swept := 0, freed := 0, after := heap.size }
  let (counted, swept) := sweep marked heap.objects.toList (begun, heap)
  let account := { counted with after := swept.size }
  (account, { swept with cycles := swept.cycles + 1, last := some account })

@[simp]
theorem next_collect (heap : Heap) (roots : List Value) :
    (heap.collect roots).2.next = heap.next :=
  next_sweep

end Heap

end ClosureLisp
