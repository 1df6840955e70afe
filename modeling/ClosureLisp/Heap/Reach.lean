import Std.Data.TreeMap

/-!
# Reachability by handle

Objects are stored under handles and refer to each other by handle. `unreached` starts
from all objects and takes out each one that a work list leads to, directly or through
the references of objects taken out before. An object is followed at most once, so
cycles and dangling handles do no harm.
-/

namespace ClosureLisp

/-- Objects stored by handle. -/
abbrev Table (α : Type) := Std.TreeMap UInt32 α

namespace Table

variable {α : Type}

theorem size_erase_lt {table : Table α} {handle : UInt32} {object : α}
    (found : table[handle]? = some object) : (table.erase handle).size < table.size := by
  have present : table.contains handle = true := by
    rw [Std.TreeMap.contains_eq_isSome_getElem?, found]
    rfl
  have occupied := Std.TreeMap.isEmpty_eq_false_of_contains present
  rw [Std.TreeMap.isEmpty_eq_size_eq_zero, beq_eq_false_iff_ne] at occupied
  rw [Std.TreeMap.size_erase, if_pos present]
  omega

/-- The objects that no handle of the work list leads to. -/
def unreached (references : α → List UInt32) (table : Table α) : List UInt32 → Table α
  | [] => table
  | handle :: work =>
      match _found : table[handle]? with
      | none => unreached references table work
      | some object => unreached references (table.erase handle) (references object ++ work)
termination_by work => (table.size, work.length)
decreasing_by
  · exact Prod.Lex.right _ (Nat.lt_succ_self _)
  · exact Prod.Lex.left _ _ (size_erase_lt _found)

/-- The objects of a table that are not in another one. -/
def without (table dropped : Table α) : Table α :=
  table.filter fun handle _ => !dropped.contains handle

end Table

end ClosureLisp
