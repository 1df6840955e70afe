import ClosureLisp.Evaluator.Basic
import ClosureLisp.Heap.Collect

/-!
# What collections keep

`Table.Reaches` says which handles a work list leads to. Taking out what the work list leads
to leaves exactly the other objects, so a collection keeps an object if and only if its roots
lead to it. Both collectors are instances. `Table.SameFrom` compares two tables from a work list on,
and `Heap.SameFrom` two heaps from a value on: a collection changes nothing from its roots on.
-/

namespace ClosureLisp

namespace Table

variable {α : Type} {references : α → List UInt32} {table : Table α}

/-- The handles that a work list leads to, directly or through the references of objects. -/
inductive Reaches (references : α → List UInt32) (table : Table α) (work : List UInt32) :
    UInt32 → Prop where
  | root {handle : UInt32} (listed : handle ∈ work) : Reaches references table work handle
  | step {handle next : UInt32} {object : α} (reached : Reaches references table work handle)
      (found : table[handle]? = some object) (referred : next ∈ references object) :
      Reaches references table work next

namespace Reaches

theorem mono {work more : List UInt32} {handle : UInt32} (subset : work ⊆ more)
    (reached : Reaches references table work handle) : Reaches references table more handle := by
  induction reached with
  | root listed => exact .root (subset listed)
  | step _ found referred ih => exact .step ih found referred

theorem not_nil {handle : UInt32} : ¬ Reaches references table [] handle := by
  intro reached
  induction reached with
  | root listed => exact List.not_mem_nil listed
  | step _ _ _ ih => exact ih

/-- A handle without an object leads nowhere. -/
theorem cons_iff_of_none {first handle : UInt32} {work : List UInt32}
    (missing : table[first]? = none) :
    Reaches references table (first :: work) handle ↔
      handle = first ∨ Reaches references table work handle := by
  constructor
  · intro reached
    induction reached with
    | root listed => exact (List.mem_cons.mp listed).imp_right .root
    | step _ found referred ih =>
        rcases ih with rfl | reached
        · rw [missing] at found
          cases found
        · exact .inr (.step reached found referred)
  · rintro (rfl | reached)
    · exact .root List.mem_cons_self
    · exact reached.mono (List.subset_cons_self _ _)

/-- A handle with an object leads to itself and, without coming back, to where the references of
the object lead. -/
theorem cons_iff_of_some {first handle : UInt32} {work : List UInt32} {object : α}
    (present : table[first]? = some object) :
    Reaches references table (first :: work) handle ↔
      handle = first ∨
        Reaches references (table.erase first) (references object ++ work) handle := by
  constructor
  · intro reached
    induction reached with
    | root listed =>
        exact (List.mem_cons.mp listed).imp_right fun behind =>
          .root (List.mem_append_right _ behind)
    | @step middle next other _ found referred ih =>
        by_cases again : middle = first
        · subst again
          rw [present] at found
          cases found
          exact .inr (.root (List.mem_append_left _ referred))
        · rcases ih with same | reached
          · exact absurd same again
          · refine .inr (.step reached ?_ referred)
            rw [Std.TreeMap.getElem?_erase, if_neg (by simpa using fun same => again same.symm)]
            exact found
  · rintro (rfl | reached)
    · exact .root List.mem_cons_self
    · induction reached with
      | root listed =>
          rcases List.mem_append.mp listed with referred | behind
          · exact .step (.root List.mem_cons_self) present referred
          · exact .root (List.mem_cons_of_mem _ behind)
      | step _ found referred ih =>
          rw [Std.TreeMap.getElem?_erase] at found
          split at found
          · cases found
          · exact .step ih found referred

end Reaches

theorem unreached_cons_of_none {first : UInt32} {work : List UInt32}
    (missing : table[first]? = none) :
    table.unreached references (first :: work) = table.unreached references work := by
  rw [unreached]
  split
  · rfl
  · next present =>
      rw [missing] at present
      cases present

theorem unreached_cons_of_some {first : UInt32} {work : List UInt32} {object : α}
    (present : table[first]? = some object) :
    table.unreached references (first :: work) =
      Table.unreached references (table.erase first) (references object ++ work) := by
  rw [unreached]
  split
  · next missing =>
      rw [present] at missing
      cases missing
  · next found =>
      rw [present] at found
      cases found
      rfl

/-- Taking out what a work list leads to leaves exactly the other objects. -/
theorem getElem?_unreached_iff (table : Table α) (work : List UInt32) (handle : UInt32)
    (object : α) :
    (table.unreached references work)[handle]? = some object ↔
      table[handle]? = some object ∧ ¬ Reaches references table work handle := by
  induction table, work using unreached.induct references with
  | case1 table => simp [unreached, Reaches.not_nil]
  | case2 table first work missing ih =>
      rw [unreached_cons_of_none missing, ih, Reaches.cons_iff_of_none missing, not_or]
      constructor
      · rintro ⟨found, apart⟩
        refine ⟨found, ?_, apart⟩
        rintro rfl
        rw [missing] at found
        cases found
      · rintro ⟨found, _, apart⟩
        exact ⟨found, apart⟩
  | case3 table first work other present ih =>
      rw [unreached_cons_of_some present, ih, Reaches.cons_iff_of_some present, not_or,
        Std.TreeMap.getElem?_erase]
      by_cases same : handle = first
      · simp [same]
      · rw [if_neg (by simpa using fun equal => same equal.symm)]
        simp [same]

theorem getElem?_without_iff (table dropped : Table α) (handle : UInt32) (object : α) :
    (table.without dropped)[handle]? = some object ↔
      table[handle]? = some object ∧ dropped[handle]? = none := by
  rw [without, Std.TreeMap.getElem?_filter', Option.filter_eq_some_iff]
  rw [Bool.not_eq_true', Std.TreeMap.contains_eq_isSome_getElem?, Option.isSome_eq_false_iff,
    Option.isNone_iff_eq_none]

/-- What is kept when the objects that roots do not lead to are dropped. -/
theorem getElem?_kept_iff (table : Table α) (roots : List UInt32) (handle : UInt32)
    (object : α) :
    (table.without (table.unreached references roots))[handle]? = some object ↔
      table[handle]? = some object ∧ Reaches references table roots handle := by
  rw [getElem?_without_iff]
  constructor
  · rintro ⟨found, dropped⟩
    refine ⟨found, Classical.byContradiction fun unreached => ?_⟩
    rw [(getElem?_unreached_iff table roots handle object).mpr ⟨found, unreached⟩] at dropped
    cases dropped
  · rintro ⟨found, reached⟩
    refine ⟨found, Option.eq_none_iff_forall_ne_some.mpr fun other dropped => ?_⟩
    exact ((getElem?_unreached_iff table roots handle other).mp dropped).2 reached

namespace Reaches

variable {inner outer : List UInt32} {handle : UInt32}

/-- What one work list leads to, any other does that leads to all of it. -/
theorem of_led (led : ∀ first ∈ inner, Reaches references table outer first)
    (reached : Reaches references table inner handle) : Reaches references table outer handle := by
  induction reached with
  | root listed => exact led _ listed
  | step _ found referred ih => exact .step ih found referred

/-- A handle without an object can be left out of a work list: it leads to no object. -/
theorem of_led_or_missing {object : α}
    (led : ∀ first ∈ inner, first ∈ outer ∨ table[first]? = none)
    (reached : Reaches references table inner handle) (found : table[handle]? = some object) :
    Reaches references table outer handle := by
  induction reached generalizing object with
  | root listed =>
      rcases led _ listed with waiting | missing
      · exact .root waiting
      · cases missing.symm.trans found
  | step _ stored referred ih => exact .step (ih stored) stored referred

/-- A handle with an object leads to itself and to where the references of the object lead. -/
theorem singleton_cases {first : UInt32} {object : α} (stored : table[first]? = some object)
    (reached : Reaches references table [first] handle) :
    handle = first ∨ Reaches references table (references object) handle := by
  induction reached with
  | root listed => exact .inl (List.mem_singleton.mp listed)
  | step _ found referred ih =>
      rcases ih with rfl | reached
      · cases stored.symm.trans found
        exact .inr (.root referred)
      · exact .inr (.step reached found referred)

theorem append_cases (reached : Reaches references table (inner ++ outer) handle) :
    Reaches references table inner handle ∨ Reaches references table outer handle := by
  induction reached with
  | root listed => exact (List.mem_append.mp listed).imp .root .root
  | step _ found referred ih =>
      exact ih.imp (fun reached => .step reached found referred)
        fun reached => .step reached found referred

/-- Where a work list leads to after an object has been stored: where it led to before, to the new
object, or where the references of that led to before. -/
theorem insert_cases {object : α} {added : UInt32}
    (reached : Reaches references (table.insert added object) inner handle) :
    Reaches references table inner handle ∨ handle = added ∨
      Reaches references table (references object) handle := by
  induction reached with
  | root listed => exact .inl (.root listed)
  | @step middle next _ _ found referred ih =>
      rw [Std.TreeMap.getElem?_insert] at found
      split at found
      · cases found
        exact .inr (.inr (.root referred))
      · next other =>
          rcases ih with reached | rfl | reached
          · exact .inl (.step reached found referred)
          · exact absurd (by simp) other
          · exact .inr (.inr (.step reached found referred))

end Reaches

/-! ## Marking -/

section Marking

variable {marked : Marks} {work : List UInt32} {first handle : UInt32} {object : α}

theorem mark_cons_of_seen (seen : first ∈ marked) :
    table.mark references marked (first :: work) = table.mark references marked work := by
  rw [mark, dif_pos (Std.TreeSet.contains_iff_mem.mpr seen)]

theorem mark_cons_of_none (missing : table[first]? = none) :
    table.mark references marked (first :: work) = table.mark references marked work := by
  rw [mark]
  split
  · rfl
  · split
    · rfl
    · next present => cases missing.symm.trans present

theorem mark_cons_of_some (unseen : first ∉ marked) (present : table[first]? = some object) :
    table.mark references marked (first :: work) =
      table.mark references (marked.insert first) ((references object).reverse ++ work) := by
  rw [mark, dif_neg (mt Std.TreeSet.contains_iff_mem.mp unseen)]
  split
  · next missing => cases missing.symm.trans present
  · next found =>
      cases found.symm.trans present
      rfl

variable (references table) in
/-- The cases of marking: the first handle of the work list is left out, because it has been marked
or nothing is stored under it, or it is marked. -/
theorem mark_induction {holds : Marks → List UInt32 → Prop} (nil : ∀ marked, holds marked [])
    (skip : ∀ marked first work, first ∈ marked ∨ table[first]? = none →
      table.mark references marked (first :: work) = table.mark references marked work →
      holds marked work → holds marked (first :: work))
    (visit : ∀ marked first object work, first ∉ marked → table[first]? = some object →
      table.mark references marked (first :: work) =
        table.mark references (marked.insert first) ((references object).reverse ++ work) →
      holds (marked.insert first) ((references object).reverse ++ work) →
      holds marked (first :: work))
    (marked : Marks) (work : List UInt32) : holds marked work := by
  induction marked, work using mark.induct references table with
  | case1 marked => exact nil marked
  | case2 marked first work seen ih =>
      have seen := Std.TreeSet.contains_iff_mem.mp seen
      exact skip marked first work (.inl seen) (mark_cons_of_seen seen) ih
  | case3 marked first work _ missing ih =>
      exact skip marked first work (.inr missing) (mark_cons_of_none missing) ih
  | case4 marked first work unseen object present ih =>
      have unseen := mt Std.TreeSet.contains_iff_mem.mpr unseen
      exact visit marked first object work unseen present (mark_cons_of_some unseen present) ih

/-- Only what the work list leads to is marked. -/
theorem reaches_of_mem_mark (listed : handle ∈ table.mark references marked work) :
    handle ∈ marked ∨ (∃ object, table[handle]? = some object) ∧
      Reaches references table work handle := by
  induction marked, work using mark_induction references table with
  | nil marked =>
      rw [mark] at listed
      exact .inl listed
  | skip marked first work _ same ih =>
      rw [same] at listed
      exact (ih listed).imp_right (And.imp_right (Reaches.mono (List.subset_cons_self _ _)))
  | visit marked first object work _ present same ih =>
      rw [same] at listed
      have root : Reaches references table (first :: work) first := .root List.mem_cons_self
      rcases ih listed with before | ⟨stored, reached⟩
      · rcases Std.TreeSet.mem_insert.mp before with equal | before
        · obtain rfl := Std.LawfulEqCmp.eq_of_compare equal
          exact .inr ⟨⟨object, present⟩, root⟩
        · exact .inl before
      · refine .inr ⟨stored, reached.of_led fun next waits => ?_⟩
        rcases List.mem_append.mp waits with referred | behind
        · exact .step root present (List.mem_reverse.mp referred)
        · exact .root (List.mem_cons_of_mem _ behind)

/-- Marked objects refer only to handles that are marked, wait in the work list or have no
object. -/
def Closed (references : α → List UInt32) (table : Table α) (marked : Marks)
    (work : List UInt32) : Prop :=
  ∀ {handle : UInt32} {object : α}, handle ∈ marked → table[handle]? = some object →
    ∀ next ∈ references object, next ∈ marked ∨ next ∈ work ∨ table[next]? = none

/-- Whatever is marked or waits is marked in the end, and then the marked objects refer only to
marked ones. -/
theorem closed_mark (closed : Closed references table marked work) :
    Closed references table (table.mark references marked work) [] ∧
      ∀ {handle : UInt32} {object : α}, handle ∈ marked ∨ handle ∈ work →
        table[handle]? = some object → handle ∈ table.mark references marked work := by
  induction marked, work using mark_induction references table with
  | nil marked =>
      rw [mark]
      exact ⟨closed, fun known _ => known.resolve_right List.not_mem_nil⟩
  | skip marked first work known same ih =>
      rw [same]
      have later : Closed references table marked work := by
        intro handle object seen present next referred
        rcases closed seen present next referred with before | waits | missing
        · exact .inl before
        · rcases List.mem_cons.mp waits with rfl | behind
          · exact known.imp_right .inr
          · exact .inr (.inl behind)
        · exact .inr (.inr missing)
      refine ⟨(ih later).1, fun waits present => (ih later).2 ?_ present⟩
      rcases waits with before | waits
      · exact .inl before
      · rcases List.mem_cons.mp waits with rfl | behind
        · exact .inl (known.resolve_right fun missing => by cases missing.symm.trans present)
        · exact .inr behind
  | visit marked first object work unseen present same ih =>
      rw [same]
      have kept : ∀ {handle : UInt32}, handle ∈ marked ∨ handle ∈ first :: work →
          handle ∈ marked.insert first ∨ handle ∈ (references object).reverse ++ work := by
        intro handle known
        rcases known with before | waits
        · exact .inl (Std.TreeSet.mem_insert.mpr (.inr before))
        · rcases List.mem_cons.mp waits with rfl | behind
          · exact .inl Std.TreeSet.mem_insert_self
          · exact .inr (List.mem_append_right _ behind)
      have later : Closed references table (marked.insert first)
          ((references object).reverse ++ work) := by
        intro handle other seen found next referred
        rcases Std.TreeSet.mem_insert.mp seen with equal | before
        · obtain rfl := Std.LawfulEqCmp.eq_of_compare equal
          cases present.symm.trans found
          exact .inr (.inl (List.mem_append_left _ (List.mem_reverse.mpr referred)))
        · rw [← or_assoc]
          rcases closed before found next referred with before | waits | missing
          · exact .inl (kept (.inl before))
          · exact .inl (kept (.inr waits))
          · exact .inr missing
      exact ⟨(ih later).1, fun known => (ih later).2 (kept known)⟩

/-- From nothing marked, exactly the objects that the work list leads to are marked. -/
theorem mem_mark_iff (references : α → List UInt32) (table : Table α) (work : List UInt32)
    (handle : UInt32) :
    handle ∈ table.mark references ∅ work ↔
      (∃ object, table[handle]? = some object) ∧ Reaches references table work handle := by
  constructor
  · intro listed
    exact (reaches_of_mem_mark listed).resolve_left Std.TreeSet.not_mem_emptyc
  · rintro ⟨⟨object, stored⟩, reached⟩
    have nothing : Closed references table ∅ work :=
      fun seen => absurd seen Std.TreeSet.not_mem_emptyc
    obtain ⟨closed, marks⟩ := closed_mark nothing
    induction reached generalizing object with
    | root listed => exact marks (.inr listed) stored
    | step _ found referred ih =>
        rcases closed (ih _ found) found _ referred with seen | waits | missing
        · exact seen
        · exact absurd waits List.not_mem_nil
        · cases missing.symm.trans stored

end Marking

/-! ## Tables that agree from a work list on -/

/-- Two tables hold the same objects, or none, wherever a work list leads. -/
def SameFrom (references : α → List UInt32) (left right : Table α) (work : List UInt32) : Prop :=
  ∀ handle, Reaches references left work handle → left[handle]? = right[handle]?

namespace SameFrom

variable {left middle right : Table α} {work more : List UInt32} {handle : UInt32} {object : α}

/-- A work list leads to the same handles in both tables. -/
theorem reaches_iff (same : SameFrom references left right work) :
    Reaches references left work handle ↔ Reaches references right work handle := by
  constructor
  · intro reached
    induction reached with
    | root listed => exact .root listed
    | step reached found referred ih => exact .step ih (same _ reached ▸ found) referred
  · intro reached
    induction reached with
    | root listed => exact .root listed
    | step _ found referred ih => exact .step ih ((same _ ih).trans found) referred

theorem symm (same : SameFrom references left right work) : SameFrom references right left work :=
  fun handle reached => (same handle (same.reaches_iff.mpr reached)).symm

theorem trans (first : SameFrom references left middle work)
    (second : SameFrom references middle right work) : SameFrom references left right work :=
  fun handle reached => (first handle reached).trans (second handle (first.reaches_iff.mp reached))

/-- Tables agree from all on that is led to where they agree. -/
theorem of_led (same : SameFrom references left right work)
    (led : ∀ first ∈ more, Reaches references left work first) :
    SameFrom references left right more :=
  fun handle reached => same handle (reached.of_led led)

theorem append (first : SameFrom references left right work)
    (second : SameFrom references left right more) :
    SameFrom references left right (work ++ more) := by
  intro handle reached
  rcases reached.append_cases with inner | outer
  · exact first handle inner
  · exact second handle outer

/-- Tables that agree from a handle on agree from the references of its object on. -/
theorem references_of (same : SameFrom references left right [handle])
    (stored : left[handle]? = some object) : SameFrom references left right (references object) :=
  same.of_led fun _ referred => .step (.root (List.mem_singleton_self handle)) stored referred

/-- What is kept is what was there, from the roots on. -/
theorem kept (table : Table α) (roots : List UInt32) :
    SameFrom references table (table.without (table.unreached references roots)) roots := by
  intro handle reached
  refine Option.ext fun object => ?_
  rw [getElem?_kept_iff]
  exact ⟨fun found => ⟨found, reached⟩, And.left⟩

/-- Tables that agree still do so after the same object has been stored in both, be it in the place
of an old one. -/
theorem insert (same : SameFrom references left right work) (added : UInt32)
    (referred : SameFrom references left right (references object)) :
    SameFrom references (left.insert added object) (right.insert added object) work := by
  intro handle reached
  rw [Std.TreeMap.getElem?_insert, Std.TreeMap.getElem?_insert]
  split
  · rfl
  · next other =>
      rcases reached.insert_cases with reached | rfl | reached
      · exact same handle reached
      · exact absurd (by simp) other
      · exact referred handle reached

/-- They then agree from the new object on. -/
theorem insert_self (added : UInt32)
    (referred : SameFrom references left right (references object)) :
    SameFrom references (left.insert added object) (right.insert added object) [added] := by
  intro handle reached
  rcases reached.singleton_cases Std.TreeMap.getElem?_insert_self with rfl | behind
  · rw [Std.TreeMap.getElem?_insert_self, Std.TreeMap.getElem?_insert_self]
  · exact referred.insert added referred handle behind

end SameFrom

end Table

/-- The handles among values. -/
def Value.handlesOf (values : List Value) : List UInt32 :=
  values.filterMap Value.handle?

theorem Value.mem_handlesOf {values : List Value} {handle : UInt32} :
    handle ∈ handlesOf values ↔ ∃ arity, .closure handle arity ∈ values := by
  simp only [handlesOf, List.mem_filterMap]
  constructor
  · rintro ⟨value, listed, held⟩
    cases value with
    | closure found arity =>
        cases held
        exact ⟨arity, listed⟩
    | _ => cases held
  · rintro ⟨arity, listed⟩
    exact ⟨.closure handle arity, listed, rfl⟩

namespace Heap

/-- The handles that values lead to in a heap. -/
def Reaches (heap : Heap) (values : List Value) (handle : UInt32) : Prop :=
  heap.objects.Reaches Closure.handles (Value.handlesOf values) handle

section Collecting

variable {marked : Marks} {entries : List (UInt32 × Closure)} {account : Collection} {heap : Heap}

/-- Sweeping drops the closures that it goes through and that are not marked. -/
theorem getElem?_sweep_iff {handle : UInt32} {closure : Closure} :
    (sweep marked entries (account, heap)).2.objects[handle]? = some closure ↔
      heap.objects[handle]? = some closure ∧
        (handle ∈ marked ∨ handle ∉ entries.map Prod.fst) := by
  induction entries generalizing account heap with
  | nil => simp [sweep]
  | cons entry entries ih =>
      by_cases seen : entry.1 ∈ marked
      · rw [sweep_of_mem seen, ih]
        refine and_congr_right fun _ => ?_
        by_cases same : handle = entry.1
        · simp [same, seen]
        · simp [same]
      · rw [sweep_of_not_mem seen, ih, Std.TreeMap.getElem?_erase]
        by_cases same : handle = entry.1
        · simp [same, seen]
        · rw [if_neg (by simpa using Ne.symm same)]
          simp [same]

theorem mem_collect_marks_iff (heap : Heap) (roots : List Value) (handle : UInt32) :
    handle ∈ heap.objects.mark Closure.handles ∅ (Value.handlesOf roots).reverse ↔
      (∃ closure, heap.objects[handle]? = some closure) ∧ heap.Reaches roots handle := by
  rw [Table.mem_mark_iff]
  exact and_congr_right fun _ => ⟨Table.Reaches.mono fun _ => List.mem_reverse.mp,
    Table.Reaches.mono fun _ => List.mem_reverse.mpr⟩

/-- A collection keeps exactly the closures that its roots lead to. -/
theorem getElem?_collect_iff (heap : Heap) (roots : List Value) (handle : UInt32)
    (closure : Closure) :
    (heap.collect roots).2.objects[handle]? = some closure ↔
      heap.objects[handle]? = some closure ∧ heap.Reaches roots handle := by
  have kept := @getElem?_sweep_iff
    (heap.objects.mark Closure.handles ∅ (Value.handlesOf roots).reverse) heap.objects.toList
  refine kept.trans (and_congr_right fun stored => ?_)
  rw [mem_collect_marks_iff, Std.TreeMap.map_fst_toList_eq_keys, Std.TreeMap.mem_keys,
    Std.TreeMap.mem_iff_isSome_getElem?, stored]
  simp

end Collecting

/-! ## Heaps that agree from a value on -/

/-- Two heaps hold the same closures, or none, wherever a value leads. -/
def SameFrom (left right : Heap) (value : Value) : Prop :=
  ∀ handle, left.Reaches [value] handle → left.objects[handle]? = right.objects[handle]?

section Reaching

variable {heap : Heap} {inner outer : List Value} {value : Value} {handle : UInt32}

theorem Reaches.of_mem (listed : value ∈ outer) (reached : heap.Reaches [value] handle) :
    heap.Reaches outer handle := by
  refine Table.Reaches.of_led (fun first held => ?_) reached
  obtain ⟨arity, member⟩ := Value.mem_handlesOf.mp held
  rw [← List.mem_singleton.mp member] at listed
  exact .root (Value.mem_handlesOf.mpr ⟨arity, listed⟩)

/-- What values lead to, one of them leads to. -/
theorem Reaches.exists_mem (reached : heap.Reaches outer handle) :
    ∃ value ∈ outer, heap.Reaches [value] handle := by
  induction reached with
  | root listed =>
      obtain ⟨arity, member⟩ := Value.mem_handlesOf.mp listed
      exact ⟨_, member, .root (Value.mem_handlesOf.mpr ⟨arity, List.mem_singleton_self _⟩)⟩
  | step _ found referred ih =>
      obtain ⟨value, listed, reached⟩ := ih
      exact ⟨value, listed, .step reached found referred⟩

/-- Only a closure leads anywhere. -/
theorem not_reaches_of_handle? (constant : value.handle? = none) :
    ¬ heap.Reaches [value] handle := by
  intro reached
  rw [Reaches, Value.handlesOf, List.filterMap_cons_none constant] at reached
  exact Table.Reaches.not_nil reached

theorem reaches_closure (heap : Heap) (handle : UInt32) (arity : Int) :
    heap.Reaches [.closure handle arity] handle :=
  .root (Value.mem_handlesOf.mpr ⟨arity, List.mem_singleton_self _⟩)

end Reaching

namespace SameFrom

variable {left middle right : Heap} {value : Value} {handle : UInt32}

theorem refl (heap : Heap) (value : Value) : heap.SameFrom heap value :=
  fun _ _ => rfl

theorem of_handle? (constant : value.handle? = none) : left.SameFrom right value :=
  fun _ reached => absurd reached (not_reaches_of_handle? constant)

/-- A value leads to the same handles in both heaps. -/
theorem reaches_iff (same : left.SameFrom right value) :
    left.Reaches [value] handle ↔ right.Reaches [value] handle :=
  Table.SameFrom.reaches_iff same

theorem symm (same : left.SameFrom right value) : right.SameFrom left value :=
  Table.SameFrom.symm same

theorem trans (first : left.SameFrom middle value) (second : middle.SameFrom right value) :
    left.SameFrom right value :=
  Table.SameFrom.trans first second

/-- Both heaps hold the same closure under the handle of a closure value. -/
theorem get {arity : Int} (same : left.SameFrom right (.closure handle arity)) :
    right.get handle = left.get handle := by
  rw [Heap.get, Heap.get, same handle (left.reaches_closure handle arity)]

/-- Heaps that agree from a closure on agree from its captures on. -/
theorem capture {arity : Int} {closure : Closure} {captured : Value}
    (same : left.SameFrom right (.closure handle arity))
    (stored : left.objects[handle]? = some closure) (listed : captured ∈ closure.captures) :
    left.SameFrom right captured :=
  fun _ reached => Table.SameFrom.references_of same stored _ (reached.of_mem listed)

/-- A collection changes nothing from its roots on. -/
theorem collect (heap : Heap) {roots : List Value} (listed : value ∈ roots) :
    heap.SameFrom (heap.collect roots).2 value := by
  intro handle reached
  refine Option.ext fun closure => ?_
  rw [getElem?_collect_iff]
  exact (and_iff_left (reached.of_mem listed)).symm

/-- Heaps that agree from the captures of a closure on agree from all of them on. -/
theorem captures {closure : Closure}
    (captured : ∀ value ∈ closure.captures, left.SameFrom right value) :
    Table.SameFrom Closure.handles left.objects right.objects closure.handles := by
  intro handle reached
  obtain ⟨value, listed, reached⟩ := Reaches.exists_mem reached
  exact captured value listed handle reached

/-- Heaps that agree still do so after the same closure has been made in both. The new closure may
take the place of an old one, once all handles have been given out. -/
theorem alloc {closure : Closure} (same : left.SameFrom right value)
    (next : right.next = left.next)
    (captured : ∀ value ∈ closure.captures, left.SameFrom right value) :
    (left.alloc closure).2.SameFrom (right.alloc closure).2 value := by
  change Table.SameFrom _ (left.objects.insert left.next closure)
    (right.objects.insert right.next closure) _
  rw [next]
  exact Table.SameFrom.insert same left.next (captures captured)

theorem alloc_next {closure : Closure} (next : right.next = left.next)
    (captured : ∀ value ∈ closure.captures, left.SameFrom right value) (arity : Int) :
    (left.alloc closure).2.SameFrom (right.alloc closure).2 (.closure left.next arity) := by
  change Table.SameFrom _ (left.objects.insert left.next closure)
    (right.objects.insert right.next closure) [left.next]
  rw [next]
  exact Table.SameFrom.insert_self left.next (captures captured)

end SameFrom

section Values

variable {left right : Heap} {values : List Value} {handle : UInt32}

/-- Heaps that agree from some values on hold the same closures wherever these lead. -/
theorem getElem?_of_sameFrom (same : ∀ value ∈ values, left.SameFrom right value)
    (reached : left.Reaches values handle) : left.objects[handle]? = right.objects[handle]? := by
  obtain ⟨value, listed, reached⟩ := reached.exists_mem
  exact same value listed handle reached

theorem reaches_iff_of_sameFrom (same : ∀ value ∈ values, left.SameFrom right value) :
    left.Reaches values handle ↔ right.Reaches values handle := by
  constructor
  · intro reached
    obtain ⟨value, listed, reached⟩ := reached.exists_mem
    exact ((same value listed).reaches_iff.mp reached).of_mem listed
  · intro reached
    obtain ⟨value, listed, reached⟩ := reached.exists_mem
    exact ((same value listed).reaches_iff.mpr reached).of_mem listed

end Values

end Heap

theorem Environment.mem_handles_iff {environment : Environment} {handle : UInt32} :
    handle ∈ environment.handles ↔
      ∃ scope ∈ environment, ∃ name arity, (name, .closure handle arity) ∈ scope := by
  rw [handles, List.mem_flatMap]
  refine exists_congr fun scope => and_congr_right fun _ => ?_
  rw [List.mem_filterMap]
  constructor
  · rintro ⟨⟨name, value⟩, listed, held⟩
    cases value with
    | closure found arity =>
        cases held
        exact ⟨name, arity, listed⟩
    | _ => cases held
  · rintro ⟨name, arity, listed⟩
    exact ⟨_, listed, rfl⟩

/-- The handles in the environment of a call are those of the arguments, that of the function
called and those around it. -/
theorem Function.mem_handles_enter {function : Function} {handle other : UInt32} {arity : Int}
    {arguments : List Value}
    (listed : other ∈
      Environment.handles (function.scope (.closure handle arity) arguments ::
        function.environment)) :
    other ∈ Value.handlesOf arguments ∨ other = handle ∨ other ∈ function.handles := by
  obtain ⟨scope, enclosing, name, otherArity, bound⟩ := Environment.mem_handles_iff.mp listed
  rcases List.mem_cons.mp enclosing with rfl | outside
  · rcases List.mem_append.mp bound with argument | own
    · exact .inl (Value.mem_handlesOf.mpr ⟨otherArity, (List.of_mem_zip argument).2⟩)
    · split at own
      · cases own
      · split at own
        · cases own
        · cases List.mem_singleton.mp own
          exact .inr (.inl rfl)
  · exact .inr (.inr (Environment.mem_handles_iff.mpr
      ⟨scope, outside, name, otherArity, bound⟩))

namespace Evaluator

/-- A collection of the evaluator keeps exactly the functions that the globals and the kept values
lead to. -/
theorem getElem?_collect_iff (evaluator : Evaluator) (keep : List Value) (handle : UInt32)
    (function : Function) :
    (evaluator.collect keep).2.functions[handle]? = some function ↔
      evaluator.functions[handle]? = some function ∧
        evaluator.functions.Reaches Function.handles
          (Value.handlesOf (evaluator.globals.map Prod.snd ++ keep)) handle :=
  Table.getElem?_kept_iff evaluator.functions _ handle function

end Evaluator

end ClosureLisp
