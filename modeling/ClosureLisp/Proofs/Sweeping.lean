import ClosureLisp.Proofs.Collections

/-!
# Walking along shared environments

A collection of the evaluator keeps the functions that are in reach: from the globals and the kept
values through all bindings of the environments that functions were made in. Environments are
shared, and it is enough to go through each of their scopes once: `mark` stops in an environment
where it has been before. It misses nothing, since all that is bound from there on outwards is in
its work list or has been marked.
-/

namespace ClosureLisp

namespace Evaluator

/-! ## Values in reach -/

/-- A value is in reach if a global has it, if it is kept, or if any scope of the environment of a
function in reach binds it. -/
inductive InReach (evaluator : Evaluator) (keep : List Value) : Value → Prop where
  | global {name : Name} {value : Value} (listed : (name, value) ∈ evaluator.globals) :
      InReach evaluator keep value
  | kept {value : Value} (listed : value ∈ keep) : InReach evaluator keep value
  | bound {handle : UInt32} {arity : Int} {function : Function} {scope : Scope} {name : Name}
      {value : Value} (reached : InReach evaluator keep (.closure handle arity))
      (stored : evaluator.functions[handle]? = some function)
      (enclosing : scope ∈ function.environment) (listed : (name, value) ∈ scope) :
      InReach evaluator keep value

variable {evaluator : Evaluator} {keep : List Value} {handle : UInt32}

/-- The handles that the globals and the kept values lead to are those of the functions in reach. -/
theorem reaches_iff_inReach :
    evaluator.functions.Reaches Function.handles
        (Value.handlesOf (evaluator.globals.map Prod.snd ++ keep)) handle ↔
      ∃ arity, InReach evaluator keep (.closure handle arity) := by
  constructor
  · intro reached
    induction reached with
    | root listed =>
        obtain ⟨arity, member⟩ := Value.mem_handlesOf.mp listed
        rcases List.mem_append.mp member with global | kept
        · obtain ⟨⟨name, value⟩, defined, rfl⟩ := List.mem_map.mp global
          exact ⟨arity, .global defined⟩
        · exact ⟨arity, .kept kept⟩
    | step _ stored referred ih =>
        obtain ⟨arity, reached⟩ := ih
        obtain ⟨scope, enclosing, name, innerArity, listed⟩ :=
          Environment.mem_handles_iff.mp referred
        exact ⟨innerArity, .bound reached stored enclosing listed⟩
  · rintro ⟨arity, reached⟩
    generalize held : Value.closure handle arity = value at reached
    induction reached generalizing handle arity with
    | global listed =>
        subst held
        exact .root (Value.mem_handlesOf.mpr
          ⟨arity, List.mem_append_left _ (List.mem_map_of_mem listed)⟩)
    | kept listed =>
        subst held
        exact .root (Value.mem_handlesOf.mpr ⟨arity, List.mem_append_right _ listed⟩)
    | bound _ stored enclosing listed ih =>
        subst held
        exact .step (ih _ rfl) stored
          (Environment.mem_handles_iff.mpr ⟨_, enclosing, _, arity, listed⟩)

/-! ## Shared environments -/

/-- How the functions of a table share their environments: every function has a chain of nodes with
the scopes of its environment, and a node has one scope and one chain outwards from it, whichever
chain it is met in. -/
structure Sharing (Node : Type) (functions : Table Function) where
  chain : UInt32 → List (Node × Scope)
  unfolds : ∀ {handle : UInt32} {function : Function}, functions[handle]? = some function →
    (chain handle).map Prod.snd = function.environment
  agrees : ∀ {first second : UInt32} {node : Node} {scope other : Scope}
    {outer further : List (Node × Scope)},
    (node, scope) :: outer <:+ chain first → (node, other) :: further <:+ chain second →
      scope = other ∧ outer = further

section Marking

variable {Node : Type} [DecidableEq Node]

/-- What is bound along a chain up to the first node that has been seen, and the nodes that have
been seen then. -/
def scan (seen : List Node) : List (Node × Scope) → List Value × List Node
  | [] => ([], seen)
  | (node, scope) :: outer =>
      if node ∈ seen then ([], seen)
      else
        let (values, seen) := scan (node :: seen) outer
        (scope.map Prod.snd ++ values, seen)

/-- The functions that a work list does not lead to. Each function that it leads to is marked by
taking it out, and its chain is scanned. -/
def mark (chain : UInt32 → List (Node × Scope)) (unmarked : Table Function) (seen : List Node) :
    List Value → Table Function
  | [] => unmarked
  | value :: work =>
      match value.handle? with
      | none => mark chain unmarked seen work
      | some handle =>
          match _found : unmarked[handle]? with
          | none => mark chain unmarked seen work
          | some _ =>
              let (values, seen) := scan seen (chain handle)
              mark chain (unmarked.erase handle) seen (values ++ work)
termination_by work => (unmarked.size, work.length)
decreasing_by
  · exact Prod.Lex.right _ (Nat.lt_succ_self _)
  · exact Prod.Lex.right _ (Nat.lt_succ_self _)
  · exact Prod.Lex.left _ _ (Table.size_erase_lt _found)

section Equations

variable {chain : UInt32 → List (Node × Scope)} {unmarked : Table Function} {seen : List Node}
  {value : Value} {work : List Value}

theorem mark_cons_of_constant (constant : value.handle? = none) :
    mark chain unmarked seen (value :: work) = mark chain unmarked seen work := by
  rw [mark, constant]

theorem mark_cons_of_none (held : value.handle? = some handle)
    (missing : unmarked[handle]? = none) :
    mark chain unmarked seen (value :: work) = mark chain unmarked seen work := by
  rw [mark, held]
  dsimp only
  split
  · rfl
  · next present =>
      rw [missing] at present
      cases present

theorem mark_cons_of_some {function : Function} (held : value.handle? = some handle)
    (present : unmarked[handle]? = some function) :
    mark chain unmarked seen (value :: work) =
      mark chain (unmarked.erase handle) (scan seen (chain handle)).2
        ((scan seen (chain handle)).1 ++ work) := by
  rw [mark, held]
  dsimp only
  split
  · next missing =>
      rw [present] at missing
      cases missing
  · rfl

end Equations

/-- The handles that are bound along a chain. -/
def boundIn (chain : List (Node × Scope)) : List UInt32 :=
  Environment.handles (chain.map Prod.snd)

omit [DecidableEq Node] in
theorem boundIn_cons (node : Node) (scope : Scope) (outer : List (Node × Scope)) :
    boundIn ((node, scope) :: outer) =
      Value.handlesOf (scope.map Prod.snd) ++ boundIn outer := by
  rw [boundIn, List.map_cons, Environment.handles, List.flatMap_cons, Value.handlesOf,
    List.filterMap_map]
  rfl

omit [DecidableEq Node] in
theorem boundIn_subset {inner chain : List (Node × Scope)} (suffix : inner <:+ chain) :
    ∀ handle ∈ boundIn inner, handle ∈ boundIn chain := by
  obtain ⟨front, rfl⟩ := suffix
  intro handle bound
  rw [boundIn, List.map_append, Environment.handles, List.flatMap_append]
  exact List.mem_append_right _ bound

theorem handlesOf_append (first second : List Value) :
    Value.handlesOf (first ++ second) = Value.handlesOf first ++ Value.handlesOf second :=
  List.filterMap_append

/-- Only what is bound along a chain is found there. -/
theorem mem_boundIn_of_scan {seen : List Node} {chain : List (Node × Scope)}
    (found : handle ∈ Value.handlesOf (scan seen chain).1) : handle ∈ boundIn chain := by
  induction chain generalizing seen with
  | nil => cases found
  | cons first outer ih =>
      obtain ⟨node, scope⟩ := first
      rw [scan] at found
      split at found
      · cases found
      · rw [handlesOf_append] at found
        rw [boundIn_cons]
        exact List.mem_append.mpr ((List.mem_append.mp found).imp_right ih)

/-- Nodes are seen because they have been before, or because they are on the chain. -/
theorem seen_of_scan {seen : List Node} {chain : List (Node × Scope)} {node : Node}
    (found : node ∈ (scan seen chain).2) :
    node ∈ seen ∨ ∃ scope outer, (node, scope) :: outer <:+ chain := by
  induction chain generalizing seen with
  | nil => exact .inl found
  | cons first outer ih =>
      obtain ⟨own, scope⟩ := first
      rw [scan] at found
      split at found
      · exact .inl found
      · rcases ih found with listed | ⟨inner, further, suffix⟩
        · rcases List.mem_cons.mp listed with rfl | before
          · exact .inr ⟨scope, outer, List.suffix_rfl⟩
          · exact .inl before
        · exact .inr ⟨inner, further, suffix.trans (List.suffix_cons _ _)⟩

/-- What is bound along a chain is found, apart from what is bound from a node that has been seen
before. -/
theorem mem_scan_of_boundIn {seen : List Node} {chain : List (Node × Scope)}
    {known : UInt32 → Prop} (distinct : (chain.map Prod.fst).Nodup)
    (covered : ∀ node scope outer, (node, scope) :: outer <:+ chain → node ∈ seen →
      ∀ handle ∈ boundIn ((node, scope) :: outer), known handle)
    (bound : handle ∈ boundIn chain) :
    handle ∈ Value.handlesOf (scan seen chain).1 ∨ known handle := by
  induction chain generalizing seen with
  | nil => cases bound
  | cons first outer ih =>
      obtain ⟨own, scope⟩ := first
      obtain ⟨once, distinct⟩ := List.nodup_cons.mp distinct
      rw [scan]
      split
      · next before => exact .inr (covered own scope outer List.suffix_rfl before handle bound)
      · rw [boundIn_cons] at bound
        rw [handlesOf_append]
        rcases List.mem_append.mp bound with inner | behind
        · exact .inl (List.mem_append_left _ inner)
        · refine (ih distinct ?_ behind).imp_left (List.mem_append_right _)
          intro node inner further suffix listed
          rcases List.mem_cons.mp listed with rfl | before
          · exact absurd (List.mem_map_of_mem (suffix.subset List.mem_cons_self)) once
          · exact covered node inner further (suffix.trans (List.suffix_cons _ _)) before

end Marking

namespace Sharing

variable {Node : Type} {functions : Table Function} (sharing : Sharing Node functions)

/-- No node is met twice along a chain. -/
theorem nodup (handle : UInt32) : ((sharing.chain handle).map Prod.fst).Nodup := by
  have each : ∀ chain, chain <:+ sharing.chain handle → (chain.map Prod.fst).Nodup := by
    intro chain suffix
    induction chain with
    | nil => exact List.nodup_nil
    | cons first outer ih =>
        obtain ⟨node, scope⟩ := first
        have behind : outer <:+ sharing.chain handle := (List.suffix_cons _ _).trans suffix
        refine List.nodup_cons.mpr ⟨fun again => ?_, ih behind⟩
        obtain ⟨⟨_, other⟩, listed, rfl⟩ := List.mem_map.mp again
        -- the chain from the second meeting on would be that from the first on, but is shorter
        obtain ⟨between, further, rfl⟩ := List.append_of_mem listed
        have later : (_, other) :: further <:+ sharing.chain handle :=
          (List.suffix_append between _).trans behind
        have lengths := congrArg List.length (sharing.agrees suffix later).2
        simp only [List.length_append, List.length_cons] at lengths
        omega
  exact each _ List.suffix_rfl

/-- What is bound from a node on that has been seen is in the work list, or it is marked. -/
def Covered (unmarked : Table Function) (seen : List Node) (work : List Value) : Prop :=
  ∀ first node scope outer, (node, scope) :: outer <:+ sharing.chain first → node ∈ seen →
    ∀ handle ∈ boundIn ((node, scope) :: outer),
      handle ∈ Value.handlesOf work ∨ unmarked[handle]? = none

variable {sharing} {unmarked : Table Function} {seen : List Node} {work : List Value}
  {handle : UInt32} {value : Value}

/-- A value that is not a function, or whose function is marked, can be left out. -/
theorem Covered.tail (covered : sharing.Covered unmarked seen (value :: work))
    (done : ∀ handle ∈ Value.handlesOf [value], unmarked[handle]? = none) :
    sharing.Covered unmarked seen work := by
  intro first node scope outer suffix listed handle bound
  rcases covered first node scope outer suffix listed handle bound with waiting | missing
  · rw [← List.singleton_append, handlesOf_append] at waiting
    rcases List.mem_append.mp waiting with own | behind
    · exact .inr (done handle own)
    · exact .inl behind
  · exact .inr missing

section Marking

variable [DecidableEq Node]

/-- All that is bound around a function is found in its chain, waits in the work list or is
marked. -/
theorem Covered.mem_scan (covered : sharing.Covered unmarked seen work) {first : UInt32}
    (bound : handle ∈ boundIn (sharing.chain first)) :
    handle ∈ Value.handlesOf ((scan seen (sharing.chain first)).1 ++ work) ∨
      unmarked[handle]? = none := by
  rw [handlesOf_append, List.mem_append, or_assoc]
  exact mem_scan_of_boundIn (sharing.nodup first) (covered first) bound

omit [DecidableEq Node] in
/-- What waited in the work list still does once its first function has been marked, or it is that
function. -/
theorem waits_or_marked {first : UInt32} (held : value.handle? = some first) (found : List Value)
    (waits : handle ∈ Value.handlesOf (found ++ value :: work) ∨ unmarked[handle]? = none) :
    handle ∈ Value.handlesOf (found ++ work) ∨ (unmarked.erase first)[handle]? = none := by
  have erased : unmarked[handle]? = none ∨ first = handle →
      (unmarked.erase first)[handle]? = none := by
    intro gone
    rw [Std.TreeMap.getElem?_erase]
    split
    · rfl
    · next other => exact gone.resolve_right fun same => other (by simp [same])
  have own : Value.handlesOf (value :: work) = first :: Value.handlesOf work :=
    List.filterMap_cons_some held
  rw [handlesOf_append, own, List.mem_append, List.mem_cons] at waits
  rw [handlesOf_append, List.mem_append]
  rcases waits with (before | rfl | behind) | missing
  · exact .inl (.inl before)
  · exact .inr (erased (.inr rfl))
  · exact .inl (.inr behind)
  · exact .inr (erased (.inl missing))

/-- Marking a function and scanning its chain keeps everything covered. -/
theorem Covered.scan (covered : sharing.Covered unmarked seen (value :: work)) {first : UInt32}
    (held : value.handle? = some first) :
    sharing.Covered (unmarked.erase first) (Evaluator.scan seen (sharing.chain first)).2
      ((Evaluator.scan seen (sharing.chain first)).1 ++ work) := by
  intro other node scope outer suffix listed handle bound
  refine waits_or_marked held _ ?_
  rcases seen_of_scan listed with before | ⟨inner, further, on⟩
  -- a node seen before is covered as it was, one on this chain by what this scan finds
  · refine (covered other node scope outer suffix before handle bound).imp_left fun waiting => ?_
    rw [handlesOf_append]
    exact List.mem_append_right _ waiting
  · obtain ⟨rfl, rfl⟩ := sharing.agrees suffix on
    exact covered.mem_scan (boundIn_subset on handle bound)

/-- From the chain of a function on, the work list leads where the environment leads. -/
theorem Covered.reaches_iff (covered : sharing.Covered unmarked seen (value :: work))
    {first : UInt32} (held : value.handle? = some first) {function other : Function}
    (stored : functions[first]? = some function)
    (found : (unmarked.erase first)[handle]? = some other) :
    Table.Reaches Function.handles (unmarked.erase first)
        (Value.handlesOf ((Evaluator.scan seen (sharing.chain first)).1 ++ work)) handle ↔
      Table.Reaches Function.handles (unmarked.erase first)
        (function.handles ++ Value.handlesOf work) handle := by
  have unfolds : boundIn (sharing.chain first) = function.handles :=
    congrArg Environment.handles (sharing.unfolds stored)
  rw [handlesOf_append, ← unfolds]
  constructor
  · intro reached
    exact reached.mono (List.append_subset.mpr ⟨fun _ listed =>
      List.mem_append_left _ (mem_boundIn_of_scan listed), List.subset_append_right _ _⟩)
  · intro reached
    refine reached.of_led_or_missing (fun next listed => ?_) found
    rcases List.mem_append.mp listed with bound | waiting
    · rw [← handlesOf_append]
      exact waits_or_marked held _ (covered.mem_scan bound)
    · exact .inl (List.mem_append_right _ waiting)

/-- Marking leaves exactly the functions that the work list does not lead to. -/
theorem getElem?_mark_iff (work : List Value) (covered : sharing.Covered unmarked seen work)
    (stored : ∀ {handle : UInt32} {function : Function},
      unmarked[handle]? = some function → functions[handle]? = some function)
    (handle : UInt32) (function : Function) :
    (mark sharing.chain unmarked seen work)[handle]? = some function ↔
      unmarked[handle]? = some function ∧
        ¬ unmarked.Reaches Function.handles (Value.handlesOf work) handle := by
  induction unmarked, seen, work using mark.induct sharing.chain with
  | case1 unmarked seen =>
      rw [mark]
      simp [Value.handlesOf, Table.Reaches.not_nil]
  | case2 unmarked seen value work constant ih =>
      have same : Value.handlesOf (value :: work) = Value.handlesOf work :=
        List.filterMap_cons_none constant
      have tail := covered.tail fun handle own => by
        rw [Value.handlesOf, List.filterMap_cons_none constant] at own
        cases own
      rw [mark_cons_of_constant constant, ih tail stored, same]
  | case3 unmarked seen value work first held missing ih =>
      have same : Value.handlesOf (value :: work) = first :: Value.handlesOf work :=
        List.filterMap_cons_some held
      have tail := covered.tail fun handle own => by
        rw [Value.handlesOf, List.filterMap_cons_some held] at own
        exact List.mem_singleton.mp own ▸ missing
      rw [mark_cons_of_none held missing, ih tail stored, same,
        Table.Reaches.cons_iff_of_none missing, not_or]
      refine and_congr_right fun found => (and_iff_right ?_).symm
      rintro rfl
      cases missing.symm.trans found
  | case4 unmarked seen value work first held other present values later scanned ih =>
      have same : Value.handlesOf (value :: work) = first :: Value.handlesOf work :=
        List.filterMap_cons_some held
      have scannedCovered := covered.scan held
      rw [scanned] at scannedCovered
      have kept : ∀ {handle : UInt32} {function : Function},
          (unmarked.erase first)[handle]? = some function →
          functions[handle]? = some function := by
        intro handle function found
        rw [Std.TreeMap.getElem?_erase] at found
        split at found
        · cases found
        · exact stored found
      rw [mark_cons_of_some held present, scanned, ih scannedCovered kept, same,
        Table.Reaches.cons_iff_of_some present, not_or]
      by_cases own : handle = first
      · simp [own]
      · have apart : (unmarked.erase first)[handle]? = unmarked[handle]? := by
          rw [Std.TreeMap.getElem?_erase, if_neg (by simpa using Ne.symm own)]
        rw [apart, and_iff_right own]
        refine and_congr_right fun found => ?_
        rw [← covered.reaches_iff held (stored present) (apart.trans found), scanned]

/-- A collection that marks along shared environments keeps what the collection of the evaluator
keeps, in whatever order it takes its roots. -/
theorem getElem?_without_mark {keep roots : List Value}
    (sharing : Sharing Node evaluator.functions)
    (ordered : roots.Perm (evaluator.globals.map Prod.snd ++ keep)) (handle : UInt32) :
    (evaluator.functions.without (mark sharing.chain evaluator.functions [] roots))[handle]? =
      (evaluator.collect keep).2.functions[handle]? := by
  have covered : sharing.Covered evaluator.functions [] roots :=
    fun _ _ _ _ _ listed => absurd listed List.not_mem_nil
  have leads : evaluator.functions.Reaches Function.handles (Value.handlesOf roots) handle ↔
      evaluator.functions.Reaches Function.handles
        (Value.handlesOf (evaluator.globals.map Prod.snd ++ keep)) handle :=
    ⟨fun reached => reached.mono (ordered.filterMap _).subset,
      fun reached => reached.mono (ordered.symm.filterMap _).subset⟩
  refine Option.ext fun function => ?_
  rw [Table.getElem?_without_iff, getElem?_collect_iff, ← leads]
  refine and_congr_right fun found => ?_
  rw [Option.eq_none_iff_forall_ne_some]
  constructor
  · intro unmarked
    refine Classical.byContradiction fun unreached => unmarked function ?_
    exact (sharing.getElem?_mark_iff roots covered id handle function).mpr ⟨found, unreached⟩
  · intro reached other unmarked
    exact ((sharing.getElem?_mark_iff roots covered id handle other).mp unmarked).2 reached

end Marking

/-- The scopes of an environment, each with the environment from it on as its node. -/
def nodesOf : Environment → List (Environment × Scope)
  | [] => []
  | scope :: outer => (scope :: outer, scope) :: nodesOf outer

theorem map_snd_nodesOf (environment : Environment) :
    (nodesOf environment).map Prod.snd = environment := by
  induction environment with
  | nil => rfl
  | cons scope outer ih => rw [nodesOf, List.map_cons, ih]

theorem eq_of_suffix_nodesOf {environment node : Environment} {scope : Scope}
    {outer : List (Environment × Scope)} (suffix : (node, scope) :: outer <:+ nodesOf environment) :
    node = scope :: outer.map Prod.snd ∧ outer = nodesOf (outer.map Prod.snd) := by
  induction environment with
  | nil => cases List.suffix_nil.mp suffix
  | cons first rest ih =>
      rcases List.suffix_cons_iff.mp suffix with whole | behind
      · cases whole
        rw [map_snd_nodesOf]
        exact ⟨rfl, rfl⟩
      · exact ih behind

/-- Equal environments can always be shared. -/
def byContents (functions : Table Function) : Sharing Environment functions where
  chain handle := (functions[handle]?).elim [] fun function => nodesOf function.environment
  unfolds found := by rw [found, Option.elim_some, map_snd_nodesOf]
  agrees := by
    intro first second node scope other outer further left right
    have each : ∀ {handle : UInt32} {scope : Scope} {outer : List (Environment × Scope)},
        (node, scope) :: outer <:+
          (functions[handle]?).elim [] (fun function => nodesOf function.environment) →
        node = scope :: outer.map Prod.snd ∧ outer = nodesOf (outer.map Prod.snd) := by
      intro handle scope outer suffix
      cases found : functions[handle]? with
      | none =>
          rw [found] at suffix
          cases List.suffix_nil.mp suffix
      | some function =>
          rw [found] at suffix
          exact eq_of_suffix_nodesOf suffix
    obtain ⟨rfl, unfolded⟩ := each left
    obtain ⟨same, refolded⟩ := each right
    injection same with same behind
    exact ⟨same, unfolded.trans ((congrArg nodesOf behind).trans refolded.symm)⟩

end Sharing

end Evaluator

end ClosureLisp
