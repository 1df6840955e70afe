import ClosureLisp.Proofs.Invisibility

/-!
# Evaluators that give their functions other handles

Two evaluators whose globals are the same but for the handles of functions evaluate every program
to the same effect but for handles, if one of them has more functions than the other. A pairing says
which handles stand for the same function, and every function that both make adds a pair. Nothing
else depends on handles, since no primitive looks at them.

Functions are never collected here, so that the handles in use are those below the next one, until
all are in use. Then a new function would take the place of an old one, and no more is said.
-/

namespace ClosureLisp

/-- Which handles of two evaluators stand for the same function. -/
abbrev Pairing := UInt32 → UInt32 → Prop

namespace Value

/-- A value without its handle. -/
def anonymous : Value → Value
  | .closure _ arity => .closure 0 arity
  | value => value

/-- The same value in two evaluators. -/
inductive Paired (pairing : Pairing) : Value → Value → Prop where
  | plain {value : Value} (plain : value.handle? = none) : Paired pairing value value
  | closure {handle other : UInt32} (paired : pairing handle other) (arity : Int) :
      Paired pairing (.closure handle arity) (.closure other arity)

variable {pairing wider : Pairing} {value twin : Value} {values twins : List Value}

theorem Paired.mono (paired : value.Paired pairing twin) (wide : pairing ≤ wider) :
    value.Paired wider twin := by
  cases paired with
  | plain plain => exact .plain plain
  | closure paired arity => exact .closure (wide _ _ paired) arity

theorem Paired.anonymous_eq (paired : value.Paired pairing twin) :
    value.anonymous = twin.anonymous := by
  cases paired with
  | plain plain => rfl
  | closure paired arity => rfl

theorem paired_constant (pairing : Pairing) (constant : Constant) :
    constant.value.Paired pairing constant.value :=
  .plain (by cases constant <;> rfl)

theorem map_anonymous_eq (paired : List.Forall₂ (Paired pairing) values twins) :
    values.map anonymous = twins.map anonymous := by
  induction paired with
  | nil => rfl
  | cons head _ ih => exact congrArg₂ List.cons head.anonymous_eq ih

end Value

/-! ## Scopes and functions -/

namespace Scope

variable {pairing wider : Pairing} {scope twin : Scope}

/-- The same bindings in two evaluators. -/
def Paired (pairing : Pairing) (scope twin : Scope) : Prop :=
  List.Forall₂ (fun binding other => binding.1 = other.1 ∧ binding.2.Paired pairing other.2)
    scope twin

theorem paired_mono (paired : Paired pairing scope twin) (wide : pairing ≤ wider) :
    Paired wider scope twin :=
  paired.imp fun _ _ both => both.imp_right fun value => value.mono wide

theorem lookup_cases (paired : Paired pairing scope twin) (name : Name) :
    (scope.lookup name = none ∧ twin.lookup name = none) ∨
      ∃ value other, scope.lookup name = some value ∧ twin.lookup name = some other ∧
        value.Paired pairing other := by
  induction paired with
  | nil => exact .inl ⟨rfl, rfl⟩
  | @cons binding other _ _ head _ ih =>
      obtain ⟨bound, value⟩ := binding
      obtain ⟨boundToo, twin⟩ := other
      obtain ⟨rfl, values⟩ := head
      rw [List.lookup_cons, List.lookup_cons]
      cases name == bound with
      | true => exact .inr ⟨value, twin, rfl, rfl, values⟩
      | false => exact ih

theorem paired_zip {values twins : List Value}
    (paired : List.Forall₂ (Value.Paired pairing) values twins) (names : List Name) :
    Paired pairing (names.zip values) (names.zip twins) := by
  induction paired generalizing names with
  | nil =>
      rw [List.zip_nil_right]
      exact .nil
  | cons head _ ih =>
      cases names with
      | nil => exact .nil
      | cons name names => exact .cons ⟨rfl, head⟩ (ih names)

theorem paired_append {scopeRest twinRest : Scope} (first : Paired pairing scope twin)
    (second : Paired pairing scopeRest twinRest) :
    Paired pairing (scope ++ scopeRest) (twin ++ twinRest) :=
  List.rel_append first second

end Scope

namespace Environment

variable {pairing wider : Pairing} {environment twin : Environment}

/-- The same nested scopes in two evaluators. -/
def Paired (pairing : Pairing) (environment twin : Environment) : Prop :=
  List.Forall₂ (Scope.Paired pairing) environment twin

theorem paired_mono (paired : Paired pairing environment twin) (wide : pairing ≤ wider) :
    Paired wider environment twin :=
  paired.imp fun _ _ scope => Scope.paired_mono scope wide

theorem lookup?_cases (paired : Paired pairing environment twin) (name : Name) :
    (environment.lookup? name = none ∧ twin.lookup? name = none) ∨
      ∃ value other, environment.lookup? name = some value ∧ twin.lookup? name = some other ∧
        value.Paired pairing other := by
  unfold lookup?
  induction paired with
  | nil => exact .inl ⟨rfl, rfl⟩
  | cons head _ ih =>
      rw [List.findSome?_cons, List.findSome?_cons]
      rcases Scope.lookup_cases head name with
        ⟨none, noneToo⟩ | ⟨value, other, found, foundToo, same⟩
      · rw [none, noneToo]
        exact ih
      · rw [found, foundToo]
        exact .inr ⟨value, other, rfl, rfl, same⟩

end Environment

namespace Function

variable {pairing wider : Pairing} {function twin : Function}

/-- The same function in two evaluators. -/
structure Paired (pairing : Pairing) (function twin : Function) : Prop where
  self : function.self = twin.self
  parameters : function.parameters = twin.parameters
  body : function.body = twin.body
  environment : Environment.Paired pairing function.environment twin.environment

theorem Paired.mono (paired : function.Paired pairing twin) (wide : pairing ≤ wider) :
    function.Paired wider twin :=
  { paired with environment := Environment.paired_mono paired.environment wide }

theorem Paired.scope (paired : function.Paired pairing twin) {itself itselfToo : Value}
    (same : itself.Paired pairing itselfToo) {arguments twins : List Value}
    (supplied : List.Forall₂ (Value.Paired pairing) arguments twins) :
    Scope.Paired pairing (function.scope itself arguments) (twin.scope itselfToo twins) := by
  unfold Function.scope
  rw [paired.self, paired.parameters]
  refine Scope.paired_append (Scope.paired_zip supplied _) ?_
  split
  · exact .nil
  · split
    · exact .nil
    · exact .cons ⟨rfl, same⟩ .nil

end Function

/-! ## Primitives -/

namespace Primitive

/-- What a primitive yields, without a handle in what it shows. -/
def Yield.anonymous (yielded : Yield) : Yield :=
  { yielded with shown := yielded.shown.map Value.anonymous }

/-- No primitive looks at a handle. -/
theorem applyNamed_anonymous (name : Name) (arguments : List Value) :
    applyNamed name (arguments.map Value.anonymous) =
      (applyNamed name arguments).map Yield.anonymous := by
  unfold applyNamed
  cases ofName? name with
  | none => rfl
  | some primitive =>
      rcases arguments with _ | ⟨first, _ | ⟨second, _ | ⟨third, rest⟩⟩⟩
      · cases primitive <;> rfl
      · cases first with
        | bool flag => cases flag <;> cases primitive <;> rfl
        | _ => cases primitive <;> rfl
      · cases primitive <;> cases first <;> cases second <;> rfl
      · cases primitive <;> simp [Primitive.apply, Except.map]

/-- A primitive does the same with the same values but for handles. -/
theorem applyNamed_cases {pairing : Pairing} {arguments twins : List Value}
    (supplied : List.Forall₂ (Value.Paired pairing) arguments twins) (name : Name) :
    (∃ cause, applyNamed name arguments = .error cause ∧ applyNamed name twins = .error cause) ∨
      ∃ (constant : Constant) (shown other : Option Value),
        applyNamed name arguments = .ok ⟨constant.value, shown⟩ ∧
          applyNamed name twins = .ok ⟨constant.value, other⟩ ∧
          shown.map Value.anonymous = other.map Value.anonymous := by
  have same := applyNamed_anonymous name arguments
  rw [Value.map_anonymous_eq supplied, applyNamed_anonymous name twins] at same
  cases applied : applyNamed name arguments with
  | error cause =>
      rw [applied] at same
      cases appliedToo : applyNamed name twins with
      | error other =>
          rw [appliedToo] at same
          cases same
          exact .inl ⟨cause, rfl, rfl⟩
      | ok other =>
          rw [appliedToo] at same
          cases same
  | ok yielded =>
      rw [applied] at same
      cases appliedToo : applyNamed name twins with
      | error other =>
          rw [appliedToo] at same
          cases same
      | ok other =>
          rw [appliedToo] at same
          obtain ⟨result, shown⟩ := yielded
          obtain ⟨resultToo, otherShown⟩ := other
          obtain ⟨constant, rfl⟩ := applyNamed_ok applied
          obtain ⟨rfl, alike⟩ := Yield.mk.inj (Except.ok.inj same)
          exact .inr ⟨constant, shown, otherShown, rfl, rfl, alike.symm⟩

end Primitive

namespace Evaluator

/-! ## Handles in use -/

/-- Every handle is in use. -/
def Full (evaluator : Evaluator) : Prop :=
  ∀ handle : UInt32, handle ∈ evaluator.functions

/-- The handles in use are those below the next one. -/
def Numbered (evaluator : Evaluator) : Prop :=
  ∀ handle : UInt32, handle ∈ evaluator.functions ↔ handle < evaluator.next

theorem mem_alloc {evaluator : Evaluator} {function : Function} {handle : UInt32} :
    handle ∈ (evaluator.alloc function).2.functions ↔
      evaluator.next = handle ∨ handle ∈ evaluator.functions := by
  rw [Evaluator.alloc, Std.TreeMap.mem_insert, Std.LawfulEqCmp.compare_eq_iff_eq]

theorem toNat_next {handle : UInt32} (room : handle.toNat + 1 < 2 ^ 32) :
    (handle + 1).toNat = handle.toNat + 1 := by
  rw [UInt32.toNat_add]
  exact Nat.mod_eq_of_lt room

theorem Numbered.alloc {evaluator : Evaluator} (numbered : evaluator.Numbered)
    (room : evaluator.next.toNat + 1 < 2 ^ 32) (function : Function) :
    (evaluator.alloc function).2.Numbered := by
  intro handle
  change _ ↔ handle < evaluator.next + 1
  rw [mem_alloc, numbered handle, UInt32.lt_iff_toNat_lt, UInt32.lt_iff_toNat_lt,
    ← UInt32.toNat_inj, toNat_next room]
  omega

/-- A new function may take the last handle. -/
theorem Numbered.full_alloc {evaluator : Evaluator} (numbered : evaluator.Numbered)
    (last : ¬ evaluator.next.toNat + 1 < 2 ^ 32) (function : Function) :
    (evaluator.alloc function).2.Full := by
  intro handle
  have bound := handle.toNat_lt
  rw [mem_alloc, numbered handle, UInt32.lt_iff_toNat_lt, ← UInt32.toNat_inj]
  omega

theorem Numbered.getElem?_alloc {evaluator : Evaluator} (numbered : evaluator.Numbered)
    (function : Function) {handle : UInt32} {known : Function}
    (found : evaluator.functions[handle]? = some known) :
    (evaluator.alloc function).2.functions[handle]? = some known := by
  have below : handle < evaluator.next :=
    (numbered handle).mp (Std.TreeMap.mem_iff_isSome_getElem?.mpr (by rw [found]; rfl))
  have other : evaluator.next ≠ handle := fun same => UInt32.lt_irrefl _ (same ▸ below)
  simpa [Evaluator.alloc, Std.TreeMap.getElem?_insert, other] using found

/-- What becomes of the functions if none is ever collected: none is lost as long as there is a
handle for each. -/
structure Grown (first second : Evaluator) : Prop where
  maxDepth : second.maxDepth = first.maxDepth
  full : first.Full → second.Full
  kept : first.Numbered → second.Full ∨
    (second.Numbered ∧ first.next ≤ second.next ∧
      ∀ {handle : UInt32} {function : Function},
        first.functions[handle]? = some function → second.functions[handle]? = some function)

theorem grown_of_eq {first second : Evaluator} (maxDepth : second.maxDepth = first.maxDepth)
    (functions : second.functions = first.functions) (next : second.next = first.next) :
    first.Grown second where
  maxDepth := maxDepth
  full taken := by
    unfold Full
    rw [functions]
    exact taken
  kept numbered := by
    unfold Numbered
    rw [functions, next]
    exact .inr ⟨numbered, UInt32.le_refl _, id⟩

theorem grown_growth : Growth Grown where
  refl evaluator := grown_of_eq rfl rfl rfl
  trans {first second third} former latter := by
    refine ⟨latter.maxDepth.trans former.maxDepth, fun taken => latter.full (former.full taken),
      fun numbered => ?_⟩
    rcases former.kept numbered with taken | ⟨still, later, kept⟩
    · exact .inl (latter.full taken)
    · refine (latter.kept still).imp_right ?_
      rintro ⟨numbers, latest, more⟩
      exact ⟨numbers, UInt32.le_trans later latest, fun found => more (kept found)⟩
  alloc evaluator function := by
    refine ⟨rfl, fun taken handle => mem_alloc.mpr (.inr (taken handle)), fun numbered => ?_⟩
    by_cases room : evaluator.next.toNat + 1 < 2 ^ 32
    · refine .inr ⟨numbered.alloc room function, ?_, numbered.getElem?_alloc function⟩
      change evaluator.next ≤ evaluator.next + 1
      rw [UInt32.le_iff_toNat_le, toNat_next room]
      exact Nat.le_succ _
    · exact .inl (numbered.full_alloc room function)
  display evaluator value := grown_of_eq rfl rfl rfl
  failure evaluator place := grown_of_eq rfl rfl rfl

/-! ## Paired evaluators -/

/-- The globals, the paired functions and the output of two evaluators are the same but for handles,
and the left one has made at least as many functions. -/
structure Paired (pairing : Pairing) (left right : Evaluator) : Prop where
  maxDepth : left.maxDepth = right.maxDepth
  globals : Scope.Paired pairing left.globals right.globals
  functions : ∀ {handle other : UInt32}, pairing handle other →
    ∃ function twin, left.functions[handle]? = some function ∧
      right.functions[other]? = some twin ∧ function.Paired pairing twin
  displayed : left.displayed.map Value.anonymous = right.displayed.map Value.anonymous
  failedAt : left.failedAt = right.failedAt
  leftNumbered : left.Numbered
  rightNumbered : right.Numbered
  further : right.next ≤ left.next

section Pairs

variable {pairing : Pairing} {left right : Evaluator}

/-- The same function made in both, with the handles that it gets as a new pair. -/
theorem Paired.alloc (paired : left.Paired pairing right) {function twin : Function}
    (same : function.Paired pairing twin) :
    (left.alloc function).2.Full ∨ ∃ wider, pairing ≤ wider ∧ wider left.next right.next ∧
      (left.alloc function).2.Paired wider (right.alloc twin).2 := by
  have further := UInt32.le_iff_toNat_le.mp paired.further
  by_cases room : left.next.toNat + 1 < 2 ^ 32
  · have rightRoom : right.next.toNat + 1 < 2 ^ 32 := by omega
    let wider : Pairing := fun handle other =>
      pairing handle other ∨ handle = left.next ∧ other = right.next
    have wide : pairing ≤ wider := fun _ _ => .inl
    refine .inr ⟨wider, wide, .inr ⟨rfl, rfl⟩, ?_⟩
    refine { paired with
      globals := Scope.paired_mono paired.globals wide
      functions := ?_
      leftNumbered := paired.leftNumbered.alloc room function
      rightNumbered := paired.rightNumbered.alloc rightRoom twin
      further := ?_ }
    · rintro handle other (old | ⟨rfl, rfl⟩)
      · obtain ⟨known, knownToo, found, foundToo, alike⟩ := paired.functions old
        exact ⟨known, knownToo, paired.leftNumbered.getElem?_alloc function found,
          paired.rightNumbered.getElem?_alloc twin foundToo, alike.mono wide⟩
      · exact ⟨function, twin, Std.TreeMap.getElem?_insert_self,
          Std.TreeMap.getElem?_insert_self, same.mono wide⟩
    · change right.next + 1 ≤ left.next + 1
      rw [UInt32.le_iff_toNat_le, toNat_next room, toNat_next rightRoom]
      exact Nat.succ_le_succ further
  · exact .inl (paired.leftNumbered.full_alloc room function)

end Pairs

/-! ## Two evaluations side by side -/

/-- Two evaluations end with the same value or with the same error, in evaluators that are still
paired, or the left one uses up all handles. -/
inductive EndPaired {α : Type} (same : Pairing → α → α → Prop) (pairing : Pairing) :
    EStateM.Result EvalError Evaluator α → EStateM.Result EvalError Evaluator α → Prop where
  | value {wider : Pairing} {value twin : α} {left right : Evaluator} (wide : pairing ≤ wider)
      (held : same wider value twin) (paired : left.Paired wider right) :
      EndPaired same pairing (.ok value left) (.ok twin right)
  | error {wider : Pairing} {left right : Evaluator} (error : EvalError) (wide : pairing ≤ wider)
      (paired : left.Paired wider right) :
      EndPaired same pairing (.error error left) (.error error right)
  | exhausted {first second : EStateM.Result EvalError Evaluator α}
      (taken : (after first).Full) : EndPaired same pairing first second

namespace EndPaired

variable {α β : Type} {pairing wider : Pairing} {same : Pairing → α → α → Prop}
  {better : Pairing → β → β → Prop} {first second : EStateM.Result EvalError Evaluator α}

theorem widen (ends : EndPaired same wider first second) (wide : pairing ≤ wider) :
    EndPaired same pairing first second := by
  cases ends with
  | value wider held paired => exact .value (le_trans wide wider) held paired
  | error error wider paired => exact .error error (le_trans wide wider) paired
  | exhausted taken => exact .exhausted taken

/-- Handles that are used up stay so. -/
theorem andThen {further other : α → Evaluator → EStateM.Result EvalError Evaluator β}
    (ends : EndPaired same pairing first second)
    (grows : ∀ value next, Grown next (after (further value next)))
    (next : ∀ {wider value twin left right}, pairing ≤ wider → same wider value twin →
      left.Paired wider right → EndPaired better wider (further value left) (other twin right)) :
    EndPaired better pairing (Evaluator.andThen first further)
      (Evaluator.andThen second other) := by
  cases ends with
  | value wide held paired => exact (next wide held paired).widen wide
  | error error wide paired => exact .error error wide paired
  | exhausted taken =>
      refine .exhausted ?_
      cases first with
      | ok value evaluator => exact (grows value evaluator).full taken
      | error error evaluator => exact taken

/-- What ends at once. -/
theorem here {value twin : α} {left right : Evaluator} (paired : left.Paired pairing right)
    (held : same pairing value twin) : EndPaired same pairing (.ok value left) (.ok twin right) :=
  .value (le_refl pairing) held paired

theorem stop {left right : Evaluator} (paired : left.Paired pairing right) (error : EvalError) :
    EndPaired same pairing (.error error left) (.error error right) :=
  .error error (le_refl pairing) paired

end EndPaired

/-! ## Expressions -/

/-- Applying functions whose handles are paired ends alike. -/
def ApplyPaired (apply : Apply) : Prop :=
  ∀ ⦃pairing : Pairing⦄ ⦃left right : Evaluator⦄ ⦃handle other : UInt32⦄ ⦃arity : Int⦄
    ⦃arguments twins : List Value⦄, left.Paired pairing right → pairing handle other →
    List.Forall₂ (Value.Paired pairing) arguments twins →
    EndPaired Value.Paired pairing (apply handle arity arguments left)
      (apply other arity twins right)

/-- Applying functions loses none. -/
def ApplyGrows (apply : Apply) : Prop :=
  ∀ handle arity arguments evaluator,
    Grown evaluator (after (apply handle arity arguments evaluator))

/-- An expression ends alike in environments that are the same but for handles. -/
def ExprPaired (apply : Apply) (expr : Expr) : Prop :=
  ∀ ⦃pairing : Pairing⦄ ⦃environment twin : Environment⦄ ⦃left right : Evaluator⦄,
    left.Paired pairing right → Environment.Paired pairing environment twin →
    EndPaired Value.Paired pairing (eval apply environment expr left)
      (eval apply twin expr right)

section Expressions

variable {apply : Apply} {pairing : Pairing} {environment twin : Environment}
  {left right : Evaluator}

theorem lookup_paired (paired : left.Paired pairing right)
    (scopes : Environment.Paired pairing environment twin) (place : Position) (name : Name) :
    EndPaired Value.Paired pairing (lookup environment place name left)
      (lookup twin place name right) := by
  unfold lookup
  rcases Environment.lookup?_cases scopes name with
    ⟨none, noneToo⟩ | ⟨_, _, found, foundToo, same⟩
  · rw [none, noneToo]
    dsimp only
    rcases Scope.lookup_cases paired.globals name with
      ⟨none, noneToo⟩ | ⟨_, _, found, foundToo, same⟩
    · rw [none, noneToo]
      exact .stop paired _
    · rw [found, foundToo]
      exact .here paired same
  · rw [found, foundToo]
    exact .here paired same

theorem makeFunction_paired (paired : left.Paired pairing right)
    (scopes : Environment.Paired pairing environment twin) (place : Position) (self : Option Name)
    (parameters : List Name) (body : Expr) :
    EndPaired Value.Paired pairing (makeFunction environment place self parameters body left)
      (makeFunction twin place self parameters body right) := by
  unfold makeFunction
  split
  · exact .stop paired _
  · have same : Function.Paired pairing ⟨self, parameters, body, environment⟩
        ⟨self, parameters, body, twin⟩ := ⟨rfl, rfl, rfl, scopes⟩
    rcases paired.alloc same with taken | ⟨wider, wide, new, later⟩
    · exact .exhausted taken
    · exact .value wide (.closure new _) later

theorem assert_paired (paired : left.Paired pairing right) (place : Position)
    {condition other : Value} (same : condition.Paired pairing other) :
    EndPaired Value.Paired pairing (assert place condition left) (assert place other right) := by
  cases same with
  | closure _ arity => exact .stop paired _
  | plain plain =>
      cases condition with
      | bool flag =>
          cases flag with
          | true => exact .here paired (.plain rfl)
          | false =>
              refine .here ?_ (.plain rfl)
              exact { paired with failedAt := congrArg (place :: ·) paired.failedAt }
      | _ => exact .stop paired _

theorem applyPrimitive_paired (paired : left.Paired pairing right) (name : Name)
    {arguments twins : List Value}
    (supplied : List.Forall₂ (Value.Paired pairing) arguments twins) :
    EndPaired Value.Paired pairing (applyPrimitive name arguments left)
      (applyPrimitive name twins right) := by
  unfold applyPrimitive
  rcases Primitive.applyNamed_cases supplied name with
    ⟨cause, applied, appliedToo⟩ | ⟨constant, shown, other, applied, appliedToo, alike⟩
  · rw [applied, appliedToo]
    exact .stop paired _
  · rw [applied, appliedToo]
    cases shown with
    | none =>
        cases other with
        | none => exact .here paired (Value.paired_constant pairing constant)
        | some value => cases alike
    | some value =>
        cases other with
        | none => cases alike
        | some twin =>
            refine .here ?_ (Value.paired_constant pairing constant)
            exact { paired with
              displayed := congrArg₂ List.cons (Option.some.inj alike) paired.displayed }

theorem callBuiltin_paired (paired : left.Paired pairing right) (place : Position) (name : Name)
    {arguments twins : List Value}
    (supplied : List.Forall₂ (Value.Paired pairing) arguments twins) :
    EndPaired Value.Paired pairing (callBuiltin place name arguments left)
      (callBuiltin place name twins right) := by
  have lengths := supplied.length_eq
  rcases callBuiltin_cases place name arguments with
    ⟨condition, named, rfl, called⟩ | ⟨other, called⟩
  · rcases callBuiltin_cases place name twins with ⟨twin, -, rfl, calledToo⟩ | ⟨other, -⟩
    · rw [called, calledToo]
      exact assert_paired paired place (List.forall₂_cons.mp supplied).1
    · exact absurd lengths.symm (other named)
  · rcases callBuiltin_cases place name twins with ⟨twin, named, rfl, -⟩ | ⟨-, calledToo⟩
    · exact absurd lengths (other named)
    · rw [called, calledToo]
      exact applyPrimitive_paired paired name supplied

theorem evalAll_paired {exprs : List Expr} (grows : ApplyGrows apply)
    (each : ∀ expr ∈ exprs, ExprPaired apply expr) (paired : left.Paired pairing right)
    (scopes : Environment.Paired pairing environment twin) :
    EndPaired (fun pairing => List.Forall₂ (Value.Paired pairing)) pairing
      (evalAll apply environment exprs left) (evalAll apply twin exprs right) := by
  induction exprs generalizing pairing left right with
  | nil => exact .here paired .nil
  | cons expr rest ih =>
      obtain ⟨head, tail⟩ := List.forall_mem_cons.mp each
      rw [evalAll_cons, evalAll_cons]
      refine (head paired scopes).andThen ?_ ?_
      · intro value next
        refine grown_growth.andThen ?_ fun values last => grown_growth.refl last
        exact grown_growth.evalAll (fun expr _ => grown_growth.eval grows environment expr) next
      intro wider value other left right wide same later
      refine (ih tail later (Environment.paired_mono scopes wide)).andThen ?_ ?_
      · exact fun values last => grown_growth.refl last
      intro widest values twins left right widen sames last
      exact .here last (.cons (same.mono widen) sames)

/-- A conditional ends alike if its branches do. -/
theorem choose_paired {consequent alternative consequentToo alternativeToo : Action Value}
    (paired : left.Paired pairing right) {test other : Value} (same : test.Paired pairing other)
    (whenTrue : EndPaired Value.Paired pairing (consequent left) (consequentToo right))
    (whenFalse : EndPaired Value.Paired pairing (alternative left) (alternativeToo right)) :
    EndPaired Value.Paired pairing (choose consequent alternative test left)
      (choose consequentToo alternativeToo other right) := by
  cases same with
  | closure _ arity => exact .stop paired _
  | plain plain =>
      cases test with
      | bool flag =>
          cases flag with
          | true => exact whenTrue
          | false => exact whenFalse
      | _ => exact .stop paired _

theorem applyValue_paired (applied : ApplyPaired apply) (place : Position)
    {arguments twins : List Value} {callee other : Value} (paired : left.Paired pairing right)
    (supplied : List.Forall₂ (Value.Paired pairing) arguments twins)
    (same : callee.Paired pairing other) :
    EndPaired Value.Paired pairing (applyValue apply place arguments callee left)
      (applyValue apply place twins other right) := by
  cases same with
  | closure known arity => exact applied paired known supplied
  | plain plain =>
      cases callee with
      | builtin name arity => exact callBuiltin_paired paired place name supplied
      | closure handle arity => cases plain
      | nil | int | bool => exact .stop paired _

/-- Whatever an expression does, it does alike in both evaluators. -/
theorem exprPaired (grows : ApplyGrows apply) (applied : ApplyPaired apply) (expr : Expr) :
    ExprPaired apply expr := by
  have evalGrows := grown_growth.eval grows
  induction expr using Expr.induction with
  | int span value | bool span value =>
      intro pairing environment twin left right paired scopes
      rw [eval, eval]
      exact .here paired (.plain rfl)
  | var span name =>
      intro pairing environment twin left right paired scopes
      rw [eval, eval]
      exact lookup_paired paired scopes span.start name
  | define span name value _ =>
      intro pairing environment twin left right paired scopes
      rw [eval, eval]
      exact .stop paired _
  | lambda span self parameters body _ =>
      intro pairing environment twin left right paired scopes
      rw [eval, eval]
      exact makeFunction_paired paired scopes span.start self parameters body
  | ifThen span test consequent testIh thenIh =>
      intro pairing environment twin left right paired scopes
      rw [eval_ifThen, eval_ifThen]
      refine (testIh paired scopes).andThen ?_ ?_
      · exact fun value next => grown_growth.choose (evalGrows environment consequent next)
          (grown_growth.refl next)
      intro wider value other left right wide same later
      refine choose_paired later same ?_ ?_
      · exact thenIh later (Environment.paired_mono scopes wide)
      · exact .here later (.plain rfl)
  | ifElse span test consequent alternative testIh thenIh elseIh =>
      intro pairing environment twin left right paired scopes
      rw [eval_ifElse, eval_ifElse]
      refine (testIh paired scopes).andThen ?_ ?_
      · exact fun value next => grown_growth.choose (evalGrows environment consequent next)
          (evalGrows environment alternative next)
      intro wider value other left right wide same later
      refine choose_paired later same ?_ ?_
      · exact thenIh later (Environment.paired_mono scopes wide)
      · exact elseIh later (Environment.paired_mono scopes wide)
  | call span callee arguments calleeIh argumentsIh =>
      intro pairing environment twin left right paired scopes
      rw [eval_call, eval_call]
      refine (evalAll_paired grows argumentsIh paired scopes).andThen ?_ ?_
      · intro values next
        exact grown_growth.andThen (evalGrows environment callee next) fun value last =>
          grown_growth.applyValue grows span.start values value last
      intro wider values twins left right wide supplied later
      refine (calleeIh later (Environment.paired_mono scopes wide)).andThen ?_ ?_
      · exact fun value last => grown_growth.applyValue grows span.start values value last
      intro widest value other left right widen same last
      refine applyValue_paired applied span.start last ?_ same
      exact supplied.imp fun _ _ each => each.mono widen

theorem enterWithin_paired {depth : Nat}
    (applied : ∀ fewer < depth, ApplyPaired (applyWithin fewer)) {handle other : UInt32}
    {arity : Int} {arguments twins : List Value} {function functionToo : Function}
    (paired : left.Paired pairing right) (known : pairing handle other)
    (supplied : List.Forall₂ (Value.Paired pairing) arguments twins)
    (same : function.Paired pairing functionToo) :
    EndPaired Value.Paired pairing (enterWithin depth handle arity arguments function left)
      (enterWithin depth other arity twins functionToo right) := by
  unfold enterWithin
  cases depth with
  | zero =>
      dsimp only
      rw [paired.maxDepth]
      exact .stop paired _
  | succ depth =>
      dsimp only
      rw [← same.body]
      refine exprPaired (grown_growth.applyWithin depth) (applied depth (Nat.lt_succ_self depth))
        function.body paired ?_
      exact .cons (same.scope (.closure known arity) supplied) same.environment

/-- Both evaluators have the function that is called. -/
theorem applyWithin_paired (depth : Nat) : ApplyPaired (applyWithin depth) := by
  -- on the calls that may still be nested; the body of the function is walked inside each step
  induction depth using Nat.strongRecOn with
  | ind depth ih =>
      intro pairing left right handle other arity arguments twins paired known supplied
      obtain ⟨function, functionToo, stored, storedToo, same⟩ := paired.functions known
      rw [applyWithin_of_getElem? stored, applyWithin_of_getElem? storedToo, same.parameters,
        supplied.length_eq]
      split
      · exact .stop paired _
      · exact enterWithin_paired ih paired known supplied same

end Expressions

/-! ## Programs -/

/-- The rule of an evaluator that never collects. -/
def neverDue (_ : Evaluator) : Bool :=
  false

section Programs

variable {pairing : Pairing} {left right : Evaluator} {result other : Value}

theorem evalTop_paired (paired : left.Paired pairing right) (expr : Expr) :
    EndPaired Value.Paired pairing (evalTop expr left) (evalTop expr right) := by
  unfold evalTop
  rw [← paired.maxDepth]
  exact exprPaired (grown_growth.applyWithin left.maxDepth) (applyWithin_paired left.maxDepth) expr
    paired .nil

theorem Paired.define (paired : left.Paired pairing right) (name : Name) {value twin : Value}
    (same : value.Paired pairing twin) :
    Paired pairing { left with globals := left.globals ++ [(name, value)] }
      { right with globals := right.globals ++ [(name, twin)] } := by
  have added : Scope.Paired pairing [(name, value)] [(name, twin)] := .cons ⟨rfl, same⟩ .nil
  exact { paired with globals := Scope.paired_append paired.globals added }

theorem evalForm_paired (paired : left.Paired pairing right) (same : result.Paired pairing other)
    (expr : Expr) :
    EndPaired Value.Paired pairing (evalForm result expr left) (evalForm other expr right) := by
  cases expr with
  | define span name value =>
      rcases Scope.lookup_cases paired.globals name with
        ⟨fresh, freshToo⟩ | ⟨known, knownToo, found, foundToo, -⟩
      · rw [evalForm_define fresh, evalForm_define freshToo]
        refine (evalTop_paired paired value).andThen ?_ ?_
        · exact fun value next => grown_of_eq rfl rfl rfl
        intro wider value twin left right wide held later
        exact .here (later.define name held) (same.mono wide)
      · delta evalForm
        dsimp only
        rw [found, foundToo]
        exact .stop paired _
  | _ => exact evalTop_paired paired _

theorem evalForm_grown (result : Value) (expr : Expr) (evaluator : Evaluator) :
    Grown evaluator (after (evalForm result expr evaluator)) :=
  grown_growth.evalForm (fun _ _ => grown_of_eq rfl rfl rfl) result expr evaluator

theorem evalFormsWhen_grown (result : Value) (exprs : List Expr) (evaluator : Evaluator) :
    Grown evaluator (after (evalFormsWhen neverDue result exprs evaluator)) := by
  induction exprs generalizing result evaluator with
  | nil => exact grown_growth.refl evaluator
  | cons expr rest ih =>
      exact grown_growth.andThen (evalForm_grown result expr evaluator) ih

theorem evalFormsWhen_paired (paired : left.Paired pairing right)
    (same : result.Paired pairing other) (exprs : List Expr) :
    EndPaired Value.Paired pairing (evalFormsWhen neverDue result exprs left)
      (evalFormsWhen neverDue other exprs right) := by
  induction exprs generalizing pairing left right result other with
  | nil => exact .here paired same
  | cons expr rest ih =>
      refine (evalForm_paired paired same expr).andThen ?_ ?_
      · exact fun value next => evalFormsWhen_grown value rest next
      · exact fun _ held later => ih later held

end Programs

end Evaluator

end ClosureLisp
