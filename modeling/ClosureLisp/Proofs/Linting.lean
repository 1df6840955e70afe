import ClosureLisp.Lint
import ClosureLisp.Proofs.Renaming
import ClosureLisp.Proofs.Sites

/-!
# What the warnings say

One walk collects all warnings and the names read. `Flagged` says of each part of a program by
itself which warnings it deserves, apart from those about names that a parameter hides, and
`Lint.mem_ofExprs_iff` that these are the ones given. The names read by a body are those of
variables that no lambda inside it binds, so that a parameter is reported as unused exactly if no
variable of the body is resolved to it (`Lint.unusedParameter_mem_ofExprs_iff`).
-/

namespace ClosureLisp

/-- Whether a suspicion is about a name that a parameter hides. -/
def Suspicion.isHiding : Suspicion → Bool
  | .hidesSelf _ | .shadowsLocal _ | .shadowsGlobal _ => true
  | _ => false

namespace Expr

/-- A variable that is read inside an expression and bound by no lambda inside it. -/
def Reads (expr : Expr) (name : Name) : Prop :=
  ∃ span between, Occurs (.var span name) between [] expr ∧
    ∀ binder ∈ between, ¬ binder.binds name

variable {part whole expr : Expr} {inner outer binders : List Binder} {name : Name}
  {globals : List Name} {warning : Warning}

/-- More lambdas around the whole are more lambdas around the part. -/
theorem Occurs.append (occurs : Occurs part inner outer whole) (more : List Binder) :
    Occurs part (inner ++ more) (outer ++ more) whole := by
  induction occurs with
  | refl => exact .refl
  | inside listed _ ih =>
      rw [List.append_assoc] at ih
      exact .inside listed ih

theorem Occurs.exists_between {more : List Binder}
    (occurs : Occurs part inner (outer ++ more) whole) :
    ∃ between, inner = between ++ more ∧ Occurs part between outer whole := by
  generalize around : outer ++ more = all at occurs
  induction occurs generalizing outer with
  | refl => exact ⟨outer, around.symm, .refl⟩
  | inside listed _ ih =>
      subst around
      obtain ⟨between, parted, occurs⟩ := ih (List.append_assoc _ _ _)
      exact ⟨between, parted, .inside listed occurs⟩

/-- What an expression reads is itself, or is read by a child and not bound around it. -/
theorem reads_iff : expr.Reads name ↔ (∃ span, expr = .var span name) ∨
    ∃ child ∈ expr.children, child.Reads name ∧ ∀ binder ∈ expr.opened, ¬ binder.binds name := by
  constructor
  · rintro ⟨span, between, occurs, free⟩
    cases occurs with
    | refl => exact .inl ⟨span, rfl⟩
    | @inside child _ _ listed occurs =>
        rw [List.append_nil, ← List.nil_append expr.opened] at occurs
        obtain ⟨inner, rfl, within⟩ := occurs.exists_between
        obtain ⟨inside, around⟩ := List.forall_mem_append.mp free
        exact .inr ⟨child, listed, ⟨span, inner, within, inside⟩, around⟩
  · rintro (⟨span, rfl⟩ | ⟨child, listed, ⟨span, between, occurs, inside⟩, around⟩)
    · exact ⟨span, [], .refl, fun _ listed => absurd listed List.not_mem_nil⟩
    · refine ⟨span, between ++ expr.opened, .inside listed ?_, List.forall_mem_append.mpr
        ⟨inside, around⟩⟩
      rw [List.append_nil]
      exact occurs.append expr.opened

/-- The warnings that a part inside the given lambdas deserves, apart from those about hidden
names. -/
inductive Flagged (binders : List Binder) : Expr → Warning → Prop where
  | onlyBranch {span operator : Span} {consequent : Expr} :
      Flagged binders (.ifThen span (.bool operator false) consequent)
        ⟨consequent.start, .thenNeverTaken⟩
  | thenBranch {span operator : Span} {consequent alternative : Expr} :
      Flagged binders (.ifElse span (.bool operator false) consequent alternative)
        ⟨consequent.start, .thenNeverTaken⟩
  | elseBranch {span operator : Span} {consequent alternative : Expr} :
      Flagged binders (.ifElse span (.bool operator true) consequent alternative)
        ⟨alternative.start, .elseNeverTaken⟩
  | integerCall {span operator : Span} {value : Int32} {arguments : List Expr} :
      Flagged binders (.call span (.int operator value) arguments) ⟨operator.start, .literalCall⟩
  | boolCall {span operator : Span} {value : Bool} {arguments : List Expr} :
      Flagged binders (.call span (.bool operator value) arguments) ⟨operator.start, .literalCall⟩
  | primitiveCall {span operator : Span} {name : Name} {arguments : List Expr}
      {primitive : Primitive} (unbound : ∀ binder ∈ binders, ¬ binder.binds name)
      (named : Primitive.ofName? name = some primitive)
      (wrong : arguments.length ≠ primitive.arity) :
      Flagged binders (.call span (.var operator name) arguments)
        ⟨span.start, .primitiveArity name primitive.arity arguments.length⟩
  | unused {span : Span} {self : Option Name} {parameters : List Name} {body : Expr}
      {parameter : Name} (listed : parameter ∈ parameters) (unread : ¬ body.Reads parameter) :
      Flagged binders (.lambda span self parameters body)
        ⟨span.start, .unusedParameter parameter⟩

end Expr

namespace LintReport

variable {first second : LintReport} {warnings : List Warning} {warning : Warning} {name : Name}

@[simp]
theorem mem_warnings_append : warning ∈ (first ++ second).warnings ↔
    warning ∈ first.warnings ∨ warning ∈ second.warnings :=
  List.mem_append

@[simp]
theorem mem_reads_append :
    name ∈ (first ++ second).reads ↔ name ∈ first.reads ∨ name ∈ second.reads :=
  List.mem_append

@[simp]
theorem mem_warnings_warn : warning ∈ (first.warn warnings).warnings ↔
    warning ∈ first.warnings ∨ warning ∈ warnings :=
  List.mem_append

@[simp]
theorem mem_reads_warn : name ∈ (first.warn warnings).reads ↔ name ∈ first.reads := by
  rw [warn]

end LintReport

namespace Lint

open ClosureLisp.Expr

variable {expr : Expr} {exprs : List Expr} {binders : List Binder} {name : Name}
  {globals : List Name} {warning : Warning}

theorem mem_reads_walkAll : name ∈ (walkAll globals binders exprs).reads ↔
    ∃ expr ∈ exprs, name ∈ (walk globals binders expr).reads := by
  induction exprs with
  | nil => simp [walkAll, LintReport.empty]
  | cons expr rest ih => simp [walkAll, ih]

theorem mem_warnings_walkAll : warning ∈ (walkAll globals binders exprs).warnings ↔
    ∃ expr ∈ exprs, warning ∈ (walk globals binders expr).warnings := by
  induction exprs with
  | nil => simp [walkAll, LintReport.empty]
  | cons expr rest ih => simp [walkAll, ih]

/-- The names that a walk finds are those that the expression reads. -/
theorem mem_reads_walk : name ∈ (walk globals binders expr).reads ↔ expr.Reads name := by
  induction expr using children_induction generalizing binders with
  | step expr ih =>
      have children_iff : (∃ child ∈ expr.children,
          child.Reads name ∧ ∀ binder ∈ expr.opened, ¬ binder.binds name) ↔
          ∃ child ∈ expr.children, name ∈ (walk globals (expr.opened ++ binders) child).reads ∧
            ∀ binder ∈ expr.opened, ¬ binder.binds name :=
        exists_congr fun child => and_congr_right fun listed => and_congr_left fun _ =>
          (ih child listed).symm
      rw [reads_iff, children_iff]
      cases expr with
      | int span value | bool span value => simp [walk, LintReport.empty, children]
      | var span read => simpa [walk, children] using eq_comm
      | ifThen span test consequent | define span name value => simp [walk, children, opened]
      | ifElse span test consequent alternative => simp [walk, children, opened, or_assoc]
      | lambda span self parameters body => simp [walk, children, opened]
      | call span callee arguments => simp [walk, children, opened, mem_reads_walkAll]

/-- What an expression reads can be looked up in a walk. -/
instance decidableReads (expr : Expr) (name : Name) : Decidable (expr.Reads name) :=
  decidable_of_iff ((walk [] [] expr).reads.contains name = true)
    (List.contains_iff_mem.trans mem_reads_walk)

section Flagged

variable {span : Span} {test consequent alternative callee body : Expr} {arguments : List Expr}

theorem mem_thenWarnings (binders : List Binder) (span : Span) :
    warning ∈ thenWarnings consequent test ↔
      Flagged binders (.ifThen span test consequent) warning := by
  constructor
  · intro listed
    unfold thenWarnings at listed
    split at listed
    · rw [List.mem_singleton.mp listed]
      exact .onlyBranch
    · cases listed
  · rintro ⟨⟩
    exact List.mem_singleton_self _

theorem mem_branchWarnings (binders : List Binder) (span : Span) :
    warning ∈ branchWarnings consequent alternative test ↔
      Flagged binders (.ifElse span test consequent alternative) warning := by
  constructor
  · intro listed
    unfold branchWarnings at listed
    split at listed
    · rw [List.mem_singleton.mp listed]
      exact .elseBranch
    · rw [List.mem_singleton.mp listed]
      exact .thenBranch
    · cases listed
  · rintro (_ | _) <;> exact List.mem_singleton_self _

theorem mem_callWarnings : warning ∈ callWarnings binders span.start callee arguments.length ↔
    Flagged binders (.call span callee arguments) warning := by
  constructor
  · intro listed
    unfold callWarnings at listed
    split at listed
    · rw [List.mem_singleton.mp listed]
      exact .integerCall
    · rw [List.mem_singleton.mp listed]
      exact .boolCall
    · split at listed
      · cases listed
      · next unbound =>
          split at listed
          · cases listed
          · next primitive named =>
              split at listed
              · cases listed
              · next wrong =>
                  rw [List.mem_singleton.mp listed]
                  exact .primitiveCall (by simpa using unbound) named wrong
    · cases listed
  · intro flagged
    cases flagged with
    | integerCall | boolCall => exact List.mem_singleton_self _
    | @primitiveCall _ _ name _ _ unbound named wrong =>
        have free : ¬ (binders.any fun binder => binder.binds name) = true := by
          simpa using unbound
        simp only [callWarnings, if_neg free, named, if_neg wrong]
        exact List.mem_singleton_self _

theorem mem_unusedWarnings (binders : List Binder) (self : Option Name) {parameters : List Name} :
    warning ∈ unusedWarnings span.start parameters
        (walk globals (⟨self, parameters⟩ :: binders) body).reads ↔
      Flagged binders (.lambda span self parameters body) warning := by
  have unread (parameter : Name) :
      (walk globals (⟨self, parameters⟩ :: binders) body).reads.contains parameter = false ↔
        ¬ body.Reads parameter := by
    have walked : parameter ∈ (walk globals (⟨self, parameters⟩ :: binders) body).reads ↔
        body.Reads parameter := mem_reads_walk
    rw [← walked]
    simp
  simp only [unusedWarnings, List.mem_map, List.mem_filter, Bool.not_eq_true', unread]
  constructor
  · rintro ⟨parameter, ⟨listed, unread⟩, rfl⟩
    exact .unused listed unread
  · intro flagged
    cases flagged with
    | @unused _ _ _ _ parameter listed unread => exact ⟨parameter, ⟨listed, unread⟩, rfl⟩

theorem not_mem_hidingWarnings (other : warning.suspicion.isHiding = false) {place : Position}
    {binder : Binder} : warning ∉ hidingWarnings globals binders place binder := by
  intro listed
  simp only [hidingWarnings, List.mem_map, List.mem_filterMap] at listed
  obtain ⟨suspicion, ⟨parameter, -, found⟩, rfl⟩ := listed
  unfold hiding? at found
  split at found
  · cases found
    cases other
  · split at found
    · cases found
      cases other
    · split at found
      · cases found
        cases other
      · cases found

end Flagged

/-- A walk warns of an expression itself and of its parts. -/
theorem mem_warnings_walk (other : warning.suspicion.isHiding = false) :
    warning ∈ (walk globals binders expr).warnings ↔ Flagged binders expr warning ∨
      ∃ child ∈ expr.children,
        warning ∈ (walk globals (expr.opened ++ binders) child).warnings := by
  cases expr with
  | int span value | bool span value | var span name =>
      refine ⟨fun listed => absurd listed List.not_mem_nil, ?_⟩
      rintro (flagged | ⟨child, listed, -⟩)
      · cases flagged
      · cases listed
  | ifThen span test consequent =>
      simp [walk, children, opened, mem_thenWarnings binders span, or_comm]
  | ifElse span test consequent alternative =>
      simp [walk, children, opened, mem_branchWarnings binders span, or_assoc, or_comm]
  | define span name value =>
      have none : ¬ Flagged binders (.define span name value) warning := by rintro ⟨⟩
      simp [walk, children, opened, none]
  | lambda span self parameters body =>
      simp [walk, children, opened, not_mem_hidingWarnings other,
        mem_unusedWarnings binders self, or_comm]
  | call span callee arguments =>
      simp [walk, children, opened, mem_callWarnings, mem_warnings_walkAll, or_comm]

/-- Apart from hidden names, a walk warns of exactly what parts deserve. -/
theorem mem_warnings_walk_iff (other : warning.suspicion.isHiding = false) :
    warning ∈ (walk globals binders expr).warnings ↔
      ∃ part inner, Occurs part inner binders expr ∧ Flagged inner part warning := by
  constructor
  · intro listed
    induction expr using children_induction generalizing binders with
    | step expr ih =>
        rcases (mem_warnings_walk other).mp listed with flagged | ⟨child, inside, listed⟩
        · exact ⟨expr, binders, .refl, flagged⟩
        · obtain ⟨part, inner, occurs, flagged⟩ := ih child inside listed
          exact ⟨part, inner, .inside inside occurs, flagged⟩
  · rintro ⟨part, inner, occurs, flagged⟩
    induction occurs with
    | refl => exact (mem_warnings_walk other).mpr (.inl flagged)
    | inside listed _ ih => exact (mem_warnings_walk other).mpr (.inr ⟨_, listed, ih⟩)

theorem warnings_addForm (linter : Linter) (expr : Expr) :
    (linter.addForm expr).warnings = linter.warnings ++ (walk linter.globals [] expr).warnings := by
  cases expr with
  | define span name value => simp [Linter.addForm, Linter.check, Linter.know, walk]
  | _ => rfl

/-- Apart from hidden names, a program is warned of exactly what its parts deserve. -/
theorem mem_ofExprs_iff (other : warning.suspicion.isHiding = false) :
    warning ∈ ofExprs exprs ↔
      ∃ form ∈ exprs, ∃ part inner, Occurs part inner [] form ∧ Flagged inner part warning := by
  have each (linter : Linter) : warning ∈ (linter.addForms exprs).warnings ↔
      warning ∈ linter.warnings ∨
        ∃ form ∈ exprs, ∃ part inner, Occurs part inner [] form ∧ Flagged inner part warning := by
    induction exprs generalizing linter with
    | nil => simp [Linter.addForms]
    | cons expr rest ih =>
        rw [Linter.addForms, List.foldl_cons, ← Linter.addForms, ih, warnings_addForm,
          List.mem_append, mem_warnings_walk_iff other, or_assoc, List.exists_mem_cons_iff]
  rw [ofExprs, each Linter.new]
  simp [Linter.new]

end Lint

/-! ## Unused parameters -/

namespace Binder

variable {name : Name} {binder : Binder} {between outer : List Binder} {slot : Nat}

/-- A name is resolved to a lambda if that one has a slot for it and none further in binds it. -/
theorem resolve?_append_eq_some_iff :
    resolve? name (between ++ binder :: outer) = some (between.length, slot) ↔
      (∀ inner ∈ between, ¬ inner.binds name) ∧ binder.slot? name = some slot := by
  induction between with
  | nil =>
      rw [List.nil_append, resolve?]
      cases binder.slot? name with
      | some found => simp
      | none => simp
  | cons first rest ih =>
      rw [List.cons_append, resolve?, List.forall_mem_cons, binds_eq]
      cases first.slot? name with
      | some found => simp
      | none =>
          simp only [Option.isSome_none, Bool.false_eq_true, not_false_eq_true, true_and, ← ih]
          cases resolve? name (rest ++ binder :: outer) with
          | none => simp
          | some place => simp [Prod.ext_iff]

end Binder

namespace Lint

open ClosureLisp.Expr

/-- The body of a lambda reads a parameter exactly if a variable in it is resolved to that. -/
theorem reads_iff_resolved (binder : Binder) (distinct : binder.parameters.Nodup) {slot : Nat}
    {parameter : Name} (found : binder.parameters[slot]? = some parameter) {body : Expr}
    (outer : List Binder) : body.Reads parameter ↔
      ∃ place name between, Occurs (.var place name) (between ++ binder :: outer)
          (binder :: outer) body ∧
        Binder.resolve? name (between ++ binder :: outer) = some (between.length, slot) := by
  have placed := Binder.slot?_of_listed distinct found
  constructor
  · rintro ⟨place, between, occurs, free⟩
    refine ⟨place, parameter, between, ?_, Binder.resolve?_append_eq_some_iff.mpr ⟨free, placed⟩⟩
    exact occurs.append (binder :: outer)
  · rintro ⟨place, name, between, occurs, resolved⟩
    obtain ⟨free, same⟩ := Binder.resolve?_append_eq_some_iff.mp resolved
    obtain rfl := Binder.slot?_inj same placed
    have nested : Occurs (.var place name) (between ++ binder :: outer) ([] ++ binder :: outer)
        body := occurs
    obtain ⟨inner, parted, within⟩ := nested.exists_between
    obtain rfl := List.append_cancel_right parted
    exact ⟨place, between, within, free⟩

/-- A parameter of a program that has been read is reported as unused exactly if no variable in
the body of its lambda is resolved to it: to the slot of the parameter, past as many lambdas as
stand between the variable and that lambda. -/
theorem unusedParameter_mem_ofExprs_iff {text : Bytes} {exprs : List Expr} {form body : Expr}
    {span : Span} {self : Option Name} {parameters : List Name} {outer : List Binder}
    {slot : Nat} {parameter : Name} (parsed : Reader.parse text = .ok exprs)
    (listed : form ∈ exprs) (occurs : Occurs (.lambda span self parameters body) outer [] form)
    (distinct : parameters.Nodup) (found : parameters[slot]? = some parameter) :
    ⟨span.start, .unusedParameter parameter⟩ ∈ ofExprs exprs ↔
      ¬ ∃ place name between,
        Occurs (.var place name) (between ++ ⟨self, parameters⟩ :: outer)
          (⟨self, parameters⟩ :: outer) body ∧
        Binder.resolve? name (between ++ ⟨self, parameters⟩ :: outer) =
          some (between.length, slot) := by
  rw [← reads_iff_resolved ⟨self, parameters⟩ distinct found outer,
    mem_ofExprs_iff rfl]
  constructor
  · rintro ⟨other, otherListed, part, inner, inside, flagged⟩
    generalize stands : span.start = start at flagged
    cases flagged with
    | @unused at_ _ _ _ _ _ unread =>
        obtain ⟨same, -⟩ := Reader.occurs_unique parsed listed otherListed occurs inside
          (fun _ _ _ => Expr.noConfusion) (fun _ _ _ => Expr.noConfusion) stands
        cases same
        exact unread
  · intro unread
    exact ⟨form, listed, _, outer, occurs, .unused (List.mem_of_getElem? found) unread⟩

/-- A lambda that binds a parameter of the one around it again, and reads it and the other one. -/
def rebinding : Expr :=
  .lambda ⟨⟨14, 1, 15⟩, ⟨33, 1, 34⟩⟩ none [[121]]
    (.call ⟨⟨26, 1, 27⟩, ⟨32, 1, 33⟩⟩ (.var ⟨⟨27, 1, 28⟩, ⟨28, 1, 29⟩⟩ [43])
      [.var ⟨⟨29, 1, 30⟩, ⟨30, 1, 31⟩⟩ [120], .var ⟨⟨31, 1, 32⟩, ⟨32, 1, 33⟩⟩ [121]])

theorem unusedParameter_mem_ofExprs_rebinding :
    Reader.parse (utf8 "(lambda (x y) (lambda (y) (+ x y)))") =
        .ok [.lambda ⟨⟨0, 1, 1⟩, ⟨34, 1, 35⟩⟩ none [[120], [121]] rebinding] ∧
      (⟨⟨0, 1, 1⟩, .unusedParameter [121]⟩ : Warning) ∈
        ofExprs [.lambda ⟨⟨0, 1, 1⟩, ⟨34, 1, 35⟩⟩ none [[120], [121]] rebinding] ∧
      ¬ ∃ place name between,
        Occurs (.var place name) (between ++ [⟨none, [[120], [121]]⟩])
          [⟨none, [[120], [121]]⟩] rebinding ∧
        Binder.resolve? name (between ++ [⟨none, [[120], [121]]⟩]) = some (between.length, 1) := by
  have parsed : Reader.parse (utf8 "(lambda (x y) (lambda (y) (+ x y)))") =
      .ok [.lambda ⟨⟨0, 1, 1⟩, ⟨34, 1, 35⟩⟩ none [[120], [121]] rebinding] := by cbv
  have warned : (⟨⟨0, 1, 1⟩, .unusedParameter [121]⟩ : Warning) ∈
      ofExprs [.lambda ⟨⟨0, 1, 1⟩, ⟨34, 1, 35⟩⟩ none [[120], [121]] rebinding] := by decide
  exact ⟨parsed, warned, (unusedParameter_mem_ofExprs_iff parsed (List.mem_singleton_self _) .refl
    (by decide) rfl).mp warned⟩

end Lint

end ClosureLisp
