import ClosureLisp.Proofs.Layouts
import ClosureLisp.Proofs.Verification

/-!
# Which batches compile

Compiling a batch checks its names on the way: frames are extended while code is generated, and
the table of globals grows from one form to the next. `WellScoped` states the rules without
frames, tables or an order. `batchViolations` lists all that breaks them in the order in which
code is generated. A batch compiles if the list is empty, which it is exactly if the batch is well
scoped, and otherwise the first entry is the error.
-/

namespace ClosureLisp

/-! ## Bound names -/

namespace Binder

variable {name : Name} {names : List Name} {binder : Binder} {binders : List Binder}

theorem lastIndex?_eq_none_iff : lastIndex? name names = none ↔ name ∉ names := by
  constructor
  · intro missing listed
    induction names with
    | nil => cases listed
    | cons first rest ih =>
        rw [lastIndex?] at missing
        split at missing
        · cases missing
        · next later =>
            split at missing
            · cases missing
            · next other =>
                rcases List.mem_cons.mp listed with same | listed
                · exact other same.symm
                · exact ih later listed
  · intro unlisted
    cases found : lastIndex? name names with
    | none => rfl
    | some index => exact absurd (List.mem_of_getElem? (getElem?_of_lastIndex? found)) unlisted

theorem binds_eq : binder.binds name = (binder.slot? name).isSome := by
  have parameters : binder.parameters.contains name =
      (lastIndex? name binder.parameters).isSome := by
    rw [Bool.eq_iff_iff, List.contains_iff_mem, ← not_iff_not, ← lastIndex?_eq_none_iff]
    simp
  rw [binds, parameters, slot?]
  cases lastIndex? name binder.parameters with
  | some index => rfl
  | none => by_cases named : binder.self = some name <;> simp [named]

/-- A name has coordinates exactly if a lambda around it binds it. -/
theorem any_binds : binders.any (·.binds name) = (resolve? name binders).isSome := by
  induction binders with
  | nil => rfl
  | cons binder outer ih =>
      rw [List.any_cons, ih, binds_eq, resolve?]
      cases binder.slot? name with
      | some slot => rfl
      | none => simp

end Binder

/-! ## Occurrences -/

namespace Expr

/-- Induction on expressions by what stands directly inside them. -/
theorem children_induction {motive : Expr → Prop}
    (step : ∀ expr, (∀ child ∈ expr.children, motive child) → motive expr) (expr : Expr) :
    motive expr := by
  induction expr using Expr.induction with
  | int span value | bool span value | var span name =>
      exact step _ fun _ listed => absurd listed List.not_mem_nil
  | ifThen span test consequent ihTest ihConsequent =>
      exact step _ (by simpa [children] using ⟨ihTest, ihConsequent⟩)
  | ifElse span test consequent alternative ihTest ihConsequent ihAlternative =>
      exact step _ (by simpa [children] using ⟨ihTest, ihConsequent, ihAlternative⟩)
  | define span name value ih => exact step _ (by simpa [children] using ih)
  | lambda span self parameters body ih => exact step _ (by simpa [children] using ih)
  | call span callee arguments ihCallee ihArguments =>
      exact step _ (List.forall_mem_cons.mpr ⟨ihCallee, ihArguments⟩)

/-- The lambda that an expression puts around its children, if it is one. -/
def opened : Expr → List Binder
  | .lambda _ self parameters _ => [⟨self, parameters⟩]
  | _ => []

/-- A part of an expression that stands inside the lambdas `inner`, where the whole expression
stands inside the lambdas `outer`, innermost first. -/
inductive Occurs (part : Expr) (inner : List Binder) : List Binder → Expr → Prop where
  | refl : Occurs part inner inner part
  | inside {child whole : Expr} {outer : List Binder} (listed : child ∈ whole.children)
      (occurs : Occurs part inner (whole.opened ++ outer) child) : Occurs part inner outer whole

variable {part whole expr : Expr} {inner outer binders : List Binder} {known : List Name}
  {error : SourceError}

theorem Occurs.within (occurs : Occurs part inner outer whole) : Within part whole := by
  induction occurs with
  | refl => exact .refl
  | inside listed _ ih => exact .inside listed ih

theorem Within.occurs (within : Within part whole) (outer : List Binder) :
    ∃ inner, Occurs part inner outer whole := by
  induction within generalizing outer with
  | refl => exact ⟨outer, .refl⟩
  | inside listed _ ih =>
      obtain ⟨inner, occurs⟩ := ih _
      exact ⟨inner, .inside listed occurs⟩

/-! ## Violations -/

/-- What is wrong with an expression itself below top level, whatever is wrong with its parts. The
lambdas around it are given, and the names that are known as globals. -/
@[mk_iff]
inductive Faulty (known : List Name) (binders : List Binder) : Expr → SourceError → Prop where
  | undefined {span : Span} {name : Name} (unbound : ∀ binder ∈ binders, ¬ binder.binds name)
      (unknown : name ∉ known) :
      Faulty known binders (.var span name) ⟨span.start, .undefined name⟩
  | nestedDefine {span : Span} {name : Name} {value : Expr} :
      Faulty known binders (.define span name value) ⟨span.start, .nestedDefine name⟩
  | repeatedParameters {span : Span} {self : Option Name} {parameters : List Name} {body : Expr}
      (repeated : ¬ parameters.Nodup) :
      Faulty known binders (.lambda span self parameters body)
        ⟨span.start, .repeatedParameters parameters⟩

mutual

/-- All that is wrong with an expression and its parts below top level, in the order in which code
is generated: the branch for a failed test before the other one, the arguments of a call before
what is called, the parameters of a lambda before its body. -/
def violations (known : List Name) (binders : List Binder) : Expr → List SourceError
  | .int _ _ => []
  | .bool _ _ => []
  | .var span name =>
      if binders.any (·.binds name) || known.contains name then []
      else [⟨span.start, .undefined name⟩]
  | .ifThen _ test consequent =>
      violations known binders test ++ violations known binders consequent
  | .ifElse _ test consequent alternative =>
      violations known binders test ++
        (violations known binders alternative ++ violations known binders consequent)
  | .define span name value =>
      ⟨span.start, .nestedDefine name⟩ :: violations known binders value
  | .lambda span self parameters body =>
      (if ¬ parameters.Nodup then [⟨span.start, .repeatedParameters parameters⟩] else []) ++
        violations known (⟨self, parameters⟩ :: binders) body
  | .call _ callee arguments =>
      violationsAll known binders arguments ++ violations known binders callee

/-- The same for expressions in a row. -/
def violationsAll (known : List Name) (binders : List Binder) : List Expr → List SourceError
  | [] => []
  | expr :: rest => violations known binders expr ++ violationsAll known binders rest

end

theorem mem_violationsAll {exprs : List Expr} :
    error ∈ violationsAll known binders exprs ↔
      ∃ expr ∈ exprs, error ∈ expr.violations known binders := by
  induction exprs with
  | nil => simp [violationsAll]
  | cons expr rest ih => simp [violationsAll, ih]

/-- A violation is a fault of the expression itself or a violation of a part. -/
theorem mem_violations : error ∈ expr.violations known binders ↔
    Faulty known binders expr error ∨
      ∃ child ∈ expr.children, error ∈ child.violations known (expr.opened ++ binders) := by
  rw [faulty_iff]
  cases expr with
  | int span value | bool span value => simp [violations, children]
  | var span name => simp [violations, children, and_assoc]
  | ifThen span test consequent | define span name value =>
      simp [violations, children, opened]
  | ifElse span test consequent alternative =>
      simp [violations, children, opened, or_comm]
  | lambda span self parameters body =>
      simp [violations, children, opened, List.mem_ite_nil_left]
  | call span callee arguments =>
      simp [violations, children, opened, mem_violationsAll, or_comm]

/-- Exactly the faults of all parts are listed as violations. -/
theorem mem_violations_iff : error ∈ expr.violations known binders ↔
    ∃ part inner, Occurs part inner binders expr ∧ Faulty known inner part error := by
  constructor
  · intro listed
    induction expr using children_induction generalizing binders with
    | step expr ih =>
        rcases mem_violations.mp listed with fault | ⟨child, inside, listed⟩
        · exact ⟨expr, binders, .refl, fault⟩
        · obtain ⟨part, inner, occurs, fault⟩ := ih child inside listed
          exact ⟨part, inner, .inside inside occurs, fault⟩
  · rintro ⟨part, inner, occurs, fault⟩
    induction occurs with
    | refl => exact mem_violations.mpr (.inl fault)
    | inside listed _ ih => exact mem_violations.mpr (.inr ⟨_, listed, ih⟩)

/-! ## Generating code -/

/-- Code generation in a scope ends as the first violation says: without one it succeeds, and the
frames bind what they did. -/
inductive Settles (scope : List Binder) : Option SourceError → Generated → Prop where
  | done {code : List Instr} {after : List Frame} (sensible : Frame.Sensible after)
      (binders : after.map Frame.binder = scope) : Settles scope none (.ok (code, after))
  | failed {failure : GenerateFailure} {error : SourceError} (same : failure.error = error) :
      Settles scope (some error) (.error failure)

namespace Settles

variable {scope inner : List Binder} {first second : Option SourceError} {generated : Generated}
  {next : List Instr → List Frame → Generated} {wrap : GenerateFailure → GenerateFailure}

theorem cases (settles : Settles scope first generated) :
    (∃ code after, generated = .ok (code, after) ∧ first = none) ∨
    ∃ failure, generated = .error failure ∧ first = some failure.error := by
  cases settles with
  | done _ _ => exact .inl ⟨_, _, rfl, rfl⟩
  | failed same => exact .inr ⟨_, rfl, congrArg some same.symm⟩

/-- Code is generated further unless there was a violation; what has been written does not change
the error. -/
theorem andThen (settles : Settles inner first generated)
    (wrapped : ∀ failure, (wrap failure).error = failure.error)
    (later : ∀ code middle, Frame.Sensible middle → middle.map Frame.binder = inner →
      Settles scope second (next code middle)) :
    Settles scope (first.or second) (generated.onward wrap next) := by
  cases settles with
  | done sensible binders => exact later _ _ sensible binders
  | failed same => exact .failed ((wrapped _).trans same)

/-- The same where nothing can go wrong any more. -/
theorem finish (settles : Settles inner first generated)
    (wrapped : ∀ failure, (wrap failure).error = failure.error)
    (later : ∀ code middle, Frame.Sensible middle → middle.map Frame.binder = inner →
      Settles scope none (next code middle)) :
    Settles scope first (generated.onward wrap next) := by
  have settled := settles.andThen wrapped later
  rwa [Option.or_none] at settled

end Settles

/-- Wherever an expression stands, code generation ends with its first violation. -/
def Checked (globals : Name → Option Nat) (known : List Name) (expr : Expr) : Prop :=
  ∀ {frames : List Frame} {scope : List Binder}, Frame.Sensible frames →
    frames.map Frame.binder = scope → ∀ offset,
      Settles scope (expr.violations known scope).head? (expr.generate globals offset frames)

section Generation

variable {globals : Name → Option Nat}

theorem checked_var (listed : ∀ name, known.contains name = (globals name).isSome) (span : Span)
    (name : Name) : Checked globals known (.var span name) := by
  rintro frames scope sensible rfl offset
  simp only [violations, generate, Binder.any_binds, listed]
  cases resolved : Binder.resolve? name (frames.map Frame.binder) with
  | some place =>
      obtain ⟨slot, after, found, -, kept, binders⟩ := Frame.resolve?_layouts sensible resolved
      simp only [found]
      exact .done kept binders
  | none =>
      simp only [Frame.resolve?_eq_none sensible resolved]
      cases globals name with
      | some slot => exact .done sensible rfl
      | none => exact .failed rfl

theorem checked_ifThen (span : Span) {test consequent : Expr} (ihTest : Checked globals known test)
    (ihConsequent : Checked globals known consequent) :
    Checked globals known (.ifThen span test consequent) := by
  intro frames scope sensible binders offset
  rw [violations, generate, List.head?_append]
  refine (ihTest sensible binders offset).andThen (fun _ => rfl) ?_
  intro testCode middle kept middleBinders
  refine (ihConsequent kept middleBinders _).finish (fun _ => rfl) ?_
  exact fun _ _ => .done

theorem checked_ifElse (span : Span) {test consequent alternative : Expr}
    (ihTest : Checked globals known test) (ihConsequent : Checked globals known consequent)
    (ihAlternative : Checked globals known alternative) :
    Checked globals known (.ifElse span test consequent alternative) := by
  intro frames scope sensible binders offset
  rw [violations, generate, List.head?_append, List.head?_append]
  refine (ihTest sensible binders offset).andThen (fun _ => rfl) ?_
  intro testCode middle kept middleBinders
  refine (ihAlternative kept middleBinders _).andThen (fun _ => rfl) ?_
  intro elseCode later laterKept laterBinders
  refine (ihConsequent laterKept laterBinders _).finish (fun _ => rfl) ?_
  exact fun _ _ => .done

theorem checked_lambda (span : Span) (self : Option Name) (parameters : List Name) {body : Expr}
    (ih : Checked globals known body) :
    Checked globals known (.lambda span self parameters body) := by
  intro frames scope sensible binders offset
  rw [violations, generate, Frame.new?]
  by_cases distinct : parameters.Nodup
  · rw [if_neg (not_not_intro distinct), if_pos distinct, List.nil_append]
    have fresh : Frame.Sensible (⟨parameters, self, []⟩ :: frames) :=
      ⟨distinct, fun capture listed => absurd listed List.not_mem_nil, sensible⟩
    refine (ih fresh (congrArg (_ :: ·) binders) _).finish (fun _ => rfl) ?_
    intro bodyCode bodyFrames kept bodyBinders
    cases bodyFrames with
    | nil => cases bodyBinders
    | cons frame after => exact .done kept.2.2 (List.cons.inj bodyBinders).2
  · rw [if_pos distinct, if_neg distinct]
    exact .failed rfl

theorem checkedAll {exprs : List Expr} (each : ∀ expr ∈ exprs, Checked globals known expr)
    {frames : List Frame} {scope : List Binder} (sensible : Frame.Sensible frames)
    (binders : frames.map Frame.binder = scope) (offset : Nat) :
    Settles scope (violationsAll known scope exprs).head?
      (generateAll globals offset frames exprs) := by
  induction exprs generalizing frames offset with
  | nil => exact .done sensible binders
  | cons expr rest ih =>
      obtain ⟨first, each⟩ := List.forall_mem_cons.mp each
      rw [violationsAll, generateAll, List.head?_append]
      refine (first sensible binders offset).andThen (fun _ => rfl) ?_
      intro code middle kept middleBinders
      refine (ih each kept middleBinders _).finish (fun _ => rfl) ?_
      exact fun _ _ => .done

theorem checked_call (span : Span) {callee : Expr} {arguments : List Expr}
    (ihCallee : Checked globals known callee)
    (ihArguments : ∀ argument ∈ arguments, Checked globals known argument) :
    Checked globals known (.call span callee arguments) := by
  intro frames scope sensible binders offset
  rw [violations, generate, List.head?_append]
  refine (checkedAll ihArguments sensible binders offset).andThen (fun _ => rfl) ?_
  intro argumentCode middle kept middleBinders
  refine (ihCallee kept middleBinders _).finish (fun _ => rfl) ?_
  exact fun _ _ => .done

/-- Code is generated exactly for expressions without violations, and otherwise the first one is
the error. -/
theorem checked (listed : ∀ name, known.contains name = (globals name).isSome) (expr : Expr) :
    Checked globals known expr := by
  induction expr using Expr.induction with
  | int span value => exact fun sensible binders _ => .done sensible binders
  | bool span value => exact fun sensible binders _ => .done sensible binders
  | var span name => exact checked_var listed span name
  | ifThen span test consequent ihTest ihConsequent =>
      exact checked_ifThen span ihTest ihConsequent
  | ifElse span test consequent alternative ihTest ihConsequent ihAlternative =>
      exact checked_ifElse span ihTest ihConsequent ihAlternative
  | define span name value _ => exact fun _ _ _ => .failed rfl
  | lambda span self parameters body ih => exact checked_lambda span self parameters ih
  | call span callee arguments ihCallee ihArguments =>
      exact checked_call span ihCallee ihArguments

end Generation

end Expr

/-! ## Rules for names -/

namespace Expr

variable {part whole expr : Expr} {inner outer : List Binder} {known : List Name}

/-- The rules for the names in a top-level expression, given the names that are known before it. -/
structure WellScoped (known : Name → Prop) (form : Expr) : Prop where
  /-- Every name is bound by a lambda around it or known. -/
  bound : ∀ span name binders, Occurs (.var span name) binders [] form →
    (∃ binder ∈ binders, binder.binds name) ∨ known name
  /-- Only names that are not known yet are defined. -/
  fresh : ∀ span name value, form = .define span name value → ¬ known name
  /-- No define stands below top level. -/
  atTop : ∀ child ∈ form.children, ∀ span name value, ¬ Within (.define span name value) child
  /-- No lambda repeats a parameter. -/
  distinct : ∀ span self parameters body, Within (.lambda span self parameters body) form →
    parameters.Nodup

/-- The violations of a top-level expression: the name of a define comes before its value. -/
def formViolations (known : List Name) : Expr → List SourceError
  | .define span name value =>
      (if known.contains name then [⟨span.start, .redefined name⟩] else []) ++
        value.violations known []
  | expr => expr.violations known []

/-- The names that a top-level expression adds to the globals. -/
def definedNames : Expr → List Name
  | .define _ name _ => [name]
  | _ => []

theorem violations_eq_nil_iff : expr.violations known [] = [] ↔
    (∀ span name binders, Occurs (.var span name) binders [] expr →
      (∃ binder ∈ binders, binder.binds name) ∨ name ∈ known) ∧
    (∀ span name value, ¬ Within (.define span name value) expr) ∧
    ∀ span self parameters body, Within (.lambda span self parameters body) expr →
      parameters.Nodup := by
  rw [List.eq_nil_iff_forall_not_mem]
  simp only [mem_violations_iff]
  constructor
  · intro clean
    refine ⟨?_, ?_, ?_⟩
    · intro span name binders occurs
      by_contra unknown
      rw [not_or, not_exists] at unknown
      exact clean _ ⟨_, _, occurs, .undefined (fun binder listed binds =>
        unknown.1 binder ⟨listed, binds⟩) unknown.2⟩
    · intro span name value within
      obtain ⟨inner, occurs⟩ := within.occurs []
      exact clean _ ⟨_, _, occurs, .nestedDefine⟩
    · intro span self parameters body within
      by_contra repeated
      obtain ⟨inner, occurs⟩ := within.occurs []
      exact clean _ ⟨_, _, occurs, .repeatedParameters repeated⟩
  · rintro ⟨bound, atTop, distinct⟩ error ⟨part, inner, occurs, fault⟩
    cases fault with
    | undefined unbound unknown =>
        rcases bound _ _ _ occurs with ⟨binder, listed, binds⟩ | found
        · exact unbound binder listed binds
        · exact unknown found
    | nestedDefine => exact atTop _ _ _ occurs.within
    | repeatedParameters repeated => exact repeated (distinct _ _ _ _ occurs.within)

theorem formViolations_define {span : Span} {name : Name} {value : Expr} :
    (define span name value).formViolations known = [] ↔
      name ∉ known ∧ value.violations known [] = [] := by
  simp [formViolations]

theorem formViolations_of_not_define (other : ∀ span name value, expr ≠ .define span name value) :
    expr.formViolations known = expr.violations known [] := by
  cases expr with
  | define span name value => exact absurd rfl (other span name value)
  | _ => rfl

/-- A part of the value of a define is a part of the define. -/
theorem occurs_define {span : Span} {name : Name} {value : Expr}
    (other : part ≠ .define span name value) :
    Occurs part inner outer (.define span name value) ↔ Occurs part inner outer value := by
  constructor
  · intro occurs
    cases occurs with
    | refl => exact absurd rfl other
    | inside listed occurs =>
        rw [List.mem_singleton.mp listed] at occurs
        exact occurs
  · exact fun occurs => .inside (List.mem_singleton_self value) occurs

theorem within_iff :
    Within part whole ↔ part = whole ∨ ∃ child ∈ whole.children, Within part child := by
  constructor
  · intro within
    cases within with
    | refl => exact .inl rfl
    | inside listed within => exact .inr ⟨_, listed, within⟩
  · rintro (rfl | ⟨child, listed, within⟩)
    · exact .refl
    · exact .inside listed within

/-- A top-level expression without violations is one that obeys the rules. -/
theorem formViolations_eq_nil_iff {form : Expr} {knows : Name → Prop}
    (same : ∀ name, name ∈ known ↔ knows name) :
    form.formViolations known = [] ↔ form.WellScoped knows := by
  by_cases defines : ∃ span name value, form = .define span name value
  · obtain ⟨span, name, value, rfl⟩ := defines
    rw [formViolations_define, violations_eq_nil_iff]
    constructor
    · rintro ⟨fresh, bound, atTop, distinct⟩
      refine ⟨?_, ?_, ?_, ?_⟩
      · intro varSpan varName binders occurs
        rw [← same]
        exact bound _ _ _ ((occurs_define Expr.noConfusion).mp occurs)
      · rintro _ _ _ ⟨⟩
        exact (same name).not.mp fresh
      · exact List.forall_mem_singleton.mpr atTop
      · intro _ _ _ _ within
        rcases within_iff.mp within with same | ⟨child, listed, within⟩
        · cases same
        · rw [List.mem_singleton.mp listed] at within
          exact distinct _ _ _ _ within
    · rintro ⟨bound, fresh, atTop, distinct⟩
      refine ⟨(same name).not.mpr (fresh _ _ _ rfl), ?_, ?_, ?_⟩
      · intro varSpan varName binders occurs
        rw [same]
        exact bound _ _ _ ((occurs_define Expr.noConfusion).mpr occurs)
      · exact atTop value (List.mem_singleton_self value)
      · intro _ _ _ _ within
        exact distinct _ _ _ _ (.inside (List.mem_singleton_self value) within)
  · have other : ∀ span name value, form ≠ .define span name value :=
      fun span name value equal => defines ⟨span, name, value, equal⟩
    rw [formViolations_of_not_define other, violations_eq_nil_iff]
    simp only [same]
    constructor
    · rintro ⟨bound, atTop, distinct⟩
      refine ⟨bound, fun _ _ _ equal => absurd equal (other _ _ _), ?_, distinct⟩
      exact fun child listed _ _ _ within => atTop _ _ _ (.inside listed within)
    · rintro ⟨bound, -, atTop, distinct⟩
      refine ⟨bound, ?_, distinct⟩
      intro span name value within
      rcases within_iff.mp within with equal | ⟨child, listed, within⟩
      · exact other _ _ _ equal.symm
      · exact atTop child listed _ _ _ within

end Expr

/-! ## Batches -/

/-- A name is defined by one of the top-level expressions. -/
def Defines (forms : List Expr) (name : Name) : Prop :=
  ∃ span value, .define span name value ∈ forms

/-- The rules for the names of a batch that is compiled against a table of globals: what an
earlier form defines is known as well. -/
def WellScoped (table : List Name) (forms : List Expr) : Prop :=
  ∀ front form rest, forms = front ++ form :: rest →
    form.WellScoped fun name => name ∈ table ∨ Defines front name

/-- The violations of the top-level expressions of a batch. What one of them defines is known from
the next one on. -/
def batchViolations (known : List Name) : List Expr → List SourceError
  | [] => []
  | form :: rest =>
      form.formViolations known ++ batchViolations (known ++ form.definedNames) rest

theorem mem_definedNames {forms : List Expr} {name : Name} :
    name ∈ forms.flatMap Expr.definedNames ↔ Defines forms name := by
  rw [List.mem_flatMap]
  constructor
  · rintro ⟨form, listed, defined⟩
    cases form with
    | define span other value =>
        rw [List.mem_singleton.mp defined]
        exact ⟨span, value, listed⟩
    | _ => cases defined
  · rintro ⟨span, value, listed⟩
    exact ⟨_, listed, List.mem_singleton_self name⟩

/-- The violations of a batch are those of its forms, each against the names in front of it. -/
theorem batchViolations_eq_nil {known : List Name} {forms : List Expr} :
    batchViolations known forms = [] ↔ ∀ front form rest, forms = front ++ form :: rest →
      form.formViolations (known ++ front.flatMap Expr.definedNames) = [] := by
  induction forms generalizing known with
  | nil => simp [batchViolations]
  | cons first others ih =>
      rw [batchViolations, List.append_eq_nil_iff, ih]
      constructor
      · rintro ⟨clean, later⟩ front form rest whole
        cases front with
        | nil =>
            cases whole
            simpa using clean
        | cons _ front =>
            cases whole
            simpa using later front form rest rfl
      · intro each
        refine ⟨by simpa using each [] first others rfl, ?_⟩
        rintro front form rest rfl
        simpa using each (first :: front) form rest rfl

theorem batchViolations_eq_nil_iff {table : List Name} {forms : List Expr} :
    batchViolations table forms = [] ↔ WellScoped table forms := by
  have known : ∀ (front : List Expr) (name : Name),
      name ∈ table ++ front.flatMap Expr.definedNames ↔ name ∈ table ∨ Defines front name :=
    fun front name => by rw [List.mem_append, mem_definedNames]
  simp only [batchViolations_eq_nil, WellScoped, Expr.formViolations_eq_nil_iff (known _)]

namespace Compiler

variable {compiler later : Compiler}

theorem contains_globals (compiler : Compiler) (name : Name) :
    compiler.globals.contains name = (compiler.slot? name).isSome := by
  rw [Bool.eq_iff_iff, List.contains_iff_mem, slot?, List.isSome_idxOf?]

theorem addCode_fst (compiler : Compiler) (expr : Expr) (last : Instr) :
    (compiler.addCode expr last).1 = (expr.violations compiler.globals []).head? := by
  have sensible : Frame.Sensible [] := True.intro
  rw [addCode]
  rcases (Expr.checked compiler.contains_globals expr sensible rfl compiler.buffer.used).cases with
    ⟨code, after, generated, clean⟩ | ⟨failure, generated, first⟩
  · rw [generated]
    exact clean.symm
  · rw [generated]
    exact first.symm

theorem addForm_fst (compiler : Compiler) (form : Expr) :
    (compiler.addForm form).1 = (form.formViolations compiler.globals).head? := by
  by_cases defines : ∃ span name value, form = .define span name value
  · obtain ⟨span, name, value, rfl⟩ := defines
    rw [addForm, Expr.formViolations, contains_globals]
    have added := addCode_fst compiler value .defGlobal
    cases compiler.slot? name with
    | some slot => rfl
    | none =>
        rw [Option.isSome_none, if_neg Bool.false_ne_true, List.nil_append, ← added]
        generalize compiler.addCode value .defGlobal = outcome
        obtain ⟨error, middle⟩ := outcome
        cases error <;> rfl
  · have other : ∀ span name value, form ≠ .define span name value :=
      fun span name value equal => defines ⟨span, name, value, equal⟩
    rw [Expr.formViolations_of_not_define other, ← addCode_fst compiler form .pop]
    cases form with
    | define span name value => exact absurd rfl (other span name value)
    | _ => rfl

theorem globals_of_addForm {form : Expr} (added : compiler.addForm form = (none, later)) :
    later.globals = compiler.globals ++ form.definedNames := by
  cases adds_of_addForm added with
  | define free generated => rfl
  | value generated =>
      cases form with
      | define span name value => exact absurd generated Expr.generate_define
      | _ => exact (List.append_nil _).symm

/-- Adding the forms of a batch ends with the first violation. -/
theorem addForms_fst (compiler : Compiler) (forms : List Expr) :
    (compiler.addForms forms).1 = (batchViolations compiler.globals forms).head? := by
  induction forms generalizing compiler with
  | nil => rfl
  | cons form rest ih =>
      have first := addForm_fst compiler form
      rw [addForms, batchViolations, List.head?_append, ← first]
      split
      · next error middle failed =>
          rw [failed]
          rfl
      · next middle added =>
          rw [added, Option.none_or, ih, globals_of_addForm added]

/-- A program that compiles obeys the rules for names. -/
theorem wellScoped_of_ofExprs {forms : List Expr} {program : Program}
    (compiled : Program.ofExprs forms = .ok program) : WellScoped predefinedNames forms := by
  obtain ⟨later, added, -⟩ := ofExprs_eq_ok compiled
  have first := addForms_fst new forms
  rw [added] at first
  exact batchViolations_eq_nil_iff.mp (List.head?_eq_none_iff.mp first.symm)

/-- Static checking is exact. In every state of a compiler a batch compiles if and only if it obeys
the rules for names, and otherwise the first violation in the order of code generation is the
error. -/
theorem compile_checks (compiler : Compiler) (forms : List Expr) :
    ((∃ program, (compiler.compile forms).1 = .ok program) ↔
      WellScoped compiler.globals forms) ∧
    ∀ error, (compiler.compile forms).1 = .error error ↔
      (batchViolations compiler.globals forms).head? = some error := by
  have first := addForms_fst compiler forms
  rw [← batchViolations_eq_nil_iff, ← List.head?_eq_none_iff, ← first, compile]
  cases compiler.addForms forms with
  | mk failed later => cases failed <;> simp

end Compiler

end ClosureLisp
