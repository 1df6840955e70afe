import ClosureLisp.Proofs.Compilation
import ClosureLisp.Proofs.Layouts
import ClosureLisp.Proofs.Serialization

/-!
# The code of a program is a function of its canonical form

`Canon.generate` generates code from a canonical form, in which locals have no names. Where no
lambda repeats a parameter and no coordinate is cut, `Expr.generate` yields what it yields for
the canonical form of the expression, so programs with one canonical form have one code.
-/

namespace ClosureLisp

/-! ## What the canonical form does not show -/

namespace Expr

mutual

/-- The parameter lists of the lambdas in an expression. -/
def parameterLists : Expr → List (List Name)
  | .int _ _ => []
  | .bool _ _ => []
  | .var _ _ => []
  | .ifThen _ test consequent => parameterLists test ++ parameterLists consequent
  | .ifElse _ test consequent alternative =>
      parameterLists test ++ (parameterLists consequent ++ parameterLists alternative)
  | .define _ _ value => parameterLists value
  | .lambda _ _ parameters body => parameters :: parameterLists body
  | .call _ callee arguments => parameterLists callee ++ parameterListsAll arguments

/-- The same for expressions in a row. -/
def parameterListsAll : List Expr → List (List Name)
  | [] => []
  | expr :: rest => parameterLists expr ++ parameterListsAll rest

end

mutual

/-- The coordinates of the bound names in an expression inside the given lambdas. -/
def coordinates (binders : List Binder) : Expr → List Nat
  | .int _ _ => []
  | .bool _ _ => []
  | .var _ name =>
      match Binder.resolve? name binders with
      | some (depth, slot) => [depth, slot]
      | none => []
  | .ifThen _ test consequent => coordinates binders test ++ coordinates binders consequent
  | .ifElse _ test consequent alternative =>
      coordinates binders test ++
        (coordinates binders consequent ++ coordinates binders alternative)
  | .define _ _ value => coordinates binders value
  | .lambda _ self parameters body => coordinates (⟨self, parameters⟩ :: binders) body
  | .call _ callee arguments => coordinates binders callee ++ coordinatesAll binders arguments

/-- The same for expressions in a row. -/
def coordinatesAll (binders : List Binder) : List Expr → List Nat
  | [] => []
  | expr :: rest => coordinates binders expr ++ coordinatesAll binders rest

end

/-- The first number that is too large for a coordinate of sixteen bits. -/
def coordinateRange : Nat := 65536

end Expr

/-! ## Code from canonical forms -/

namespace Canon

open ClosureLisp.Expr (word jumpSize thenOffset)

/-- The code of a lambda with the given layout after its body. -/
def lambdaCode (offset : Nat) (bodyCode : List Instr) (layout : Layout) : List Instr :=
  .jump (word (offset + jumpSize + Instr.sizeAll bodyCode + 1)) :: bodyCode ++ .ret ::
    layout.copies.map (fun copy => .get (word copy.parentSlot)) ++
    [.makeLambda (word (offset + jumpSize)) (word layout.arity) (word layout.copies.length)]

mutual

/-- The instructions of a canonical form at an offset. -/
def generate (globals : Name → Option Nat) (offset : Nat) (layouts : List Layout) :
    Canon → Option (List Instr × List Layout)
  | .int value => some ([.push (.int value)], layouts)
  | .bool value => some ([.push (.bool value)], layouts)
  | .bound depth slot =>
      (Layout.resolve? depth.toNat slot.toNat layouts).map fun (slot, layouts) =>
        ([.get (word slot)], layouts)
  | .free name => (globals name).map fun slot => ([.getGlobal (word slot)], layouts)
  | .ifThen test consequent => do
      let (testCode, layouts) ← generate globals offset layouts test
      let thenAt := thenOffset offset testCode
      let (thenCode, layouts) ← generate globals thenAt layouts consequent
      let stop := thenAt + Instr.sizeAll thenCode
      some (testCode ++ [.jumpIf (word thenAt), .push .nil] ++ .jump (word stop) :: thenCode,
        layouts)
  | .ifElse test consequent alternative => do
      let (testCode, layouts) ← generate globals offset layouts test
      let elseAt := offset + Instr.sizeAll testCode + jumpSize
      let (elseCode, layouts) ← generate globals elseAt layouts alternative
      let thenAt := elseAt + Instr.sizeAll elseCode + jumpSize
      let (thenCode, layouts) ← generate globals thenAt layouts consequent
      let stop := thenAt + Instr.sizeAll thenCode
      some (testCode ++ .jumpIf (word thenAt) :: elseCode ++ .jump (word stop) :: thenCode,
        layouts)
  | .lambda arity body => do
      let (bodyCode, bodyLayouts) ←
        generate globals (offset + jumpSize) (.fresh arity :: layouts) body
      some (lambdaCode offset bodyCode (bodyLayouts.headD (.fresh arity)), bodyLayouts.tail)
  | .call callee arguments => do
      let (argumentCode, layouts) ← generateAll globals offset layouts arguments
      let (calleeCode, layouts) ←
        generate globals (offset + Instr.sizeAll argumentCode) layouts callee
      some (argumentCode ++ calleeCode ++ [.call (word arguments.length)], layouts)
  | .define _ _ => none
  | .program _ => none

/-- The instructions of canonical forms one after the other. -/
def generateAll (globals : Name → Option Nat) (offset : Nat) (layouts : List Layout) :
    List Canon → Option (List Instr × List Layout)
  | [] => some ([], layouts)
  | node :: rest => do
      let (code, layouts) ← generate globals offset layouts node
      let (restCode, layouts) ←
        generateAll globals (offset + Instr.sizeAll code) layouts rest
      some (code ++ restCode, layouts)

end

theorem length_ofExprs (binders : List Binder) (exprs : List Expr) :
    (ofExprs binders exprs).length = exprs.length := by
  induction exprs with
  | nil => rfl
  | cons expr rest ih => rw [ofExprs, List.length_cons, List.length_cons, ih]

theorem ofExpr_eq_define {binders : List Binder} {expr : Expr} {name : Name} {value : Canon}
    (same : ofExpr binders expr = .define name value) :
    ∃ span inner, expr = .define span name inner ∧ ofExpr binders inner = value := by
  cases expr with
  | define span found inner =>
      rw [ofExpr] at same
      cases same
      exact ⟨span, inner, rfl, rfl⟩
  | var span found =>
      rw [ofExpr, ofName] at same
      split at same <;> cases same
  | _ =>
      rw [ofExpr] at same
      cases same

/-- The code of a lambda depends on its frame through the layout only. -/
theorem lambdaCode_layout (offset : Nat) (bodyCode : List Instr) (outer : List Binder)
    (frame : Frame) :
    lambdaCode offset bodyCode (frame.layout outer) =
      Expr.lambdaCode offset frame.parameters.length bodyCode frame := by
  simp [lambdaCode, Expr.lambdaCode, Frame.layout, Frame.arity, Function.comp_def]

end Canon

/-- Code generated inside frames is that of a canonical form, and what does not compile has no
canonical code either. -/
inductive Corresponds (frames : List Frame) :
    Generated → Option (List Instr × List Layout) → Prop where
  | done {code : List Instr} {after : List Frame} (sensible : Frame.Sensible after)
      (binders : after.map Frame.binder = frames.map Frame.binder) :
      Corresponds frames (.ok (code, after)) (some (code, Frame.layouts after))
  | failed {failure : GenerateFailure} : Corresponds frames (.error failure) none

theorem Corresponds.cases {frames : List Frame} {generated : Generated}
    {canonical : Option (List Instr × List Layout)}
    (corresponds : Corresponds frames generated canonical) :
    (∃ code after, generated = .ok (code, after) ∧ canonical = some (code, Frame.layouts after) ∧
      Frame.Sensible after ∧ after.map Frame.binder = frames.map Frame.binder) ∨
    ∃ failure, generated = .error failure ∧ canonical = none := by
  cases corresponds with
  | done sensible binders => exact .inl ⟨_, _, rfl, rfl, sensible, binders⟩
  | failed => exact .inr ⟨_, rfl, rfl⟩

namespace Expr

/-- Wherever it stands, the code of an expression is that of its canonical form, unless a lambda
in it repeats a parameter or a coordinate is cut. -/
def Canonical (globals : Name → Option Nat) (expr : Expr) : Prop :=
  (∀ parameters ∈ expr.parameterLists, parameters.Nodup) →
  ∀ frames : List Frame, Frame.Sensible frames →
  (∀ number ∈ expr.coordinates (frames.map Frame.binder), number < coordinateRange) →
  ∀ offset, Corresponds frames (expr.generate globals offset frames)
    ((Canon.ofExpr (frames.map Frame.binder) expr).generate globals offset (Frame.layouts frames))

variable {globals : Name → Option Nat}

theorem canonical_var (span : Span) (name : Name) : Canonical globals (.var span name) := by
  intro _ frames sensible narrow offset
  rw [generate, Canon.ofExpr, Canon.ofName]
  rw [coordinates] at narrow
  cases resolved : Binder.resolve? name (frames.map Frame.binder) with
  | some place =>
      obtain ⟨depth, slot⟩ := place
      obtain ⟨found, after, loaded, placed, kept, binders⟩ :=
        Frame.resolve?_layouts sensible resolved
      rw [resolved] at narrow
      obtain ⟨near, low, -⟩ := List.forall_mem_cons.mp narrow |>.imp id List.forall_mem_cons.mp
      have depthKept : depth.toUInt16.toNat = depth := UInt16.toNat_ofNat_of_lt' near
      have slotKept : slot.toUInt16.toNat = slot := UInt16.toNat_ofNat_of_lt' low
      simp only [loaded, Canon.generate, depthKept, slotKept, placed, Option.map_some]
      exact .done kept binders
  | none =>
      simp only [Frame.resolve?_eq_none sensible resolved, Canon.generate]
      cases globals name with
      | some slot => exact .done sensible rfl
      | none => exact .failed

theorem canonical_ifThen (span : Span) {test consequent : Expr}
    (ihTest : Canonical globals test) (ihConsequent : Canonical globals consequent) :
    Canonical globals (.ifThen span test consequent) := by
  intro distinct frames sensible narrow offset
  rw [parameterLists, List.forall_mem_append] at distinct
  rw [coordinates, List.forall_mem_append] at narrow
  rw [generate, Canon.ofExpr, Canon.generate]
  rcases (ihTest distinct.1 frames sensible narrow.1 offset).cases with
    ⟨testCode, middle, made, canonical, kept, binders⟩ | ⟨failure, made, canonical⟩
  · have second := ihConsequent distinct.2 middle kept (binders ▸ narrow.2)
      (thenOffset offset testCode)
    rw [binders] at second
    rcases second.cases with
      ⟨thenCode, after, laterMade, laterCanonical, laterKept, laterBinders⟩ |
        ⟨failure, laterMade, laterCanonical⟩
    · simp only [thenOffset] at laterMade laterCanonical
      simp only [made, canonical, laterMade, laterCanonical, thenOffset, Option.bind_eq_bind,
        Option.bind_some]
      exact .done laterKept (laterBinders.trans binders)
    · simp only [thenOffset] at laterMade laterCanonical
      simp only [made, canonical, laterMade, laterCanonical, thenOffset, Option.bind_eq_bind,
        Option.bind_some, Option.bind_none]
      exact .failed
  · simp only [made, canonical, Option.bind_eq_bind, Option.bind_none]
    exact .failed

theorem canonical_ifElse (span : Span) {test consequent alternative : Expr}
    (ihTest : Canonical globals test) (ihConsequent : Canonical globals consequent)
    (ihAlternative : Canonical globals alternative) :
    Canonical globals (.ifElse span test consequent alternative) := by
  intro distinct frames sensible narrow offset
  simp only [parameterLists, List.forall_mem_append] at distinct
  simp only [coordinates, List.forall_mem_append] at narrow
  rw [generate, Canon.ofExpr, Canon.generate]
  rcases (ihTest distinct.1 frames sensible narrow.1 offset).cases with
    ⟨testCode, middle, made, canonical, kept, binders⟩ | ⟨failure, made, canonical⟩
  · have second := ihAlternative distinct.2.2 middle kept (binders ▸ narrow.2.2)
      (offset + Instr.sizeAll testCode + jumpSize)
    rw [binders] at second
    rcases second.cases with
      ⟨elseCode, later, laterMade, laterCanonical, laterKept, laterBinders⟩ |
        ⟨failure, laterMade, laterCanonical⟩
    · have third := ihConsequent distinct.2.1 later laterKept
        (laterBinders.trans binders ▸ narrow.2.1)
        (offset + Instr.sizeAll testCode + jumpSize + Instr.sizeAll elseCode + jumpSize)
      rw [laterBinders, binders] at third
      rcases third.cases with
        ⟨thenCode, after, lastMade, lastCanonical, lastKept, lastBinders⟩ |
          ⟨failure, lastMade, lastCanonical⟩
      · simp only [made, canonical, laterMade, laterCanonical, lastMade, lastCanonical,
          Option.bind_eq_bind, Option.bind_some]
        exact .done lastKept (lastBinders.trans (laterBinders.trans binders))
      · simp only [made, canonical, laterMade, laterCanonical, lastMade, lastCanonical,
          Option.bind_eq_bind, Option.bind_some, Option.bind_none]
        exact .failed
    · simp only [made, canonical, laterMade, laterCanonical, Option.bind_eq_bind,
        Option.bind_some, Option.bind_none]
      exact .failed
  · simp only [made, canonical, Option.bind_eq_bind, Option.bind_none]
    exact .failed

theorem canonical_lambda (span : Span) (self : Option Name) (parameters : List Name) {body : Expr}
    (ih : Canonical globals body) : Canonical globals (.lambda span self parameters body) := by
  intro distinct frames sensible narrow offset
  obtain ⟨once, distinct⟩ := List.forall_mem_cons.mp distinct
  rw [generate, Canon.ofExpr, Canon.generate, Frame.new?, if_pos once]
  have fresh : Frame.Sensible (⟨parameters, self, []⟩ :: frames) :=
    ⟨once, fun capture listed => absurd listed List.not_mem_nil, sensible⟩
  have inner := ih distinct (⟨parameters, self, []⟩ :: frames) fresh narrow (offset + jumpSize)
  rw [Frame.layouts] at inner
  change Corresponds _ _ (Canon.generate _ _ (.fresh parameters.length :: _)
    (Canon.ofExpr (⟨self, parameters⟩ :: _) body)) at inner
  rcases inner.cases with
    ⟨bodyCode, bodyFrames, made, canonical, kept, binders⟩ | ⟨failure, made, canonical⟩
  · cases bodyFrames with
    | nil => cases binders
    | cons frame after =>
        obtain ⟨own, outer⟩ := List.cons.inj binders
        have listed : frame.parameters = parameters := congrArg Binder.parameters own
        simp only [made, canonical, Option.bind_eq_bind, Option.bind_some, Frame.layouts,
          List.headD_cons, List.tail_cons, Canon.lambdaCode_layout, listed]
        exact .done kept.2.2 outer
  · simp only [made, canonical, Option.bind_eq_bind, Option.bind_none]
    exact .failed

theorem generateAll_corresponds {exprs : List Expr} (each : ∀ expr ∈ exprs, Canonical globals expr)
    (distinct : ∀ parameters ∈ parameterListsAll exprs, parameters.Nodup) {frames : List Frame}
    (sensible : Frame.Sensible frames)
    (narrow : ∀ number ∈ coordinatesAll (frames.map Frame.binder) exprs, number < coordinateRange)
    (offset : Nat) :
    Corresponds frames (generateAll globals offset frames exprs)
      (Canon.generateAll globals offset (Frame.layouts frames)
        (Canon.ofExprs (frames.map Frame.binder) exprs)) := by
  induction exprs generalizing frames offset with
  | nil => exact .done sensible rfl
  | cons expr rest ih =>
      obtain ⟨first, each⟩ := List.forall_mem_cons.mp each
      rw [parameterListsAll, List.forall_mem_append] at distinct
      rw [coordinatesAll, List.forall_mem_append] at narrow
      rw [generateAll, Canon.ofExprs, Canon.generateAll]
      rcases (first distinct.1 frames sensible narrow.1 offset).cases with
        ⟨code, middle, made, canonical, kept, binders⟩ | ⟨failure, made, canonical⟩
      · have second := ih each distinct.2 kept (binders ▸ narrow.2) (offset + Instr.sizeAll code)
        rw [binders] at second
        rcases second.cases with
          ⟨restCode, after, laterMade, laterCanonical, laterKept, laterBinders⟩ |
            ⟨failure, laterMade, laterCanonical⟩
        · simp only [made, canonical, laterMade, laterCanonical, Option.bind_eq_bind,
            Option.bind_some]
          exact .done laterKept (laterBinders.trans binders)
        · simp only [made, canonical, laterMade, laterCanonical, Option.bind_eq_bind,
            Option.bind_some, Option.bind_none]
          exact .failed
      · simp only [made, canonical, Option.bind_eq_bind, Option.bind_none]
        exact .failed

theorem canonical_call (span : Span) {callee : Expr} {arguments : List Expr}
    (ihCallee : Canonical globals callee)
    (ihArguments : ∀ argument ∈ arguments, Canonical globals argument) :
    Canonical globals (.call span callee arguments) := by
  intro distinct frames sensible narrow offset
  rw [parameterLists, List.forall_mem_append] at distinct
  rw [coordinates, List.forall_mem_append] at narrow
  rw [generate, Canon.ofExpr, Canon.generate]
  rcases (generateAll_corresponds ihArguments distinct.2 sensible narrow.2 offset).cases with
    ⟨argumentCode, middle, made, canonical, kept, binders⟩ | ⟨failure, made, canonical⟩
  · have second := ihCallee distinct.1 middle kept (binders ▸ narrow.1)
      (offset + Instr.sizeAll argumentCode)
    rw [binders] at second
    rcases second.cases with
      ⟨calleeCode, after, laterMade, laterCanonical, laterKept, laterBinders⟩ |
        ⟨failure, laterMade, laterCanonical⟩
    · simp only [made, canonical, laterMade, laterCanonical, Option.bind_eq_bind,
        Option.bind_some, Canon.length_ofExprs]
      exact .done laterKept (laterBinders.trans binders)
    · simp only [made, canonical, laterMade, laterCanonical, Option.bind_eq_bind,
        Option.bind_some, Option.bind_none]
      exact .failed
  · simp only [made, canonical, Option.bind_eq_bind, Option.bind_none]
    exact .failed

theorem canonical (globals : Name → Option Nat) (expr : Expr) : Canonical globals expr := by
  induction expr using Expr.induction with
  | int span value => exact fun _ frames sensible _ offset => .done sensible rfl
  | bool span value => exact fun _ frames sensible _ offset => .done sensible rfl
  | var span name => exact canonical_var span name
  | ifThen span test consequent ihTest ihConsequent =>
      exact canonical_ifThen span ihTest ihConsequent
  | ifElse span test consequent alternative ihTest ihConsequent ihAlternative =>
      exact canonical_ifElse span ihTest ihConsequent ihAlternative
  | define span name value _ => exact fun _ _ _ _ _ => .failed
  | lambda span self parameters body ih => exact canonical_lambda span self parameters ih
  | call span callee arguments ihCallee ihArguments =>
      exact canonical_call span ihCallee ihArguments

/-- Code is generated for an expression only if no lambda in it repeats a parameter. -/
def ChecksParameters (globals : Name → Option Nat) (expr : Expr) : Prop :=
  ∀ {offset : Nat} {frames after : List Frame} {code : List Instr},
    expr.generate globals offset frames = .ok (code, after) →
      ∀ parameters ∈ expr.parameterLists, parameters.Nodup

theorem generateAll_checksParameters {exprs : List Expr}
    (each : ∀ expr ∈ exprs, ChecksParameters globals expr) {offset : Nat}
    {frames after : List Frame} {code : List Instr}
    (generated : generateAll globals offset frames exprs = .ok (code, after)) :
    ∀ parameters ∈ parameterListsAll exprs, parameters.Nodup := by
  induction exprs generalizing offset frames code with
  | nil => exact fun _ listed => absurd listed List.not_mem_nil
  | cons expr rest ih =>
      obtain ⟨checks, each⟩ := List.forall_mem_cons.mp each
      obtain ⟨firstCode, middle, restCode, first, rested, -⟩ := generateAll_cons generated
      rw [parameterListsAll, List.forall_mem_append]
      exact ⟨checks first, ih each rested⟩

theorem checksParameters (globals : Name → Option Nat) (expr : Expr) :
    ChecksParameters globals expr := by
  induction expr using Expr.induction with
  | int span value => exact fun _ _ listed => absurd listed List.not_mem_nil
  | bool span value => exact fun _ _ listed => absurd listed List.not_mem_nil
  | var span name => exact fun _ _ listed => absurd listed List.not_mem_nil
  | ifThen span test consequent ihTest ihConsequent =>
      intro offset frames after code generated
      obtain ⟨testCode, middle, thenCode, first, second, -⟩ := generate_ifThen generated
      rw [parameterLists, List.forall_mem_append]
      exact ⟨ihTest first, ihConsequent second⟩
  | ifElse span test consequent alternative ihTest ihConsequent ihAlternative =>
      intro offset frames after code generated
      obtain ⟨testCode, middle, elseCode, later, thenCode, first, second, third, -⟩ :=
        generate_ifElse generated
      simp only [parameterLists, List.forall_mem_append]
      exact ⟨ihTest first, ihConsequent third, ihAlternative second⟩
  | define span name value _ => exact fun generated => absurd generated generate_define
  | lambda span self parameters body ih =>
      intro offset frames after code generated
      obtain ⟨once, bodyCode, bodyFrames, inner, -⟩ := generate_lambda_raw generated
      exact List.forall_mem_cons.mpr ⟨once, ih inner⟩
  | call span callee arguments ihCallee ihArguments =>
      intro offset frames after code generated
      obtain ⟨argumentCode, middle, calleeCode, first, second, -⟩ := generate_call generated
      rw [parameterLists, List.forall_mem_append]
      exact ⟨ihCallee second, generateAll_checksParameters ihArguments first⟩

/-- Expressions with one canonical form have one code at top level. -/
theorem generate_of_ofExpr_eq {expr other : Expr} {offset : Nat} {instrs : List Instr}
    (same : Canon.ofExpr [] expr = Canon.ofExpr [] other)
    (narrow : ∀ number ∈ expr.coordinates [], number < coordinateRange)
    (distinct : ∀ parameters ∈ other.parameterLists, parameters.Nodup)
    (otherNarrow : ∀ number ∈ other.coordinates [], number < coordinateRange)
    (generated : expr.generate globals offset [] = .ok (instrs, [])) :
    ∃ after, other.generate globals offset [] = .ok (instrs, after) := by
  have first := canonical globals expr (checksParameters globals expr generated) [] True.intro
    narrow offset
  have second := canonical globals other distinct [] True.intro otherNarrow offset
  rw [List.map_nil, same] at first
  rw [List.map_nil] at second
  rw [generated] at first
  generalize (Canon.ofExpr [] other).generate globals offset _ = canonical at *
  cases first with
  | done _ _ =>
      rcases second.cases with ⟨code, after, made, given, -⟩ | ⟨failure, -, given⟩
      · obtain ⟨rfl, -⟩ := Prod.mk.inj (Option.some.inj given)
        exact ⟨after, made⟩
      · cases given

end Expr

/-! ## Programs -/

/-- Nothing of a program is cut when its canonical form is serialized: coordinates fit sixteen
bits, and lengths thirty-two. -/
def Program.Uncut (exprs : List Expr) : Prop :=
  (∀ number ∈ Expr.coordinatesAll [] exprs, number < Expr.coordinateRange) ∧
    (Canon.ofProgram exprs).Counted

namespace Compiler

variable {compiler later : Compiler}

theorem addCode_of_ofExpr_eq {expr other : Expr} {last : Instr}
    (same : Canon.ofExpr [] expr = Canon.ofExpr [] other)
    (narrow : ∀ number ∈ expr.coordinates [], number < Expr.coordinateRange)
    (distinct : ∀ parameters ∈ other.parameterLists, parameters.Nodup)
    (otherNarrow : ∀ number ∈ other.coordinates [], number < Expr.coordinateRange)
    (added : compiler.addCode expr last = (none, later)) :
    compiler.addCode other last = (none, later) := by
  obtain ⟨instrs, generated, rfl⟩ := addCode_eq_none added
  obtain ⟨after, otherGenerated⟩ :=
    Expr.generate_of_ofExpr_eq same narrow distinct otherNarrow generated
  rw [addCode, otherGenerated]

theorem addForm_of_not_define {expr : Expr}
    (other : ∀ span name value, expr ≠ .define span name value) :
    compiler.addForm expr = compiler.addCode expr .pop := by
  cases expr with
  | define span name value => exact absurd rfl (other span name value)
  | _ => rfl

theorem addForm_of_ofExpr_eq {expr other : Expr}
    (same : Canon.ofExpr [] expr = Canon.ofExpr [] other)
    (narrow : ∀ number ∈ expr.coordinates [], number < Expr.coordinateRange)
    (distinct : ∀ parameters ∈ other.parameterLists, parameters.Nodup)
    (otherNarrow : ∀ number ∈ other.coordinates [], number < Expr.coordinateRange)
    (added : compiler.addForm expr = (none, later)) :
    compiler.addForm other = (none, later) := by
  by_cases defines : ∃ span name value, expr = .define span name value
  · obtain ⟨span, name, value, rfl⟩ := defines
    rw [Canon.ofExpr] at same
    obtain ⟨otherSpan, inner, rfl, equal⟩ := Canon.ofExpr_eq_define same.symm
    rw [addForm] at added ⊢
    cases free : compiler.slot? name with
    | some slot =>
        rw [free] at added
        cases added
    | none =>
        simp only [free] at added ⊢
        split at added
        · cases added
        · next written =>
            rw [addCode_of_ofExpr_eq equal.symm narrow distinct otherNarrow written]
            exact added
  · have plain : ∀ span name value, other ≠ .define span name value := by
      rintro span name value rfl
      rw [Canon.ofExpr] at same
      obtain ⟨otherSpan, inner, rfl, -⟩ := Canon.ofExpr_eq_define same
      exact defines ⟨_, _, _, rfl⟩
    rw [addForm_of_not_define fun span name value equal => defines ⟨span, name, value, equal⟩]
      at added
    rw [addForm_of_not_define plain]
    exact addCode_of_ofExpr_eq same narrow distinct otherNarrow added

/-- Batches with one canonical form are compiled alike. -/
theorem addForms_of_ofExprs_eq {exprs others : List Expr}
    (same : Canon.ofExprs [] exprs = Canon.ofExprs [] others)
    (narrow : ∀ number ∈ Expr.coordinatesAll [] exprs, number < Expr.coordinateRange)
    (distinct : ∀ parameters ∈ Expr.parameterListsAll others, parameters.Nodup)
    (otherNarrow : ∀ number ∈ Expr.coordinatesAll [] others, number < Expr.coordinateRange)
    (added : compiler.addForms exprs = (none, later)) :
    compiler.addForms others = (none, later) := by
  induction exprs generalizing compiler others with
  | nil =>
      cases others with
      | nil => exact added
      | cons other others => cases same
  | cons expr exprs ih =>
      cases others with
      | nil => cases same
      | cons other others =>
          obtain ⟨first, rest⟩ := List.cons.inj same
          rw [Expr.coordinatesAll, List.forall_mem_append] at narrow otherNarrow
          rw [Expr.parameterListsAll, List.forall_mem_append] at distinct
          obtain ⟨middle, added, rested⟩ := addForms_cons added
          rw [addForms, addForm_of_ofExpr_eq first narrow.1 distinct.1 otherNarrow.1 added]
          exact ih rest narrow.2 distinct.2 otherNarrow.2 rested

/-- Batches compile only if no lambda repeats a parameter. -/
theorem distinct_of_addForms {exprs : List Expr}
    (added : compiler.addForms exprs = (none, later)) :
    ∀ parameters ∈ Expr.parameterListsAll exprs, parameters.Nodup := by
  induction exprs generalizing compiler with
  | nil => exact fun _ listed => absurd listed List.not_mem_nil
  | cons expr exprs ih =>
      obtain ⟨middle, first, rested⟩ := addForms_cons added
      rw [Expr.parameterListsAll, List.forall_mem_append]
      refine ⟨?_, ih rested⟩
      cases adds_of_addForm first with
      | define free generated =>
          rw [Expr.parameterLists]
          exact Expr.checksParameters _ _ generated
      | value generated => exact Expr.checksParameters _ _ generated

end Compiler

/-- No lambda of a program that compiles repeats a parameter. -/
theorem Program.distinct_of_ofExprs {exprs : List Expr} {program : Program}
    (compiled : Program.ofExprs exprs = .ok program) :
    ∀ parameters ∈ Expr.parameterListsAll exprs, parameters.Nodup := by
  obtain ⟨later, added, -⟩ := Compiler.ofExprs_eq_ok compiled
  exact Compiler.distinct_of_addForms added

/-- A program compiles as any other one with the same canonical form does. -/
theorem Program.ofExprs_of_encode_eq {exprs others : List Expr} {program : Program}
    (uncut : Uncut exprs) (otherUncut : Uncut others)
    (distinct : ∀ parameters ∈ Expr.parameterListsAll others, parameters.Nodup)
    (same : (Canon.ofProgram exprs).encode = (Canon.ofProgram others).encode)
    (compiled : Program.ofExprs exprs = .ok program) : Program.ofExprs others = .ok program := by
  obtain ⟨later, added, shape⟩ := Compiler.ofExprs_eq_ok compiled
  have equal := Canon.encode_inj uncut.2 otherUncut.2 same
  rw [Canon.ofProgram, Canon.ofProgram, Canon.program.injEq] at equal
  have otherAdded :=
    Compiler.addForms_of_ofExprs_eq equal uncut.1 distinct otherUncut.1 added
  rw [Program.ofExprs, Compiler.compile, otherAdded, shape]
  rfl

/-- The cache key is sound where it cuts nothing: programs that compile and whose serialized
canonical forms are equal have the same code and the same table of globals. -/
theorem Program.code_eq_of_encode_eq (exprs others : List Expr) (program other : Program)
    (compiled : Program.ofExprs exprs = .ok program)
    (otherCompiled : Program.ofExprs others = .ok other) (uncut : Uncut exprs)
    (otherUncut : Uncut others)
    (same : (Canon.ofProgram exprs).encode = (Canon.ofProgram others).encode) :
    program.code = other.code ∧ program.globals = other.globals := by
  have distinct := Program.distinct_of_ofExprs otherCompiled
  have again := Program.ofExprs_of_encode_eq uncut otherUncut distinct same compiled
  rw [otherCompiled] at again
  cases again
  exact ⟨rfl, rfl⟩

theorem Program.code_eq_of_encode_eq_renamed :
    ∃ program other : Program,
      Program.ofExprs [.lambda default none [[120], [121]] (.var default [121])] = .ok program ∧
      Program.ofExprs [.lambda default none [[97], [98]] (.var default [98])] = .ok other ∧
      program.code = other.code ∧ program.globals = other.globals := by
  obtain ⟨program, compiled⟩ : ∃ program, Program.ofExprs
      [.lambda default none [[120], [121]] (.var default [121])] = .ok program := ⟨_, rfl⟩
  obtain ⟨other, otherCompiled⟩ : ∃ other, Program.ofExprs
      [.lambda default none [[97], [98]] (.var default [98])] = .ok other := ⟨_, rfl⟩
  refine ⟨program, other, compiled, otherCompiled,
    Program.code_eq_of_encode_eq _ _ _ _ compiled otherCompiled ?_ ?_ rfl⟩ <;>
    unfold Program.Uncut Canon.Counted <;> decide

/-! ## Cut coordinates -/

namespace Projection

/-- The function that yields one of its arguments. -/
def exprs (parameters : List Name) (name : Name) : List Expr :=
  [.lambda default none parameters (.var default name)]

/-- The code of the function, which shows the slot in full. -/
def instrs (arity slot : Nat) : List Instr :=
  [.jump (Expr.word 11), .get (Expr.word slot), .ret,
    .makeLambda (Expr.word 5) (Expr.word arity) (Expr.word 0)]

variable {parameters : List Name} {name : Name} {slot : Nat}

theorem ofExprs_exprs (distinct : parameters.Nodup) (found : parameters.idxOf? name = some slot) :
    Program.ofExprs (exprs parameters name) =
      .ok ⟨(Compiler.new.write (instrs parameters.length slot ++ [.pop])).buffer.code,
        predefinedNames, 0⟩ := by
  have resolved : Frame.resolve? name [⟨parameters, none, []⟩] =
      some (slot, [⟨parameters, none, []⟩]) := by
    simp only [Frame.resolve?, Frame.slot?, found]
  have generated : (Expr.lambda default none parameters (.var default name)).generate
      Compiler.new.slot? Compiler.new.buffer.used [] =
        .ok (instrs parameters.length slot, []) := by
    rw [Expr.generate, Frame.new?, if_pos distinct]
    simp only [Expr.generate, resolved]
    rfl
  have added : Compiler.new.addForm (.lambda default none parameters (.var default name)) =
      (none, Compiler.new.write (instrs parameters.length slot ++ [.pop])) := by
    rw [Compiler.addForm_of_not_define fun _ _ _ => Expr.noConfusion, Compiler.addCode, generated]
  rw [Program.ofExprs, Compiler.compile, exprs, Compiler.addForms, added]
  rfl

theorem ofProgram_exprs (distinct : parameters.Nodup)
    (found : parameters.idxOf? name = some slot) :
    Canon.ofProgram (exprs parameters name) =
      .program [.lambda parameters.length (.bound 0 slot.toUInt16)] := by
  have resolved : Binder.resolve? name [⟨none, parameters⟩] = some (0, slot) := by
    rw [Binder.resolve?, Binder.slot?, Binder.lastIndex?_eq_idxOf? distinct, found]
  simp only [Canon.ofProgram, exprs, Canon.ofExprs, Canon.ofExpr, Canon.ofName, resolved]
  rfl

/-- A name for each number. -/
def nameOf (index : Nat) : Name :=
  List.replicate (index + 1) 97

/-- As many names. -/
def manyNames (count : Nat) : List Name :=
  (List.range count).map nameOf

variable {count index : Nat}

theorem nodup_manyNames (count : Nat) : (manyNames count).Nodup := by
  refine List.Pairwise.map nameOf (fun first second other same => other ?_) List.nodup_range
  have lengths := congrArg List.length same
  simpa [nameOf] using lengths

theorem length_manyNames (count : Nat) : (manyNames count).length = count := by
  rw [manyNames, List.length_map, List.length_range]

theorem idxOf?_manyNames (inside : index < count) :
    (manyNames count).idxOf? (nameOf index) = some index := by
  rw [List.idxOf?_eq_some_iff]
  refine ⟨by rw [length_manyNames]; exact inside, by simp [manyNames], ?_⟩
  intro earlier before same
  have lengths := congrArg List.length same
  simp [manyNames, nameOf] at lengths
  omega

end Projection

/-- Without that condition the key is not sound: the slots zero and 65536 are one in it. -/
theorem Program.code_ne_of_encode_eq :
    ¬ ∀ (exprs others : List Expr) (program other : Program),
      Program.ofExprs exprs = .ok program → Program.ofExprs others = .ok other →
      (Canon.ofProgram exprs).encode = (Canon.ofProgram others).encode →
      program.code = other.code ∧ program.globals = other.globals := by
  intro sound
  have distinct := Projection.nodup_manyNames 65537
  have first := Projection.idxOf?_manyNames (show 0 < 65537 by decide)
  have last := Projection.idxOf?_manyNames (show 65536 < 65537 by decide)
  have same : (Canon.ofProgram
      (Projection.exprs (Projection.manyNames 65537) (Projection.nameOf 0))).encode =
        (Canon.ofProgram
          (Projection.exprs (Projection.manyNames 65537) (Projection.nameOf 65536))).encode := by
    rw [Projection.ofProgram_exprs distinct first, Projection.ofProgram_exprs distinct last]
    rfl
  obtain ⟨equal, -⟩ := sound _ _ _ _ (Projection.ofExprs_exprs distinct first)
    (Projection.ofExprs_exprs distinct last) same
  have bytes := congrArg Array.toList equal
  simp only [Compiler.write, CodeBuffer.toList_code_emitAll, Projection.length_manyNames] at bytes
  revert bytes
  decide

end ClosureLisp
