import ClosureLisp.Proofs.Identity

/-!
# Programs up to the names of locals

Two expressions are renamings of each other if they have the same shape and each name in one
refers to the binder at the place to which the name in the other refers, or both are the same
global name. `Binder.Refers` says what a name refers to without the search that the compiler and
the canonical form make, `Expr.Renamed` compares expressions, and both the canonical form and the
code are the same for renamed expressions.
-/

namespace ClosureLisp

/-! ## References -/

namespace Binder

/-- What a name refers to inside the given lambdas, innermost first: the nearest lambda that binds
it, there a parameter, or else the lambda itself. -/
inductive Refers (name : Name) : List Binder → Nat × Nat → Prop where
  | parameter {binder : Binder} {outer : List Binder} {slot : Nat}
      (listed : binder.parameters[slot]? = some name) : Refers name (binder :: outer) (0, slot)
  | self {binder : Binder} {outer : List Binder} (unlisted : name ∉ binder.parameters)
      (own : binder.self = some name) :
      Refers name (binder :: outer) (0, binder.parameters.length)
  | outward {binder : Binder} {outer : List Binder} {depth slot : Nat}
      (unlisted : name ∉ binder.parameters) (other : binder.self ≠ some name)
      (found : Refers name outer (depth, slot)) : Refers name (binder :: outer) (depth + 1, slot)

/-- A name that no lambda binds. -/
def Unbound (name : Name) (binders : List Binder) : Prop :=
  ∀ binder ∈ binders, name ∉ binder.parameters ∧ binder.self ≠ some name

instance decidableUnbound (name : Name) (binders : List Binder) :
    Decidable (Unbound name binders) :=
  inferInstanceAs (Decidable (∀ binder ∈ binders, _ ∧ _))

/-- No lambda repeats a parameter. -/
def Distinct (binders : List Binder) : Prop :=
  ∀ binder ∈ binders, binder.parameters.Nodup

variable {binder : Binder} {binders : List Binder} {name : Name}

theorem slot?_of_listed {slot : Nat} (distinct : binder.parameters.Nodup)
    (listed : binder.parameters[slot]? = some name) : binder.slot? name = some slot := by
  obtain ⟨inside, same⟩ := List.getElem?_eq_some_iff.mp listed
  have first : binder.parameters.idxOf? name = some slot := by
    rw [← same, List.idxOf?_eq_some_iff]
    refine ⟨inside, rfl, fun earlier before again => ?_⟩
    exact Nat.ne_of_lt before ((List.getElem_inj distinct).mp again)
  rw [slot?, lastIndex?_eq_idxOf? distinct, first]

theorem slot?_of_unlisted (distinct : binder.parameters.Nodup)
    (unlisted : name ∉ binder.parameters) :
    binder.slot? name =
      if binder.self = some name then some binder.parameters.length else none := by
  rw [slot?, lastIndex?_eq_idxOf? distinct, List.idxOf?_eq_none_iff.mpr unlisted]

/-- The search finds what a name refers to. -/
theorem Refers.resolve? {place : Nat × Nat} (distinct : Distinct binders)
    (refers : Refers name binders place) : Binder.resolve? name binders = some place := by
  induction refers with
  | parameter listed =>
      obtain ⟨once, -⟩ := List.forall_mem_cons.mp distinct
      rw [Binder.resolve?, slot?_of_listed once listed]
  | self unlisted own =>
      obtain ⟨once, -⟩ := List.forall_mem_cons.mp distinct
      rw [Binder.resolve?, slot?_of_unlisted once unlisted, if_pos own]
  | outward unlisted other found ih =>
      obtain ⟨once, distinct⟩ := List.forall_mem_cons.mp distinct
      rw [Binder.resolve?, slot?_of_unlisted once unlisted, if_neg other]
      simp only [ih distinct, Option.map_some]

/-- The search finds nothing for a name that no lambda binds. -/
theorem Unbound.resolve? (distinct : Distinct binders) (unbound : Unbound name binders) :
    Binder.resolve? name binders = none := by
  induction binders with
  | nil => rfl
  | cons binder outer ih =>
      obtain ⟨once, distinct⟩ := List.forall_mem_cons.mp distinct
      obtain ⟨⟨unlisted, other⟩, unbound⟩ := List.forall_mem_cons.mp unbound
      rw [Binder.resolve?, slot?_of_unlisted once unlisted, if_neg other]
      simp only [ih distinct unbound, Option.map_none]

end Binder

/-! ## Renamed expressions -/

/-- Two names that refer to the same binder, or to one global slot because they are one name that
no lambda binds. -/
inductive Binder.SameReference (binders others : List Binder) : Name → Name → Prop where
  | bound {name other : Name} (place : Nat × Nat) (refers : Refers name binders place)
      (otherRefers : Refers other others place) : SameReference binders others name other
  | free {name : Name} (unbound : Unbound name binders) (otherUnbound : Unbound name others) :
      SameReference binders others name name

mutual

/-- Expressions inside the given lambdas that differ in spans and in the names of parameters and
of lambdas only, all names keeping their references. -/
inductive Expr.Renamed : (binders others : List Binder) → Expr → Expr → Prop where
  | int {binders others : List Binder} (span otherSpan : Span) (value : Int32) :
      Renamed binders others (.int span value) (.int otherSpan value)
  | bool {binders others : List Binder} (span otherSpan : Span) (value : Bool) :
      Renamed binders others (.bool span value) (.bool otherSpan value)
  | var {binders others : List Binder} {name other : Name} (span otherSpan : Span)
      (same : Binder.SameReference binders others name other) :
      Renamed binders others (.var span name) (.var otherSpan other)
  | ifThen {binders others : List Binder} {test consequent otherTest otherConsequent : Expr}
      (span otherSpan : Span) (tests : Renamed binders others test otherTest)
      (consequents : Renamed binders others consequent otherConsequent) :
      Renamed binders others (.ifThen span test consequent)
        (.ifThen otherSpan otherTest otherConsequent)
  | ifElse {binders others : List Binder}
      {test consequent alternative otherTest otherConsequent otherAlternative : Expr}
      (span otherSpan : Span) (tests : Renamed binders others test otherTest)
      (consequents : Renamed binders others consequent otherConsequent)
      (alternatives : Renamed binders others alternative otherAlternative) :
      Renamed binders others (.ifElse span test consequent alternative)
        (.ifElse otherSpan otherTest otherConsequent otherAlternative)
  | define {binders others : List Binder} {value otherValue : Expr} (span otherSpan : Span)
      (name : Name) (values : Renamed binders others value otherValue) :
      Renamed binders others (.define span name value) (.define otherSpan name otherValue)
  | lambda {binders others : List Binder} {body otherBody : Expr} (span otherSpan : Span)
      (self otherSelf : Option Name) {parameters otherParameters : List Name}
      (arity : parameters.length = otherParameters.length)
      (bodies : Renamed (⟨self, parameters⟩ :: binders) (⟨otherSelf, otherParameters⟩ :: others)
        body otherBody) :
      Renamed binders others (.lambda span self parameters body)
        (.lambda otherSpan otherSelf otherParameters otherBody)
  | call {binders others : List Binder} {callee otherCallee : Expr}
      {arguments otherArguments : List Expr} (span otherSpan : Span)
      (callees : Renamed binders others callee otherCallee)
      (each : RenamedAll binders others arguments otherArguments) :
      Renamed binders others (.call span callee arguments)
        (.call otherSpan otherCallee otherArguments)

/-- Expressions in a row that are renamings of each other one by one. -/
inductive Expr.RenamedAll : (binders others : List Binder) → List Expr → List Expr → Prop where
  | nil {binders others : List Binder} : RenamedAll binders others [] []
  | cons {binders others : List Binder} {expr other : Expr} {rest otherRest : List Expr}
      (first : Renamed binders others expr other)
      (later : RenamedAll binders others rest otherRest) :
      RenamedAll binders others (expr :: rest) (other :: otherRest)

end

/-! ## Canonical forms -/

namespace Canon

variable {binders others : List Binder}

/-- References that are the same have the same canonical form. -/
theorem ofName_of_sameReference {name other : Name} (distinct : Binder.Distinct binders)
    (otherDistinct : Binder.Distinct others)
    (same : Binder.SameReference binders others name other) :
    ofName binders name = ofName others other := by
  cases same with
  | bound place refers otherRefers =>
      rw [ofName, ofName, refers.resolve? distinct, otherRefers.resolve? otherDistinct]
  | free unbound otherUnbound =>
      rw [ofName, ofName, unbound.resolve? distinct, otherUnbound.resolve? otherDistinct]

/-- Inside lambdas that do not repeat parameters, renamings of an expression have its canonical
form. -/
def ForgetsNames (expr : Expr) : Prop :=
  ∀ {binders others : List Binder} {other : Expr}, Expr.Renamed binders others expr other →
    Binder.Distinct binders → Binder.Distinct others →
    (∀ parameters ∈ expr.parameterLists, parameters.Nodup) →
    (∀ parameters ∈ other.parameterLists, parameters.Nodup) →
      ofExpr binders expr = ofExpr others other

theorem ofExprs_eq_of_renamedAll {exprs rest : List Expr} (each : ∀ expr ∈ exprs, ForgetsNames expr)
    (renamed : Expr.RenamedAll binders others exprs rest) (distinct : Binder.Distinct binders)
    (otherDistinct : Binder.Distinct others)
    (once : ∀ parameters ∈ Expr.parameterListsAll exprs, parameters.Nodup)
    (otherOnce : ∀ parameters ∈ Expr.parameterListsAll rest, parameters.Nodup) :
    ofExprs binders exprs = ofExprs others rest := by
  induction exprs generalizing rest with
  | nil =>
      cases renamed
      rfl
  | cons expr exprs ih =>
      obtain ⟨forgets, each⟩ := List.forall_mem_cons.mp each
      cases renamed with
      | cons first later =>
          rw [Expr.parameterListsAll, List.forall_mem_append] at once otherOnce
          rw [ofExprs, ofExprs, forgets first distinct otherDistinct once.1 otherOnce.1,
            ih each later once.2 otherOnce.2]

theorem forgetsNames (expr : Expr) : ForgetsNames expr := by
  induction expr using Expr.induction with
  | int span value =>
      intro binders others other renamed _ _ _ _
      cases renamed
      rfl
  | bool span value =>
      intro binders others other renamed _ _ _ _
      cases renamed
      rfl
  | var span name =>
      intro binders others other renamed distinct otherDistinct _ _
      cases renamed with
      | var _ _ same => exact ofName_of_sameReference distinct otherDistinct same
  | ifThen span test consequent ihTest ihConsequent =>
      intro binders others other renamed distinct otherDistinct once otherOnce
      cases renamed with
      | ifThen _ _ tests consequents =>
          simp only [Expr.parameterLists, List.forall_mem_append] at once otherOnce
          rw [ofExpr, ofExpr, ihTest tests distinct otherDistinct once.1 otherOnce.1,
            ihConsequent consequents distinct otherDistinct once.2 otherOnce.2]
  | ifElse span test consequent alternative ihTest ihConsequent ihAlternative =>
      intro binders others other renamed distinct otherDistinct once otherOnce
      cases renamed with
      | ifElse _ _ tests consequents alternatives =>
          simp only [Expr.parameterLists, List.forall_mem_append] at once otherOnce
          rw [ofExpr, ofExpr, ihTest tests distinct otherDistinct once.1 otherOnce.1,
            ihConsequent consequents distinct otherDistinct once.2.1 otherOnce.2.1,
            ihAlternative alternatives distinct otherDistinct once.2.2 otherOnce.2.2]
  | define span name value ih =>
      intro binders others other renamed distinct otherDistinct once otherOnce
      cases renamed with
      | define _ _ _ values =>
          rw [ofExpr, ofExpr, ih values distinct otherDistinct once otherOnce]
  | lambda span self parameters body ih =>
      intro binders others other renamed distinct otherDistinct once otherOnce
      cases renamed with
      | lambda _ _ _ otherSelf arity bodies =>
          obtain ⟨own, once⟩ := List.forall_mem_cons.mp once
          obtain ⟨otherOwn, otherOnce⟩ := List.forall_mem_cons.mp otherOnce
          rw [ofExpr, ofExpr, arity, ih bodies (List.forall_mem_cons.mpr ⟨own, distinct⟩)
            (List.forall_mem_cons.mpr ⟨otherOwn, otherDistinct⟩) once otherOnce]
  | call span callee arguments ihCallee ihArguments =>
      intro binders others other renamed distinct otherDistinct once otherOnce
      cases renamed with
      | call _ _ callees each =>
          simp only [Expr.parameterLists, List.forall_mem_append] at once otherOnce
          rw [ofExpr, ofExpr, ihCallee callees distinct otherDistinct once.1 otherOnce.1,
            ofExprs_eq_of_renamedAll ihArguments each distinct otherDistinct once.2 otherOnce.2]

end Canon

/-! ## Code -/

theorem Frame.Sensible.distinct {frames : List Frame} (sensible : Frame.Sensible frames) :
    Binder.Distinct (frames.map Frame.binder) := by
  induction frames with
  | nil => exact fun _ listed => absurd listed List.not_mem_nil
  | cons frame outer ih =>
      obtain ⟨once, -, outerSensible⟩ := sensible
      exact List.forall_mem_cons.mpr ⟨once, ih outerSensible⟩

/-- Frames that may differ in names only. -/
structure Frame.Alike (frames others : List Frame) : Prop where
  sensible : Sensible frames
  otherSensible : Sensible others
  layouts : Frame.layouts frames = Frame.layouts others

/-- Frames that are still alike after code has been generated inside both, and that belong to the
lambdas to which they belonged before. -/
structure Frame.StayAlike (frames others after otherAfter : List Frame) : Prop where
  alike : Alike after otherAfter
  binders : after.map binder = frames.map binder
  otherBinders : otherAfter.map binder = others.map binder

namespace Frame

variable {frames others after otherAfter : List Frame}

theorem Alike.stay (alike : Alike frames others) : StayAlike frames others frames others :=
  ⟨alike, rfl, rfl⟩

theorem StayAlike.trans {later otherLater : List Frame}
    (first : StayAlike frames others after otherAfter)
    (second : StayAlike after otherAfter later otherLater) :
    StayAlike frames others later otherLater :=
  ⟨second.alike, second.binders.trans first.binders,
    second.otherBinders.trans first.otherBinders⟩

/-- The frames of two lambdas with equally many parameters, before their bodies are compiled. -/
theorem Alike.enter {self otherSelf : Option Name} {parameters otherParameters : List Name}
    (alike : Alike frames others) (arity : parameters.length = otherParameters.length)
    (distinct : parameters.Nodup) (otherDistinct : otherParameters.Nodup) :
    Alike (⟨parameters, self, []⟩ :: frames) (⟨otherParameters, otherSelf, []⟩ :: others) := by
  refine ⟨⟨distinct, fun capture listed => absurd listed List.not_mem_nil, alike.sensible⟩,
    ⟨otherDistinct, fun capture listed => absurd listed List.not_mem_nil, alike.otherSensible⟩, ?_⟩
  rw [Frame.layouts, Frame.layouts, alike.layouts]
  simp only [layout, Frame.arity, arity, List.map_nil]

/-- Behind a lambda its frame is dropped. The two frames have captured alike, which is all that
the code behind the bodies shows of them. -/
theorem StayAlike.leave {frame other : Frame} {bodyFrames otherBodyFrames : List Frame}
    (stay : StayAlike (frame :: frames) (other :: others) bodyFrames otherBodyFrames) :
    ∃ last otherLast, bodyFrames = last :: bodyFrames.tail ∧
      otherBodyFrames = otherLast :: otherBodyFrames.tail ∧
      last.captures.map (fun capture => capture.parentSlot) =
        otherLast.captures.map (fun capture => capture.parentSlot) ∧
      StayAlike frames others bodyFrames.tail otherBodyFrames.tail := by
  obtain ⟨⟨sensible, otherSensible, same⟩, binders, otherBinders⟩ := stay
  cases bodyFrames with
  | nil => cases binders
  | cons last after =>
      cases otherBodyFrames with
      | nil => cases otherBinders
      | cons otherLast otherAfter =>
          obtain ⟨first, rest⟩ := List.cons.inj same
          refine ⟨last, otherLast, rfl, rfl, ?_, ⟨sensible.2.2, otherSensible.2.2, rest⟩,
            (List.cons.inj binders).2, (List.cons.inj otherBinders).2⟩
          have copies := congrArg (fun layout => layout.copies.map Layout.Copy.parentSlot) first
          simpa [layout, Function.comp_def] using copies

/-- Names with the same reference are found in the same slot, or neither is a local one. -/
theorem Alike.resolve? {name other : Name} (alike : Alike frames others)
    (same : Binder.SameReference (frames.map binder) (others.map binder) name other) :
    (∃ slot after otherAfter, Frame.resolve? name frames = some (slot, after) ∧
      Frame.resolve? other others = some (slot, otherAfter) ∧
      StayAlike frames others after otherAfter) ∨
    (Frame.resolve? name frames = none ∧ Frame.resolve? other others = none ∧ name = other) := by
  obtain ⟨sensible, otherSensible, layouts⟩ := alike
  cases same with
  | bound place refers otherRefers =>
      obtain ⟨slot, after, found, placed, kept, binders⟩ :=
        resolve?_layouts sensible (refers.resolve? sensible.distinct)
      obtain ⟨otherSlot, otherAfter, otherFound, otherPlaced, otherKept, otherBinders⟩ :=
        resolve?_layouts otherSensible (otherRefers.resolve? otherSensible.distinct)
      rw [layouts, otherPlaced] at placed
      obtain ⟨rfl, equal⟩ := Prod.mk.inj (Option.some.inj placed)
      exact .inl ⟨otherSlot, after, otherAfter, found, otherFound,
        ⟨kept, otherKept, equal.symm⟩, binders, otherBinders⟩
  | free unbound otherUnbound =>
      exact .inr ⟨resolve?_eq_none sensible (unbound.resolve? sensible.distinct),
        resolve?_eq_none otherSensible (otherUnbound.resolve? otherSensible.distinct), rfl⟩

end Frame

namespace Expr

variable {globals : Name → Option Nat}

/-- Wherever code is generated for an expression, the same code is generated for every renaming
of it inside frames that are alike. -/
def RepeatsCode (globals : Name → Option Nat) (expr : Expr) : Prop :=
  ∀ {offset : Nat} {frames others after : List Frame} {other : Expr} {code : List Instr},
    Frame.Alike frames others →
    Renamed (frames.map Frame.binder) (others.map Frame.binder) expr other →
    (∀ parameters ∈ other.parameterLists, parameters.Nodup) →
    expr.generate globals offset frames = .ok (code, after) →
      ∃ otherAfter, other.generate globals offset others = .ok (code, otherAfter) ∧
        Frame.StayAlike frames others after otherAfter

theorem repeatsCode_var (span : Span) (name : Name) : RepeatsCode globals (.var span name) := by
  intro offset frames others after other code alike renamed _ generated
  cases renamed with
  | var _ otherSpan same =>
      rcases alike.resolve? same with
        ⟨slot, after, otherAfter, found, otherFound, stay⟩ | ⟨missing, otherMissing, rfl⟩
      · rw [generate, found] at generated
        cases generated
        exact ⟨otherAfter, by rw [generate, otherFound], stay⟩
      · rcases generate_var generated with ⟨slot, found, -⟩ | ⟨-, rfl, slot, known, rfl⟩
        · rw [missing] at found
          cases found
        · exact ⟨others, by simp only [generate, otherMissing, known], alike.stay⟩

theorem repeatsCode_ifThen (span : Span) {test consequent : Expr}
    (ihTest : RepeatsCode globals test) (ihConsequent : RepeatsCode globals consequent) :
    RepeatsCode globals (.ifThen span test consequent) := by
  intro offset frames others after other code alike renamed distinct generated
  obtain ⟨testCode, middle, thenCode, tested, chosen, rfl⟩ := generate_ifThen generated
  cases renamed with
  | ifThen _ _ tests consequents =>
      rw [parameterLists, List.forall_mem_append] at distinct
      obtain ⟨otherMiddle, otherTested, first⟩ := ihTest alike tests distinct.1 tested
      rw [← first.binders, ← first.otherBinders] at consequents
      obtain ⟨otherAfter, otherChosen, second⟩ :=
        ihConsequent first.alike consequents distinct.2 chosen
      refine ⟨otherAfter, ?_, first.trans second⟩
      rw [thenOffset] at otherChosen
      simp only [generate, otherTested, otherChosen]
      simp [thenOffset]

theorem repeatsCode_ifElse (span : Span) {test consequent alternative : Expr}
    (ihTest : RepeatsCode globals test) (ihConsequent : RepeatsCode globals consequent)
    (ihAlternative : RepeatsCode globals alternative) :
    RepeatsCode globals (.ifElse span test consequent alternative) := by
  intro offset frames others after other code alike renamed distinct generated
  obtain ⟨testCode, middle, elseCode, later, thenCode, tested, otherwise, chosen, rfl⟩ :=
    generate_ifElse generated
  cases renamed with
  | ifElse _ _ tests consequents alternatives =>
      simp only [parameterLists, List.forall_mem_append] at distinct
      obtain ⟨otherMiddle, otherTested, first⟩ := ihTest alike tests distinct.1 tested
      -- Captures are made in the order of the code, in which the alternative comes first.
      rw [← first.binders, ← first.otherBinders] at alternatives consequents
      obtain ⟨otherLater, otherOtherwise, second⟩ :=
        ihAlternative first.alike alternatives distinct.2.2 otherwise
      rw [← second.binders, ← second.otherBinders] at consequents
      obtain ⟨otherAfter, otherChosen, third⟩ :=
        ihConsequent second.alike consequents distinct.2.1 chosen
      refine ⟨otherAfter, ?_, (first.trans second).trans third⟩
      simp only [generate, otherTested, otherOtherwise, otherChosen]
      simp

theorem repeatsCode_lambda (span : Span) (self : Option Name) (parameters : List Name)
    {body : Expr} (ih : RepeatsCode globals body) :
    RepeatsCode globals (.lambda span self parameters body) := by
  intro offset frames others after other code alike renamed distinct generated
  obtain ⟨once, bodyCode, bodyFrames, inner, rfl, rfl⟩ := generate_lambda_raw generated
  cases renamed with
  | lambda _ otherSpan _ otherSelf arity bodies =>
      obtain ⟨otherOnce, distinct⟩ := List.forall_mem_cons.mp distinct
      obtain ⟨otherBodyFrames, otherInner, stay⟩ :=
        ih (alike.enter arity once otherOnce) bodies distinct inner
      obtain ⟨last, otherLast, started, otherStarted, loads, left⟩ := stay.leave
      refine ⟨otherBodyFrames.tail, ?_, left⟩
      -- Behind the bodies the captures are loaded, from the same slots in the same order, although
      -- the frames know them by other names.
      have many : last.captures.length = otherLast.captures.length := by
        simpa using congrArg List.length loads
      have loaded : last.captures.map (fun capture => Instr.get (word capture.parentSlot)) =
          otherLast.captures.map (fun capture => Instr.get (word capture.parentSlot)) := by
        simpa [Function.comp_def] using
          congrArg (List.map fun slot => Instr.get (word slot)) loads
      rw [started, List.headD_cons, lambdaCode, loaded, arity, many]
      simp only [generate, Frame.new?, if_pos otherOnce, otherInner]
      rw [otherStarted, List.headD_cons, List.tail_cons]

theorem generateAll_repeatsCode {exprs rest : List Expr}
    (each : ∀ expr ∈ exprs, RepeatsCode globals expr) {offset : Nat}
    {frames others after : List Frame} {code : List Instr} (alike : Frame.Alike frames others)
    (renamed : RenamedAll (frames.map Frame.binder) (others.map Frame.binder) exprs rest)
    (distinct : ∀ parameters ∈ parameterListsAll rest, parameters.Nodup)
    (generated : generateAll globals offset frames exprs = .ok (code, after)) :
    rest.length = exprs.length ∧
      ∃ otherAfter, generateAll globals offset others rest = .ok (code, otherAfter) ∧
        Frame.StayAlike frames others after otherAfter := by
  induction exprs generalizing rest offset frames others code with
  | nil =>
      cases renamed
      cases generated
      exact ⟨rfl, others, rfl, alike.stay⟩
  | cons expr exprs ih =>
      obtain ⟨repeats, each⟩ := List.forall_mem_cons.mp each
      obtain ⟨firstCode, middle, restCode, made, rested, rfl⟩ := generateAll_cons generated
      cases renamed with
      | cons head later =>
          rw [parameterListsAll, List.forall_mem_append] at distinct
          obtain ⟨otherMiddle, otherMade, first⟩ := repeats alike head distinct.1 made
          rw [← first.binders, ← first.otherBinders] at later
          obtain ⟨lengths, otherAfter, otherRested, second⟩ :=
            ih each first.alike later distinct.2 rested
          refine ⟨congrArg (· + 1) lengths, otherAfter, ?_, first.trans second⟩
          simp only [generateAll, otherMade, otherRested]

theorem repeatsCode_call (span : Span) {callee : Expr} {arguments : List Expr}
    (ihCallee : RepeatsCode globals callee)
    (ihArguments : ∀ argument ∈ arguments, RepeatsCode globals argument) :
    RepeatsCode globals (.call span callee arguments) := by
  intro offset frames others after other code alike renamed distinct generated
  obtain ⟨argumentCode, middle, calleeCode, supplied, called, rfl⟩ := generate_call generated
  cases renamed with
  | call _ _ callees each =>
      rw [parameterLists, List.forall_mem_append] at distinct
      obtain ⟨lengths, otherMiddle, otherSupplied, first⟩ :=
        generateAll_repeatsCode ihArguments alike each distinct.2 supplied
      rw [← first.binders, ← first.otherBinders] at callees
      obtain ⟨otherAfter, otherCalled, second⟩ :=
        ihCallee first.alike callees distinct.1 called
      refine ⟨otherAfter, ?_, first.trans second⟩
      simp only [generate, otherSupplied, otherCalled, lengths]
      simp

theorem repeatsCode (globals : Name → Option Nat) (expr : Expr) : RepeatsCode globals expr := by
  induction expr using Expr.induction with
  | int span value =>
      intro offset frames others after other code alike renamed _ generated
      cases renamed
      cases generated
      exact ⟨others, rfl, alike.stay⟩
  | bool span value =>
      intro offset frames others after other code alike renamed _ generated
      cases renamed
      cases generated
      exact ⟨others, rfl, alike.stay⟩
  | var span name => exact repeatsCode_var span name
  | ifThen span test consequent ihTest ihConsequent =>
      exact repeatsCode_ifThen span ihTest ihConsequent
  | ifElse span test consequent alternative ihTest ihConsequent ihAlternative =>
      exact repeatsCode_ifElse span ihTest ihConsequent ihAlternative
  | define span name value _ => exact fun _ _ _ generated => absurd generated generate_define
  | lambda span self parameters body ih => exact repeatsCode_lambda span self parameters ih
  | call span callee arguments ihCallee ihArguments =>
      exact repeatsCode_call span ihCallee ihArguments

end Expr

/-! ## Programs -/

namespace Compiler

variable {compiler later : Compiler}

theorem addCode_of_renamed {expr other : Expr} {last : Instr}
    (renamed : Expr.Renamed [] [] expr other)
    (distinct : ∀ parameters ∈ other.parameterLists, parameters.Nodup)
    (added : compiler.addCode expr last = (none, later)) :
    compiler.addCode other last = (none, later) := by
  obtain ⟨instrs, generated, rfl⟩ := addCode_eq_none added
  have alike : Frame.Alike [] [] := ⟨True.intro, True.intro, rfl⟩
  obtain ⟨otherAfter, otherGenerated, -⟩ :=
    Expr.repeatsCode compiler.slot? expr alike renamed distinct generated
  rw [addCode, otherGenerated]

theorem addForm_of_renamed {expr other : Expr} (renamed : Expr.Renamed [] [] expr other)
    (distinct : ∀ parameters ∈ other.parameterLists, parameters.Nodup)
    (added : compiler.addForm expr = (none, later)) :
    compiler.addForm other = (none, later) := by
  cases expr with
  | define span name value =>
      cases renamed with
      | define _ _ _ values =>
          rw [addForm] at added ⊢
          cases free : compiler.slot? name with
          | some slot =>
              rw [free] at added
              cases added
          | none =>
              simp only [free] at added ⊢
              split at added
              · cases added
              · next written =>
                  rw [addCode_of_renamed values distinct written]
                  exact added
  | _ =>
      have plain : compiler.addForm other = compiler.addCode other .pop := by
        cases renamed
        rfl
      rw [plain]
      exact addCode_of_renamed renamed distinct added

/-- Renamed batches are compiled alike. -/
theorem addForms_of_renamed {exprs others : List Expr}
    (renamed : Expr.RenamedAll [] [] exprs others)
    (distinct : ∀ parameters ∈ Expr.parameterListsAll others, parameters.Nodup)
    (added : compiler.addForms exprs = (none, later)) :
    compiler.addForms others = (none, later) := by
  induction exprs generalizing compiler others with
  | nil =>
      cases renamed
      exact added
  | cons expr exprs ih =>
      cases renamed with
      | cons first rest =>
          rw [Expr.parameterListsAll, List.forall_mem_append] at distinct
          obtain ⟨middle, added, rested⟩ := addForms_cons added
          rw [addForms, addForm_of_renamed first distinct.1 added]
          exact ih rest distinct.2 rested

end Compiler

/-- The names of locals and the layout of the source are invisible: renamed programs have one
serialized canonical form, and if one of them compiles the other compiles to the same code with
the same table of globals. -/
theorem Program.ofExprs_of_renamedAll (exprs others : List Expr)
    (renamed : Expr.RenamedAll [] [] exprs others)
    (distinct : ∀ parameters ∈ Expr.parameterListsAll exprs, parameters.Nodup)
    (otherDistinct : ∀ parameters ∈ Expr.parameterListsAll others, parameters.Nodup) :
    (Canon.ofProgram exprs).encode = (Canon.ofProgram others).encode ∧
      ∀ program, Program.ofExprs exprs = .ok program →
        ∃ other, Program.ofExprs others = .ok other ∧
          other.code = program.code ∧ other.globals = program.globals := by
  have nowhere : Binder.Distinct [] := fun _ listed => absurd listed List.not_mem_nil
  refine ⟨?_, fun program compiled => ?_⟩
  · rw [Canon.ofProgram, Canon.ofProgram, Canon.ofExprs_eq_of_renamedAll
      (fun expr _ => Canon.forgetsNames expr) renamed nowhere nowhere distinct otherDistinct]
  · obtain ⟨later, added, shape⟩ := Compiler.ofExprs_eq_ok compiled
    have otherAdded := Compiler.addForms_of_renamed renamed otherDistinct added
    refine ⟨program, ?_, rfl, rfl⟩
    rw [Program.ofExprs, Compiler.compile, otherAdded, shape]
    rfl

namespace Renaming

/-- A function that captures a parameter and itself, and one that returns its parameter:
`(define f (lambda (x y) (lambda (z) (+ (x z) f)))) (define g (lambda (x) x))`. -/
def exprs : List Expr :=
  [.define default [102] (.lambda default (some [102]) [[120], [121]]
    (.lambda default none [[122]] (.call default (.var default [43])
      [.call default (.var default [120]) [.var default [122]], .var default [102]]))),
    .define default [103] (.lambda default (some [103]) [[120]] (.var default [120]))]

/-- The same functions with other names. The inner parameter hides the unused outer one, and the
parameter of the second function hides the function:
`(define f (lambda (y z) (lambda (z) (+ (y z) f)))) (define g (lambda (g) g))`. -/
def others : List Expr :=
  [.define default [102] (.lambda default (some [102]) [[121], [122]]
    (.lambda default none [[122]] (.call default (.var default [43])
      [.call default (.var default [121]) [.var default [122]], .var default [102]]))),
    .define default [103] (.lambda default (some [103]) [[103]] (.var default [103]))]

theorem renamedAll : Expr.RenamedAll [] [] exprs others := by
  refine .cons (.define _ _ _ (.lambda _ _ _ _ rfl (.lambda _ _ _ _ rfl (.call _ _
    (.var _ _ (.free (by decide) (by decide)))
    (.cons (.call _ _ (.var _ _ (.bound (1, 0) ?_ ?_))
      (.cons (.var _ _ (.bound (0, 0) (.parameter rfl) (.parameter rfl))) .nil))
      (.cons (.var _ _ (.bound (1, 2) ?_ ?_)) .nil))))))
    (.cons (.define _ _ _ (.lambda _ _ _ _ rfl
      (.var _ _ (.bound (0, 0) (.parameter rfl) (.parameter rfl))))) .nil)
  · exact .outward (by decide) (by decide) (.parameter rfl)
  · exact .outward (by decide) (by decide) (.parameter rfl)
  · exact .outward (by decide) (by decide) (.self (by decide) rfl)
  · exact .outward (by decide) (by decide) (.self (by decide) rfl)

end Renaming

theorem Program.ofExprs_of_renamedAll_hidden :
    (Canon.ofProgram Renaming.exprs).encode = (Canon.ofProgram Renaming.others).encode ∧
      ∃ program other, Program.ofExprs Renaming.exprs = .ok program ∧
        Program.ofExprs Renaming.others = .ok other ∧
        other.code = program.code ∧ other.globals = program.globals := by
  obtain ⟨encoded, compiles⟩ := Program.ofExprs_of_renamedAll _ _ Renaming.renamedAll
    (by decide) (by decide)
  obtain ⟨program, compiled⟩ :
    ∃ program, Program.ofExprs Renaming.exprs = .ok program := ⟨_, rfl⟩
  obtain ⟨other, otherCompiled, code, globals⟩ := compiles program compiled
  exact ⟨encoded, program, other, compiled, otherCompiled, code, globals⟩

end ClosureLisp
