import ClosureLisp.Compiler.Generate
import ClosureLisp.Proofs.Frames
import ClosureLisp.Proofs.Placement

/-!
# What code generation yields

One inversion lemma for each form of expression says from which pieces its code is made up.
Later proofs go by these lemmas and by `Expr.induction`, and never open the generator.
`Expr.operands` lists the numbers that the code is written with, and `Expr.Fits` says that
none of them is cut when it is written as a signed word.
-/

namespace ClosureLisp

/-- The operand words of an instruction. -/
def Instr.words : Instr → List Int32
  | .push _ | .pop | .defGlobal | .ret => []
  | .get slot | .getGlobal slot => [slot]
  | .jump target | .jumpIf target => [target]
  | .call count => [count]
  | .makeLambda entry arity captures => [entry, arity, captures]

/-- What becomes of generated code, or of a failure to generate it. -/
def Generated.onward (generated : Generated) (wrap : GenerateFailure → GenerateFailure)
    (next : List Instr → List Frame → Generated) : Generated :=
  match generated with
  | .error failure => .error (wrap failure)
  | .ok (code, frames) => next code frames

namespace Expr

/-- Induction on expressions, with the arguments of a call as members of a list. -/
@[elab_as_elim]
theorem induction {motive : Expr → Prop}
    (int : ∀ span value, motive (.int span value))
    (bool : ∀ span value, motive (.bool span value))
    (var : ∀ span name, motive (.var span name))
    (ifThen : ∀ span test consequent, motive test → motive consequent →
      motive (.ifThen span test consequent))
    (ifElse : ∀ span test consequent alternative, motive test → motive consequent →
      motive alternative → motive (.ifElse span test consequent alternative))
    (define : ∀ span name value, motive value → motive (.define span name value))
    (lambda : ∀ span self parameters body, motive body →
      motive (.lambda span self parameters body))
    (call : ∀ span callee arguments, motive callee →
      (∀ argument ∈ arguments, motive argument) → motive (.call span callee arguments))
    (expr : Expr) : motive expr :=
  @Expr.rec motive (fun arguments => ∀ argument ∈ arguments, motive argument)
    int bool var ifThen ifElse define lambda call
    (fun _ listed => absurd listed List.not_mem_nil)
    (fun _ _ first rest => List.forall_mem_cons.mpr ⟨first, rest⟩)
    expr

variable {globals : Name → Option Nat} {offset : Nat} {frames after : List Frame}
  {code : List Instr}

/-! ## Inversion -/

/-- A name is loaded from the slot it resolves to, or else from its global slot. -/
theorem generate_var {span : Span} {name : Name}
    (generated : generate globals offset frames (.var span name) = .ok (code, after)) :
    (∃ slot, Frame.resolve? name frames = some (slot, after) ∧ code = [.get (word slot)]) ∨
      (Frame.resolve? name frames = none ∧ after = frames ∧
        ∃ slot, globals name = some slot ∧ code = [.getGlobal (word slot)]) := by
  rw [generate] at generated
  split at generated
  · next slot resolved found =>
      cases generated
      exact .inl ⟨slot, found, rfl⟩
  · next missing =>
      split at generated
      · next slot found =>
          cases generated
          exact .inr ⟨missing, rfl, slot, found, rfl⟩
      · cases generated

/-- The offset of the first branch of a conditional without a second one. -/
def thenOffset (offset : Nat) (testCode : List Instr) : Nat :=
  offset + Instr.sizeAll testCode + jumpSize + 2 + jumpSize

theorem thenOffset_eq (offset : Nat) (testCode : List Instr) (first second : Int32) :
    offset + Instr.sizeAll (testCode ++ [.jumpIf first, .push .nil, .jump second]) =
      thenOffset offset testCode := by
  simp only [Instr.sizeAll_append, Instr.sizeAll_cons, Instr.sizeAll_nil, Instr.size,
    Constant.size, thenOffset, jumpSize]
  omega

theorem generate_ifThen {span : Span} {test consequent : Expr}
    (generated : generate globals offset frames (.ifThen span test consequent) =
      .ok (code, after)) :
    ∃ testCode middle thenCode,
      generate globals offset frames test = .ok (testCode, middle) ∧
      generate globals (thenOffset offset testCode) middle consequent = .ok (thenCode, after) ∧
      code = testCode ++ [.jumpIf (word (thenOffset offset testCode)), .push .nil,
        .jump (word (thenOffset offset testCode + Instr.sizeAll thenCode))] ++ thenCode := by
  rw [generate] at generated
  split at generated
  · cases generated
  · next testCode middle tested =>
      dsimp only at generated
      split at generated
      · cases generated
      · next thenCode resolved chosen =>
          cases generated
          exact ⟨testCode, middle, thenCode, tested, chosen, by simp [thenOffset]⟩

/-- The end of a conditional with two branches. -/
theorem stop_of_ifElse (offset : Nat) (testCode elseCode thenCode : List Instr)
    (first second : Int32) :
    offset + Instr.sizeAll (testCode ++ .jumpIf first ::
        (elseCode ++ .jump second :: thenCode)) =
      offset + Instr.sizeAll testCode + jumpSize + Instr.sizeAll elseCode + jumpSize +
        Instr.sizeAll thenCode := by
  simp only [Instr.sizeAll_append, Instr.sizeAll_cons, Instr.size, jumpSize]
  omega

theorem generate_ifElse {span : Span} {test consequent alternative : Expr}
    (generated : generate globals offset frames (.ifElse span test consequent alternative) =
      .ok (code, after)) :
    ∃ testCode first elseCode second thenCode,
      generate globals offset frames test = .ok (testCode, first) ∧
      generate globals (offset + Instr.sizeAll testCode + jumpSize) first alternative =
        .ok (elseCode, second) ∧
      generate globals
          (offset + Instr.sizeAll testCode + jumpSize + Instr.sizeAll elseCode + jumpSize)
          second consequent = .ok (thenCode, after) ∧
      code = testCode ++ .jumpIf (word
          (offset + Instr.sizeAll testCode + jumpSize + Instr.sizeAll elseCode + jumpSize)) ::
        (elseCode ++ .jump (word (offset + Instr.sizeAll testCode + jumpSize +
          Instr.sizeAll elseCode + jumpSize + Instr.sizeAll thenCode)) :: thenCode) := by
  rw [generate] at generated
  split at generated
  · cases generated
  · next testCode first tested =>
      dsimp only at generated
      split at generated
      · cases generated
      · next elseCode second otherwise =>
          split at generated
          · cases generated
          · next thenCode resolved chosen =>
              cases generated
              exact ⟨testCode, first, elseCode, second, thenCode, tested, otherwise, chosen,
                by simp⟩

theorem generate_define {span : Span} {name : Name} {value : Expr} :
    generate globals offset frames (.define span name value) ≠ .ok (code, after) := by
  intro generated
  rw [generate] at generated
  cases generated

/-- The code of a lambda whose frame is the given one after its body. -/
def lambdaCode (offset arity : Nat) (bodyCode : List Instr) (frame : Frame) : List Instr :=
  .jump (word (offset + jumpSize + Instr.sizeAll bodyCode + 1)) :: bodyCode ++ .ret ::
    frame.captures.map (fun capture => .get (word capture.parentSlot)) ++
    [.makeLambda (word (offset + jumpSize)) (word arity) (word frame.captures.length)]

/-- The parts of the code of a lambda: a jump over the body, the body with its return, and behind
it the loads of the captures and the instruction that makes the closure. -/
theorem lambdaCode_eq (offset arity : Nat) (bodyCode : List Instr) (frame : Frame) :
    lambdaCode offset arity bodyCode frame =
      .jump (word (offset + jumpSize + Instr.sizeAll bodyCode + 1)) :: ((bodyCode ++ [.ret]) ++
        (frame.captures.map (fun capture => .get (word capture.parentSlot)) ++
          [.makeLambda (word (offset + jumpSize)) (word arity) (word frame.captures.length)])) := by
  simp [lambdaCode]

/-- Behind the body of a lambda. -/
theorem stop_of_body (offset : Nat) (bodyCode : List Instr) (target : Int32) :
    offset + (Instr.jump target).size + Instr.sizeAll (bodyCode ++ [.ret]) =
      offset + jumpSize + Instr.sizeAll bodyCode + 1 := by
  rw [Instr.sizeAll_append]
  rfl

/-- The body of a lambda is generated inside a fresh frame. The frames that come back start with
that frame, see `generate_lambda`. -/
theorem generate_lambda_raw {span : Span} {self : Option Name} {parameters : List Name}
    {body : Expr}
    (generated : generate globals offset frames (.lambda span self parameters body) =
      .ok (code, after)) :
    parameters.Nodup ∧ ∃ bodyCode bodyFrames,
      generate globals (offset + jumpSize) (⟨parameters, self, []⟩ :: frames) body =
        .ok (bodyCode, bodyFrames) ∧
      code = lambdaCode offset parameters.length bodyCode
        (bodyFrames.headD ⟨parameters, self, []⟩) ∧
      after = bodyFrames.tail := by
  rw [generate] at generated
  split at generated
  · cases generated
  · next frame made =>
      rw [Frame.new?] at made
      split at made
      · next distinct =>
          cases made
          dsimp only at generated
          split at generated
          · cases generated
          · next bodyCode bodyFrames inner =>
              cases generated
              exact ⟨distinct, bodyCode, bodyFrames, inner, rfl, rfl⟩
      · cases made

theorem generate_call {span : Span} {callee : Expr} {arguments : List Expr}
    (generated : generate globals offset frames (.call span callee arguments) =
      .ok (code, after)) :
    ∃ argumentCode middle calleeCode,
      generateAll globals offset frames arguments = .ok (argumentCode, middle) ∧
      generate globals (offset + Instr.sizeAll argumentCode) middle callee =
        .ok (calleeCode, after) ∧
      code = argumentCode ++ (calleeCode ++ [.call (word arguments.length)]) := by
  rw [generate] at generated
  split at generated
  · cases generated
  · next argumentCode middle supplied =>
      split at generated
      · cases generated
      · next calleeCode resolved called =>
          cases generated
          exact ⟨argumentCode, middle, calleeCode, supplied, called, by simp⟩

theorem generateAll_cons {expr : Expr} {rest : List Expr}
    (generated : generateAll globals offset frames (expr :: rest) = .ok (code, after)) :
    ∃ firstCode middle restCode,
      generate globals offset frames expr = .ok (firstCode, middle) ∧
      generateAll globals (offset + Instr.sizeAll firstCode) middle rest =
        .ok (restCode, after) ∧
      code = firstCode ++ restCode := by
  rw [generateAll] at generated
  split at generated
  · cases generated
  · next firstCode middle first =>
      split at generated
      · cases generated
      · next restCode resolved rested =>
          cases generated
          exact ⟨firstCode, middle, restCode, first, rested, rfl⟩

/-! ## Frames -/

/-- Generating code keeps frames threaded and only adds captures. -/
def KeepsFrames (globals : Name → Option Nat) (expr : Expr) : Prop :=
  ∀ {offset : Nat} {frames after : List Frame} {code : List Instr}, Frame.Threaded frames →
    generate globals offset frames expr = .ok (code, after) →
    Frame.Threaded after ∧ List.Forall₂ Frame.Extends frames after

theorem generateAll_keepsFrames {exprs : List Expr}
    (each : ∀ expr ∈ exprs, KeepsFrames globals expr) (threaded : Frame.Threaded frames)
    (generated : generateAll globals offset frames exprs = .ok (code, after)) :
    Frame.Threaded after ∧ List.Forall₂ Frame.Extends frames after := by
  induction exprs generalizing offset frames code with
  | nil =>
      rw [generateAll] at generated
      cases generated
      exact ⟨threaded, Frame.extendsAll_refl _⟩
  | cons expr rest ih =>
      obtain ⟨firstCode, middle, restCode, first, rested, -⟩ := generateAll_cons generated
      obtain ⟨head, tail⟩ := List.forall_mem_cons.mp each
      obtain ⟨kept, grown⟩ := head threaded first
      obtain ⟨last, more⟩ := ih tail kept rested
      exact ⟨last, Frame.extendsAll_trans grown more⟩

theorem keepsFrames (globals : Name → Option Nat) (expr : Expr) : KeepsFrames globals expr := by
  induction expr using Expr.induction with
  | int span value | bool span value =>
      intro offset frames after code threaded generated
      rw [generate] at generated
      cases generated
      exact ⟨threaded, Frame.extendsAll_refl _⟩
  | var span name =>
      intro offset frames after code threaded generated
      rcases generate_var generated with ⟨slot, resolved, -⟩ | ⟨-, rfl, -⟩
      · obtain ⟨kept, grown, -⟩ := Frame.resolve?_spec threaded resolved
        exact ⟨kept, grown⟩
      · exact ⟨threaded, Frame.extendsAll_refl _⟩
  | ifThen span test consequent testIh thenIh =>
      intro offset frames after code threaded generated
      obtain ⟨testCode, middle, thenCode, tested, chosen, -⟩ := generate_ifThen generated
      obtain ⟨kept, grown⟩ := testIh threaded tested
      obtain ⟨last, more⟩ := thenIh kept chosen
      exact ⟨last, Frame.extendsAll_trans grown more⟩
  | ifElse span test consequent alternative testIh thenIh elseIh =>
      intro offset frames after code threaded generated
      obtain ⟨testCode, first, elseCode, second, thenCode, tested, otherwise, chosen, -⟩ :=
        generate_ifElse generated
      obtain ⟨kept, grown⟩ := testIh threaded tested
      obtain ⟨next, more⟩ := elseIh kept otherwise
      obtain ⟨last, most⟩ := thenIh next chosen
      exact ⟨last, Frame.extendsAll_trans grown (Frame.extendsAll_trans more most)⟩
  | define span name value valueIh =>
      intro offset frames after code threaded generated
      exact absurd generated generate_define
  | lambda span self parameters body bodyIh =>
      intro offset frames after code threaded generated
      obtain ⟨-, bodyCode, bodyFrames, inner, -, rfl⟩ := generate_lambda_raw generated
      obtain ⟨kept, grown⟩ := bodyIh (threaded.cons_fresh parameters self) inner
      cases grown with
      | cons head tail => exact ⟨kept.2.2, tail⟩
  | call span callee arguments calleeIh argumentsIh =>
      intro offset frames after code threaded generated
      obtain ⟨argumentCode, middle, calleeCode, supplied, called, -⟩ := generate_call generated
      obtain ⟨kept, grown⟩ := generateAll_keepsFrames argumentsIh threaded supplied
      obtain ⟨last, more⟩ := calleeIh kept called
      exact ⟨last, Frame.extendsAll_trans grown more⟩

/-- The code of a lambda: the body inside a fresh frame, and behind it the loads of what that
frame has captured in the end. -/
theorem generate_lambda {span : Span} {self : Option Name} {parameters : List Name}
    {body : Expr} (threaded : Frame.Threaded frames)
    (generated : generate globals offset frames (.lambda span self parameters body) =
      .ok (code, after)) :
    parameters.Nodup ∧ ∃ bodyCode frame,
      generate globals (offset + jumpSize) (⟨parameters, self, []⟩ :: frames) body =
        .ok (bodyCode, frame :: after) ∧
      Frame.Extends ⟨parameters, self, []⟩ frame ∧
      code = lambdaCode offset parameters.length bodyCode frame := by
  obtain ⟨distinct, bodyCode, bodyFrames, inner, rfl, rfl⟩ := generate_lambda_raw generated
  obtain ⟨-, grown⟩ := keepsFrames globals body (threaded.cons_fresh parameters self) inner
  cases grown with
  | cons head tail => exact ⟨distinct, bodyCode, _, inner, head, rfl⟩

/-! ## Operands -/

mutual

/-- The offsets, slots and counts that the code of an expression is written with, in the order in
which they stand in it. -/
def operands (globals : Name → Option Nat) (offset : Nat) (frames : List Frame) :
    Expr → List Nat
  | .int _ _ => []
  | .bool _ _ => []
  | .var _ name =>
      match Frame.resolve? name frames with
      | some (slot, _) => [slot]
      | none => (globals name).toList
  | .ifThen _ test consequent =>
      match generate globals offset frames test with
      | .error _ => []
      | .ok (testCode, middle) =>
          let thenAt := thenOffset offset testCode
          match generate globals thenAt middle consequent with
          | .error _ => []
          | .ok (thenCode, _) =>
              operands globals offset frames test ++
                [thenAt, thenAt + Instr.sizeAll thenCode] ++
                operands globals thenAt middle consequent
  | .ifElse _ test consequent alternative =>
      match generate globals offset frames test with
      | .error _ => []
      | .ok (testCode, first) =>
          let elseAt := offset + Instr.sizeAll testCode + jumpSize
          match generate globals elseAt first alternative with
          | .error _ => []
          | .ok (elseCode, second) =>
              let thenAt := elseAt + Instr.sizeAll elseCode + jumpSize
              match generate globals thenAt second consequent with
              | .error _ => []
              | .ok (thenCode, _) =>
                  operands globals offset frames test ++ thenAt ::
                    operands globals elseAt first alternative ++
                    (thenAt + Instr.sizeAll thenCode) :: operands globals thenAt second consequent
  | .define _ _ _ => []
  | .lambda _ self parameters body =>
      let entry := offset + jumpSize
      match generate globals entry (⟨parameters, self, []⟩ :: frames) body with
      | .error _ => []
      | .ok (bodyCode, bodyFrames) =>
          let captures := (bodyFrames.headD ⟨parameters, self, []⟩).captures
          (entry + Instr.sizeAll bodyCode + 1) ::
            operands globals entry (⟨parameters, self, []⟩ :: frames) body ++
            captures.map Capture.parentSlot ++ [entry, parameters.length, captures.length]
  | .call _ callee arguments =>
      match generateAll globals offset frames arguments with
      | .error _ => []
      | .ok (argumentCode, middle) =>
          operandsAll globals offset frames arguments ++
            operands globals (offset + Instr.sizeAll argumentCode) middle callee ++
            [arguments.length]

/-- The operands of expressions one after the other. -/
def operandsAll (globals : Name → Option Nat) (offset : Nat) (frames : List Frame) :
    List Expr → List Nat
  | [] => []
  | expr :: rest =>
      match generate globals offset frames expr with
      | .error _ => []
      | .ok (code, middle) =>
          operands globals offset frames expr ++
            operandsAll globals (offset + Instr.sizeAll code) middle rest

end

/-- The first number that is too large for a signed word of thirty-two bits. -/
def operandRange : Nat := 2147483648

/-- Every offset, slot and count of the code of an expression fits a signed word. -/
def Fits (globals : Name → Option Nat) (offset : Nat) (frames : List Frame) (expr : Expr) : Prop :=
  ∀ number ∈ operands globals offset frames expr, number < operandRange

/-- The same for expressions one after the other. -/
def FitsAll (globals : Name → Option Nat) (offset : Nat) (frames : List Frame)
    (exprs : List Expr) : Prop :=
  ∀ number ∈ operandsAll globals offset frames exprs, number < operandRange

theorem toInt_word {number : Nat} (fits : number < operandRange) :
    (word number).toInt = number := by
  unfold operandRange at fits
  rw [word, Int32.toInt_ofNat_of_lt (by omega)]

/-! ### What the words of the code are -/

/-- The words of the code of an expression are its operands, each cut to thirty-two bits. -/
def WritesOperands (globals : Name → Option Nat) (expr : Expr) : Prop :=
  ∀ {offset : Nat} {frames after : List Frame} {code : List Instr},
    generate globals offset frames expr = .ok (code, after) →
    code.flatMap Instr.words = (operands globals offset frames expr).map word

theorem generateAll_writesOperands {exprs : List Expr}
    (each : ∀ expr ∈ exprs, WritesOperands globals expr)
    (generated : generateAll globals offset frames exprs = .ok (code, after)) :
    code.flatMap Instr.words = (operandsAll globals offset frames exprs).map word := by
  induction exprs generalizing offset frames code with
  | nil =>
      rw [generateAll] at generated
      cases generated
      rfl
  | cons expr rest ih =>
      obtain ⟨firstCode, middle, restCode, first, rested, rfl⟩ := generateAll_cons generated
      obtain ⟨head, tail⟩ := List.forall_mem_cons.mp each
      rw [List.flatMap_append, head first, ih tail rested]
      simp only [operandsAll, first, List.map_append]

theorem writesOperands (globals : Name → Option Nat) (expr : Expr) :
    WritesOperands globals expr := by
  induction expr using Expr.induction with
  | int span value | bool span value =>
      intro offset frames after code generated
      rw [generate] at generated
      cases generated
      rfl
  | var span name =>
      intro offset frames after code generated
      rcases generate_var generated with ⟨slot, resolved, rfl⟩ | ⟨missing, -, slot, found, rfl⟩
      · simp only [operands, resolved]
        rfl
      · simp only [operands, missing, found]
        rfl
  | ifThen span test consequent testIh thenIh =>
      intro offset frames after code generated
      obtain ⟨testCode, middle, thenCode, tested, chosen, rfl⟩ := generate_ifThen generated
      simp only [operands, tested, chosen, List.flatMap_append, List.map_append, testIh tested,
        thenIh chosen]
      rfl
  | ifElse span test consequent alternative testIh thenIh elseIh =>
      intro offset frames after code generated
      obtain ⟨testCode, first, elseCode, second, thenCode, tested, otherwise, chosen, rfl⟩ :=
        generate_ifElse generated
      simp only [operands, tested, otherwise, chosen, List.flatMap_append, List.map_append,
        List.flatMap_cons, List.map_cons, Instr.words, testIh tested, elseIh otherwise,
        thenIh chosen]
      simp
  | define span name value valueIh =>
      intro offset frames after code generated
      exact absurd generated generate_define
  | lambda span self parameters body bodyIh =>
      intro offset frames after code generated
      obtain ⟨-, bodyCode, bodyFrames, inner, rfl, -⟩ := generate_lambda_raw generated
      simp only [operands, inner, lambdaCode, List.flatMap_append, List.map_append,
        List.flatMap_cons, List.map_cons, Instr.words, bodyIh inner, List.flatMap_map,
        List.map_map]
      simp [← List.map_eq_flatMap, Function.comp_def]
  | call span callee arguments calleeIh argumentsIh =>
      intro offset frames after code generated
      obtain ⟨argumentCode, middle, calleeCode, supplied, called, rfl⟩ := generate_call generated
      simp only [operands, supplied, List.flatMap_append, List.map_append,
        generateAll_writesOperands argumentsIh supplied, calleeIh called]
      simp [Instr.words]

/-! ### The operands of the pieces -/

namespace Fits

theorem ifThen {span : Span} {test consequent : Expr} {testCode thenCode : List Instr}
    {middle : List Frame}
    (fits : Fits globals offset frames (.ifThen span test consequent))
    (tested : generate globals offset frames test = .ok (testCode, middle))
    (chosen : generate globals (thenOffset offset testCode) middle consequent =
      .ok (thenCode, after)) :
    Fits globals offset frames test ∧ thenOffset offset testCode < operandRange ∧
      thenOffset offset testCode + Instr.sizeAll thenCode < operandRange ∧
      Fits globals (thenOffset offset testCode) middle consequent := by
  simp only [Fits, operands, tested, chosen, List.forall_mem_append, List.forall_mem_cons] at fits
  exact ⟨fits.1.1, fits.1.2.1, fits.1.2.2.1, fits.2⟩

theorem ifElse {span : Span} {test consequent alternative : Expr}
    {testCode elseCode thenCode : List Instr} {first second : List Frame}
    (fits : Fits globals offset frames (.ifElse span test consequent alternative))
    (tested : generate globals offset frames test = .ok (testCode, first))
    (otherwise : generate globals (offset + Instr.sizeAll testCode + jumpSize) first alternative =
      .ok (elseCode, second))
    (chosen : generate globals
      (offset + Instr.sizeAll testCode + jumpSize + Instr.sizeAll elseCode + jumpSize) second
        consequent = .ok (thenCode, after)) :
    Fits globals offset frames test ∧
      offset + Instr.sizeAll testCode + jumpSize + Instr.sizeAll elseCode + jumpSize <
        operandRange ∧
      Fits globals (offset + Instr.sizeAll testCode + jumpSize) first alternative ∧
      offset + Instr.sizeAll testCode + jumpSize + Instr.sizeAll elseCode + jumpSize +
        Instr.sizeAll thenCode < operandRange ∧
      Fits globals
        (offset + Instr.sizeAll testCode + jumpSize + Instr.sizeAll elseCode + jumpSize) second
        consequent := by
  simp only [Fits, operands, tested, otherwise, chosen, List.forall_mem_append,
    List.forall_mem_cons] at fits
  exact ⟨fits.1.1, fits.1.2.1, fits.1.2.2, fits.2.1, fits.2.2⟩

theorem lambda_raw {span : Span} {self : Option Name} {parameters : List Name} {body : Expr}
    {bodyCode : List Instr} {bodyFrames : List Frame}
    (fits : Fits globals offset frames (.lambda span self parameters body))
    (inner : generate globals (offset + jumpSize) (⟨parameters, self, []⟩ :: frames) body =
      .ok (bodyCode, bodyFrames)) :
    offset + jumpSize + Instr.sizeAll bodyCode + 1 < operandRange ∧
      Fits globals (offset + jumpSize) (⟨parameters, self, []⟩ :: frames) body ∧
      (∀ capture ∈ (bodyFrames.headD ⟨parameters, self, []⟩).captures,
        capture.parentSlot < operandRange) ∧
      offset + jumpSize < operandRange ∧ parameters.length < operandRange ∧
      (bodyFrames.headD ⟨parameters, self, []⟩).captures.length < operandRange := by
  simp only [Fits, operands, inner, List.forall_mem_append, List.forall_mem_cons,
    List.forall_mem_map] at fits
  exact ⟨fits.1.1.1, fits.1.1.2, fits.1.2, fits.2.1, fits.2.2.1, fits.2.2.2.1⟩

theorem lambda {span : Span} {self : Option Name} {parameters : List Name} {body : Expr}
    {bodyCode : List Instr} {frame : Frame}
    (fits : Fits globals offset frames (.lambda span self parameters body))
    (inner : generate globals (offset + jumpSize) (⟨parameters, self, []⟩ :: frames) body =
      .ok (bodyCode, frame :: after)) :
    offset + jumpSize + Instr.sizeAll bodyCode + 1 < operandRange ∧
      Fits globals (offset + jumpSize) (⟨parameters, self, []⟩ :: frames) body ∧
      (∀ capture ∈ frame.captures, capture.parentSlot < operandRange) ∧
      offset + jumpSize < operandRange ∧ parameters.length < operandRange ∧
      frame.captures.length < operandRange :=
  fits.lambda_raw inner

theorem call {span : Span} {callee : Expr} {arguments : List Expr} {argumentCode : List Instr}
    {middle : List Frame} (fits : Fits globals offset frames (.call span callee arguments))
    (supplied : generateAll globals offset frames arguments = .ok (argumentCode, middle)) :
    FitsAll globals offset frames arguments ∧
      Fits globals (offset + Instr.sizeAll argumentCode) middle callee ∧
      arguments.length < operandRange := by
  simp only [Fits, operands, supplied, List.forall_mem_append, List.forall_mem_cons] at fits
  exact ⟨fits.1.1, fits.1.2, fits.2.1⟩

end Fits

theorem FitsAll.cons {expr : Expr} {rest : List Expr} {firstCode : List Instr}
    {middle : List Frame} (fits : FitsAll globals offset frames (expr :: rest))
    (first : generate globals offset frames expr = .ok (firstCode, middle)) :
    Fits globals offset frames expr ∧
      FitsAll globals (offset + Instr.sizeAll firstCode) middle rest := by
  simp only [FitsAll, operandsAll, first, List.forall_mem_append] at fits
  exact fits

end Expr

/-! ## Bodies in place -/

/-- The whole body of a lambda with the given number of parameters stands in a stream at an entry:
the code that was generated for it there, with none of its operands cut, and the return behind
it. -/
inductive Code.HoldsBody (code : Code) (entry arity : Nat) : Prop where
  | intro {globals : Name → Option Nat} {parameters : List Name} {self : Option Name}
      {outer after : List Frame} {body : Expr} {bodyCode : List Instr}
      (counted : arity = parameters.length)
      (generated : body.generate globals entry (⟨parameters, self, []⟩ :: outer) =
        .ok (bodyCode, after))
      (fits : body.Fits globals entry (⟨parameters, self, []⟩ :: outer))
      (placed : code.Places entry (bodyCode ++ [.ret]))
      (small : entry < Expr.operandRange) : HoldsBody code entry arity

theorem Code.HoldsBody.extend {code longer : Code} {entry arity : Nat}
    (body : code.HoldsBody entry arity) (grown : code.toList <+: longer.toList) :
    longer.HoldsBody entry arity := by
  obtain ⟨counted, generated, fits, placed, small⟩ := body
  exact ⟨counted, generated, fits, placed.extend grown, small⟩

end ClosureLisp
