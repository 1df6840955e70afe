import ClosureLisp.Proofs.Confinement
import ClosureLisp.Proofs.Reloading

/-!
# Sources under a policy that withholds output

What a source displays when it is run from the command line under a policy that withholds output.
A compiled source, whether its bundle is new or comes from a store, is refused or never gets hold
of `display`. An evaluated one is never held against the policy, and displays what it displays.
-/

namespace ClosureLisp

namespace Machine

/-- The values displayed so far, the first one in front. -/
def displayed (machine : Machine) : List Value :=
  machine.events.reverse.filterMap fun
    | .displayed value => some value
    | .traced _ _ _ _ => none

theorem WithoutDisplay.displayed_eq_nil {machine : Machine} (without : machine.WithoutDisplay) :
    machine.displayed = [] := by
  rw [displayed, List.filterMap_eq_nil_iff]
  intro event listed
  cases event with
  | displayed value => exact absurd (List.mem_reverse.mp listed) (without.events value)
  | traced pc instr depth activations => rfl

end Machine

namespace Command

/-! ## Displayed values -/

/-- The values that a run of a bundle displays. -/
def displayedByBundle (settings : Settings) (bundle : Bundle) : List Value :=
  match bundle.admittedBy settings.policy with
  | .error _ => []
  | .ok () => ((Machine.new settings.machine).runFrom stepLimit bundle.code 0).2.displayed

/-- The values that an evaluation without a machine displays. -/
def displayedByEvaluator (source : Bytes) : List Value :=
  match Evaluator.evalText source (Evaluator.new 0) with
  | .error _ evaluator => evaluator.displayed.reverse
  | .ok _ evaluator => evaluator.displayed.reverse

/-- The values that a source displays when it is evaluated as `runSource` does it. -/
def displayedBySource {m : Type → Type} [Monad m] (files : Files m) (settings : Settings)
    (source : Bytes) : m (List Value) := do
  if settings.interpreted then pure (displayedByEvaluator source)
  else
    match ← compile files settings source with
    | .error _ => pure []
    | .ok bundle => pure (displayedByBundle settings bundle)

variable {settings : Settings} {here : List Name} {tree : FileTree} {source : Bytes}
  {bundle : Bundle}

/-- An evaluation that displays nothing prints a value at most. -/
theorem out_interpret (silent : displayedByEvaluator source = []) :
    (interpret source).out = [] ∨ ∃ value, (interpret source).out = Report.valueLine value := by
  cases evaluated : Evaluator.evalText source (Evaluator.new 0) with
  | error error evaluator =>
      simp only [displayedByEvaluator, evaluated] at silent
      refine .inl ?_
      simp only [interpret, evaluated, Evaluator.outputText, silent, List.flatMap_nil]
  | ok value evaluator =>
      simp only [displayedByEvaluator, evaluated] at silent
      refine .inr ⟨value, ?_⟩
      simp only [interpret, evaluated, Evaluator.outputText, silent, List.flatMap_nil,
        List.nil_append]

/-! ## Bundles -/

section Bundles

variable (verified : bundle.verify = .ok ()) (withheld : settings.policy.Withholds .output)

include verified withheld

/-- Where output is withheld, a verified bundle that is admitted runs silently. -/
theorem silent_of_admittedBy (admitted : bundle.admittedBy settings.policy = .ok ())
    (fuel : Nat) :
    ((Machine.new settings.machine).runFrom fuel bundle.code 0).2.Silent bundle.code := by
  have undeclared := Bundle.undeclared_of_admittedBy admitted withheld
  exact Machine.silent_runFrom (Bundle.code_silent verified undeclared) settings.machine fuel

theorem displayedByBundle_eq_nil : displayedByBundle settings bundle = [] := by
  unfold displayedByBundle
  split
  · rfl
  · next admitted =>
      exact (silent_of_admittedBy verified withheld admitted _).withoutDisplay.displayed_eq_nil

/-- Where output is withheld, a verified bundle is refused for a capability or never gets hold of
`display`. -/
theorem refused_or_withoutDisplay :
    (∃ refusal, runBundle settings bundle = .failure (BundleFault.refused refusal).message) ∨
      ∀ fuel, ((Machine.new settings.machine).runFrom fuel bundle.code 0).2.WithoutDisplay := by
  cases admitted : bundle.admittedBy settings.policy with
  | error fault =>
      have refused : ∃ refusal, fault = .refused refusal := by
        unfold Bundle.admittedBy at admitted
        split at admitted
        · next refusal _ =>
            cases admitted
            exact ⟨refusal, rfl⟩
        · cases admitted
      obtain ⟨refusal, rfl⟩ := refused
      refine .inl ⟨refusal, ?_⟩
      simp only [runBundle, admitted]
  | ok granted =>
      exact .inr fun fuel => (silent_of_admittedBy verified withheld admitted fuel).withoutDisplay

/-- Where output is withheld, a verified bundle prints a value at most, unless it is traced. -/
theorem out_runBundle (untraced : settings.machine.trace = false) :
    (runBundle settings bundle).out = [] ∨
      ∃ value, (runBundle settings bundle).out = Report.valueLine value := by
  cases admitted : bundle.admittedBy settings.policy with
  | error fault =>
      refine .inl ?_
      simp only [runBundle, admitted]
      rfl
  | ok granted =>
      have silent := silent_of_admittedBy verified withheld admitted stepLimit
      have printed : ((Machine.new settings.machine).runFrom stepLimit bundle.code
          0).2.takeOutput.1 = [] := by
        refine silent.takeOutput ?_
        rw [Machine.runFrom_zero, Machine.run_trace]
        exact untraced
      simp only [runBundle, admitted, printed]
      split
      · exact .inl rfl
      · exact .inr ⟨_, rfl⟩

end Bundles

/-! ## Sources -/

section Compiled

variable (compiled : settings.interpreted = false)

include compiled

theorem displayedBySource_of_compiled :
    (displayedBySource (FileTree.files here) settings source tree).1 =
      match (compile (FileTree.files here) settings source tree).1 with
      | .error _ => []
      | .ok bundle => displayedByBundle settings bundle := by
  rw [displayedBySource, if_neg (Bool.eq_false_iff.mp compiled)]
  simp only [bind, StateT.bind]
  obtain ⟨result, after⟩ := compile (FileTree.files here) settings source tree
  cases result <;> rfl

theorem runSource_of_compiled :
    (runSource (FileTree.files here) settings source tree).1 =
      match (compile (FileTree.files here) settings source tree).1 with
      | .error error => .failure error.message
      | .ok bundle => runBundle settings bundle := by
  rw [runSource, if_neg (Bool.eq_false_iff.mp compiled)]
  simp only [bind, StateT.bind]
  obtain ⟨result, after⟩ := compile (FileTree.files here) settings source tree
  cases result <;> rfl

end Compiled

theorem displayedBySource_of_interpreted (interpreted : settings.interpreted = true) :
    (displayedBySource (FileTree.files here) settings source tree).1 =
      displayedByEvaluator source := by
  rw [displayedBySource, if_pos interpreted]
  rfl

theorem runSource_of_interpreted (interpreted : settings.interpreted = true) :
    (runSource (FileTree.files here) settings source tree).1 = interpret source := by
  rw [runSource, if_pos interpreted]
  rfl

/-- When a source that is run under a policy that withholds output displays nothing, whether its
bundle is new or comes from a store: if and only if it is compiled or displays nothing in an
evaluation, which is not held against the policy. A compiled source does not compile, is refused
for a capability, or never gets hold of `display`. And what displays nothing prints a value at
most, unless it is traced. -/
theorem runSource_displays_nothing_iff (settings : Settings)
    (withheld : settings.policy.Withholds .output) (here : List Name) (tree : FileTree)
    (source : Bytes)
    (fits : settings.interpreted = false →
      ∀ exprs, Reader.parse source = .ok exprs → Compiler.new.Fits exprs) :
    ((displayedBySource (FileTree.files here) settings source tree).1 = [] ↔
      settings.interpreted = false ∨ displayedByEvaluator source = []) ∧
    (settings.interpreted = false →
      (∃ error, (compile (FileTree.files here) settings source tree).1 = .error error ∧
        (runSource (FileTree.files here) settings source tree).1 = .failure error.message) ∨
      (∃ refusal, (runSource (FileTree.files here) settings source tree).1 =
        .failure (BundleFault.refused refusal).message) ∨
      ∃ bundle, (compile (FileTree.files here) settings source tree).1 = .ok bundle ∧
        (runSource (FileTree.files here) settings source tree).1 = runBundle settings bundle ∧
        ∀ fuel, ((Machine.new settings.machine).runFrom fuel bundle.code 0).2.WithoutDisplay) ∧
    (settings.machine.trace = false →
      (displayedBySource (FileTree.files here) settings source tree).1 = [] →
      (runSource (FileTree.files here) settings source tree).1.out = [] ∨
        ∃ value, (runSource (FileTree.files here) settings source tree).1.out =
          Report.valueLine value) := by
  cases chosen : settings.interpreted with
  | true =>
      rw [displayedBySource_of_interpreted chosen, runSource_of_interpreted chosen]
      refine ⟨?_, fun compiled => (by cases compiled), fun _ silent => out_interpret silent⟩
      exact (or_iff_right Bool.true_eq_false_eq_False).symm
  | false =>
      rw [displayedBySource_of_compiled chosen, runSource_of_compiled chosen]
      cases made : (compile (FileTree.files here) settings source tree).1 with
      | error error =>
          exact ⟨iff_of_true rfl (.inl rfl), fun _ => .inl ⟨error, rfl, rfl⟩,
            fun _ _ => .inl rfl⟩
      | ok bundle =>
          -- New code passes verification because its operands fit, stored code because it was read.
          have verified := verify_of_compile made (fits chosen)
          refine ⟨iff_of_true (displayedByBundle_eq_nil verified withheld) (.inl rfl), fun _ => ?_,
            fun untraced _ => out_runBundle verified withheld untraced⟩
          rcases refused_or_withoutDisplay verified withheld with refused | without
          · exact .inr (.inl refused)
          · exact .inr (.inr ⟨bundle, rfl, rfl, without⟩)

/-- Settings under which output is denied. -/
def denying (interpreted : Bool) : Settings :=
  Settings.ofFlags none
    [(utf8 "deny", .text (utf8 "Output")), (utf8 "interp", .switch interpreted)]

theorem withholds_denying (interpreted : Bool) :
    (denying interpreted).policy.Withholds .output := by
  refine .inl ?_
  cases interpreted <;> decide +kernel

/-- A source that displays a number. -/
def displaySource : Bytes :=
  utf8 "(display 1)"

/-- The expressions of that source. -/
def displayExprs : List Expr :=
  [.call ⟨⟨0, 1, 1⟩, ⟨10, 1, 11⟩⟩ (.var ⟨⟨1, 1, 2⟩, ⟨8, 1, 9⟩⟩ (utf8 "display"))
    [.int ⟨⟨9, 1, 10⟩, ⟨10, 1, 11⟩⟩ 1]]

theorem parse_displaySource : Reader.parse displaySource = .ok displayExprs := by
  cbv

theorem runSource_displays_nothing_iff_compiled :
    (displayedBySource (FileTree.files []) (denying false) displaySource FileTree.empty).1 =
      [] := by
  have fits : ∀ exprs, Reader.parse displaySource = .ok exprs → Compiler.new.Fits exprs := by
    intro exprs read
    rw [parse_displaySource] at read
    cases read
    unfold Compiler.Fits
    decide +kernel
  obtain ⟨nothing, -⟩ := runSource_displays_nothing_iff (denying false) (withholds_denying false) []
    FileTree.empty displaySource fun _ => fits
  exact nothing.mpr (.inl (by decide +kernel))

/-- A source that is evaluated displays what the policy withholds. -/
theorem runSource_displays_withheld :
    (denying true).policy.Withholds .output ∧
      (runSource (FileTree.files []) (denying true) displaySource FileTree.empty).1 =
        .success (utf8 "1\nnil\n") ∧
      (displayedBySource (FileTree.files []) (denying true) displaySource FileTree.empty).1 =
        [.int 1] := by
  have chosen : (denying true).interpreted = true := by decide +kernel
  refine ⟨withholds_denying true, ?_, ?_⟩
  · rw [runSource_of_interpreted chosen]
    unfold interpret Evaluator.evalText
    rw [parse_displaySource]
    rfl
  · rw [displayedBySource_of_interpreted chosen]
    unfold displayedByEvaluator Evaluator.evalText
    rw [parse_displaySource]
    rfl

end Command

end ClosureLisp
