import ClosureLisp.Proofs.Rollback
import ClosureLisp.Proofs.Undoing

/-!
# Sessions that compile in one pass

A session can compile with an emitter, which has an index of its names and a stack of open lambdas
besides the code and the names. Such a session does what the session with a compiler does
(`EmittingSession.eval_compiled`), and whatever an input does to index and lambdas, between two
inputs the index lists the names and no lambda is open. An input that fails restores all four:
a batch that does not compile is undone by the emitter itself, and one that does not run is undone
by the session, which sets the emitter back to where the input found it
(`EmittingSession.eval_restores_of_error`).
-/

namespace ClosureLisp

/-- Reads and compiles a batch. -/
def Emitter.compileText (emitter : Emitter) (text : Bytes) : Except SourceError Program × Emitter :=
  match Reader.parse text with
  | .error error => (.error error, emitter)
  | .ok exprs => emitter.compile exprs

/-- A session with the machine and an emitter. -/
structure EmittingSession where
  emitter : Emitter
  machine : Machine
  code : Code

namespace EmittingSession

/-- A session before its first input. -/
def new (options : MachineOptions) : EmittingSession :=
  ⟨Emitter.new, Machine.new options, #[]⟩

/-- Evaluates an input. -/
def eval (fuel : Nat) (session : EmittingSession) (input : Bytes) :
    Except SessionError Value × EmittingSession :=
  let mark := session.emitter.mark
  match session.emitter.compileText input with
  | (.error error, emitter) => (.error (.source error), { session with emitter := emitter })
  | (.ok program, emitter) =>
      let (halt, machine) := session.machine.runFrom fuel program.code program.start
      match halt.outcome with
      | .ok value => (.ok value, ⟨emitter, machine, program.code⟩)
      | .error error =>
          (.error error,
            { session with
              emitter := (emitter.reset mark).2
              machine := machine.truncateGlobals mark.globals })

/-- The session with a compiler that holds the same code and names. -/
def compiled (session : EmittingSession) : CompiledSession :=
  ⟨session.emitter.compiler, session.machine, session.code⟩

/-- The sessions that a sequence of inputs leads to, with the number of closures made in all. -/
inductive History (options : MachineOptions) : EmittingSession → Nat → Prop where
  | start : History options (new options) 0
  | eval {session : EmittingSession} {made : Nat} (earlier : History options session made)
      (fuel : Nat) (input : Bytes) (fits : session.compiled.Fits input) :
      History options (session.eval fuel input).2 (made + session.compiled.closuresMade fuel input)

end EmittingSession

namespace Emitter

variable {emitter : Emitter}

theorem compileText_compiler (sound : emitter.Sound) (text : Bytes) :
    (emitter.compileText text).1 = (emitter.compiler.compileText text).1 ∧
      (emitter.compileText text).2.compiler = (emitter.compiler.compileText text).2 := by
  rw [compileText, Compiler.compileText]
  cases Reader.parse text with
  | error error => exact ⟨rfl, rfl⟩
  | ok exprs =>
      obtain ⟨outcome, later, -⟩ := compile_compiler sound.lists sound.closed exprs
      exact ⟨outcome, later⟩

/-- A text extends what an emitter holds, and one that does not compile leaves it as it was. -/
theorem compileText_cases (sound : emitter.Sound) (text : Bytes) :
    (emitter.compileText text).2.Sound ∧
      emitter.compiler.Extends (emitter.compileText text).2.compiler ∧
      ∀ error, (emitter.compileText text).1 = .error error →
        (emitter.compileText text).2.Same emitter := by
  rw [compileText]
  split
  · exact ⟨sound, .refl _, fun _ _ => ⟨rfl, rfl, rfl⟩⟩
  · next exprs _ => exact compile_cases sound exprs

end Emitter

namespace EmittingSession

variable {session : EmittingSession} {options : MachineOptions} {made fuel : Nat} {input : Bytes}

/-- An input leaves the emitter sound, and one that fails leaves it as it was. -/
theorem eval_cases (sound : session.emitter.Sound) (fuel : Nat) (input : Bytes) :
    (session.eval fuel input).2.emitter.Sound ∧
      ∀ error, (session.eval fuel input).1 = .error error →
        (session.eval fuel input).2.emitter.Same session.emitter := by
  have cases := Emitter.compileText_cases sound input
  rw [eval]
  generalize session.emitter.compileText input = result at cases
  obtain ⟨outcome, later⟩ := result
  obtain ⟨laterSound, extended, same⟩ := cases
  cases outcome with
  | error error => exact ⟨laterSound, fun _ _ => same error rfl⟩
  | ok program =>
      obtain ⟨restored, done, again, restoredSound⟩ :=
        Emitter.reset_restores laterSound.lists sound extended
      dsimp only
      split
      · exact ⟨laterSound, by rintro _ ⟨⟩⟩
      · dsimp only
        rw [done]
        exact ⟨restoredSound, fun _ _ => again⟩

/-- An input does the same to a session with an emitter and to one with a compiler. -/
theorem eval_compiled (sound : session.emitter.Sound) (fuel : Nat) (input : Bytes) :
    (session.eval fuel input).1 = (session.compiled.eval fuel input).1 ∧
      (session.eval fuel input).2.compiled = (session.compiled.eval fuel input).2 := by
  have compiles := Emitter.compileText_compiler sound input
  rw [eval, CompiledSession.eval, compiled]
  dsimp only
  generalize session.emitter.compileText input = emitted at compiles
  generalize session.emitter.compiler.compileText input = generated at compiles
  obtain ⟨outcome, emitter⟩ := emitted
  obtain ⟨_, _⟩ := generated
  obtain ⟨rfl, rfl⟩ := compiles
  cases outcome with
  | error error => exact ⟨rfl, rfl⟩
  | ok program =>
      dsimp only
      generalize session.machine.runFrom fuel program.code program.start = run
      cases run.1.outcome with
      | ok value => exact ⟨rfl, rfl⟩
      | error error =>
          have held := (Emitter.reset_compiler emitter session.emitter.mark).2
          refine ⟨rfl, ?_⟩
          rw [CompiledSession.undo, EmittingSession.compiled, held]
          rfl

theorem History.sound (history : History options session made) : session.emitter.Sound := by
  induction history with
  | start => exact Emitter.sound_new.1
  | eval _ fuel input _ ih => exact (eval_cases ih fuel input).1

theorem History.compiled (history : History options session made) :
    CompiledSession.History options session.compiled made := by
  induction history with
  | start =>
      rw [EmittingSession.compiled, new, Emitter.sound_new.2]
      exact .start
  | eval earlier fuel input fits ih =>
      rw [(eval_compiled earlier.sound fuel input).2]
      exact .eval ih fuel input fits

/-- Whatever inputs a session has been given, an input that fails restores the code, the names and
the index of its emitter, no lambda is open before or after it, and of the machine it leaves the
globals and what they lead to as they were. -/
theorem eval_restores_of_error (history : History options session made)
    (room : made + session.compiled.closuresMade fuel input < Machine.handleRange)
    {error : SessionError} (failed : (session.eval fuel input).1 = .error error) :
    (session.eval fuel input).2.emitter.Same session.emitter ∧
      session.emitter.frames = [] ∧ (session.eval fuel input).2.emitter.frames = [] ∧
      session.compiled.Unchanged (session.eval fuel input).2.compiled := by
  obtain ⟨later, restored⟩ := eval_cases history.sound fuel input
  obtain ⟨outcome, compiled⟩ := eval_compiled history.sound fuel input
  obtain ⟨older, evaluator, aligned⟩ :=
    history.compiled.aligned (Nat.lt_of_le_of_lt (Nat.le_add_right _ _) room)
  refine ⟨restored error failed, history.sound.closed, later.closed, ?_⟩
  rw [compiled]
  exact aligned.unchanged_of_error room (outcome ▸ failed)

end EmittingSession

end ClosureLisp
