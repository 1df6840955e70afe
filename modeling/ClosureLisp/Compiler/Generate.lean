import ClosureLisp.Bytecode.Instr
import ClosureLisp.Compiler.Frame
import ClosureLisp.Source.Error
import ClosureLisp.Source.Expr

/-!
# Generating code

The instructions of an expression that is to stand at a given offset. Targets are absolute
offsets, which are known once the code in front of them is: every operand has a fixed size.
Code for a name in an enclosing lambda extends the frames, so these are threaded through.
A failure tells also what had been written before it, jumps still open being written with
the target -1.
-/

namespace ClosureLisp

/-- Why no code was generated, and the instructions written up to then. -/
structure GenerateFailure where
  error : SourceError
  written : List Instr
  deriving DecidableEq, Repr

namespace GenerateFailure

/-- A failure behind further instructions. -/
def behind (failure : GenerateFailure) (instrs : List Instr) : GenerateFailure :=
  ⟨failure.error, instrs ++ failure.written⟩

/-- A failure before anything was written. -/
def immediate (place : Position) (fault : SourceFault) : GenerateFailure :=
  ⟨⟨place, fault⟩, []⟩

end GenerateFailure

/-- Generated instructions and the frames after generating them. -/
abbrev Generated := Except GenerateFailure (List Instr × List Frame)

namespace Expr

/-- An offset or count as an operand. -/
def word (number : Nat) : Int32 :=
  Int32.ofNat number

/-- The target of a jump that is still open. -/
def openTarget : Int32 := -1

/-- The size of a jump in bytes. -/
def jumpSize : Nat := 5

mutual

/-- The instructions of an expression at an offset. -/
def generate (globals : Name → Option Nat) (offset : Nat) (frames : List Frame) :
    Expr → Generated
  | .int _ value => .ok ([.push (.int value)], frames)
  | .bool _ value => .ok ([.push (.bool value)], frames)
  | .var span name =>
      match Frame.resolve? name frames with
      | some (slot, frames) => .ok ([.get (word slot)], frames)
      | none =>
          match globals name with
          | some slot => .ok ([.getGlobal (word slot)], frames)
          | none => .error (.immediate span.start (.undefined name))
  | .ifThen _ test consequent =>
      match generate globals offset frames test with
      | .error failure => .error failure
      | .ok (testCode, frames) =>
          let thenAt := offset + Instr.sizeAll testCode + jumpSize + 2 + jumpSize
          let front := testCode ++ [.jumpIf (word thenAt), .push .nil]
          match generate globals thenAt frames consequent with
          | .error failure => .error (failure.behind (front ++ [.jump openTarget]))
          | .ok (thenCode, frames) =>
              let stop := thenAt + Instr.sizeAll thenCode
              .ok (front ++ .jump (word stop) :: thenCode, frames)
  | .ifElse _ test consequent alternative =>
      match generate globals offset frames test with
      | .error failure => .error failure
      | .ok (testCode, frames) =>
          let elseAt := offset + Instr.sizeAll testCode + jumpSize
          match generate globals elseAt frames alternative with
          | .error failure => .error (failure.behind (testCode ++ [.jumpIf openTarget]))
          | .ok (elseCode, frames) =>
              let thenAt := elseAt + Instr.sizeAll elseCode + jumpSize
              let front := testCode ++ .jumpIf (word thenAt) :: elseCode
              match generate globals thenAt frames consequent with
              | .error failure => .error (failure.behind (front ++ [.jump openTarget]))
              | .ok (thenCode, frames) =>
                  let stop := thenAt + Instr.sizeAll thenCode
                  .ok (front ++ .jump (word stop) :: thenCode, frames)
  | .define span name _ => .error (.immediate span.start (.nestedDefine name))
  | .lambda span self parameters body =>
      match Frame.new? self parameters with
      | none => .error (.immediate span.start (.repeatedParameters parameters))
      | some frame =>
          let entry := offset + jumpSize
          match generate globals entry (frame :: frames) body with
          | .error failure => .error (failure.behind [.jump openTarget])
          | .ok (bodyCode, bodyFrames) =>
              let stop := entry + Instr.sizeAll bodyCode + 1
              let captures := (bodyFrames.headD frame).captures
              .ok
                (.jump (word stop) :: bodyCode ++ .ret ::
                    captures.map (fun capture => .get (word capture.parentSlot)) ++
                    [.makeLambda (word entry) (word parameters.length) (word captures.length)],
                  bodyFrames.tail)
  | .call _ callee arguments =>
      match generateAll globals offset frames arguments with
      | .error failure => .error failure
      | .ok (argumentCode, frames) =>
          match generate globals (offset + Instr.sizeAll argumentCode) frames callee with
          | .error failure => .error (failure.behind argumentCode)
          | .ok (calleeCode, frames) =>
              .ok (argumentCode ++ calleeCode ++ [.call (word arguments.length)], frames)

/-- The instructions of expressions one after the other. -/
def generateAll (globals : Name → Option Nat) (offset : Nat) (frames : List Frame) :
    List Expr → Generated
  | [] => .ok ([], frames)
  | expr :: rest =>
      match generate globals offset frames expr with
      | .error failure => .error failure
      | .ok (code, frames) =>
          match generateAll globals (offset + Instr.sizeAll code) frames rest with
          | .error failure => .error (failure.behind code)
          | .ok (restCode, frames) => .ok (code ++ restCode, frames)

end

end Expr

end ClosureLisp
