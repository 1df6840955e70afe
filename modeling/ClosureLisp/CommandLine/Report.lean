import ClosureLisp.Value

/-!
# Reports

What a finished command leaves: its exit status and what it wrote to the two streams.
-/

namespace ClosureLisp

/-- The result of a command. -/
structure Report where
  status : UInt32
  out : Bytes
  err : Bytes
  deriving DecidableEq, Repr

namespace Report

/-- The line for an error. -/
def errorLine (message : Bytes) : Bytes :=
  utf8 "Error: " ++ message ++ utf8 "\n"

/-- A command that printed something and went well. -/
def success (out : Bytes) : Report :=
  ⟨0, out, []⟩

/-- A command that failed. -/
def failure (message : Bytes) : Report :=
  ⟨1, [], errorLine message⟩

/-- A command that was given wrong arguments. -/
def misuse (message : String) : Report :=
  ⟨2, [], errorLine (utf8 message)⟩

/-- The line for a value. -/
def valueLine (value : Value) : Bytes :=
  value.text ++ utf8 "\n"

end Report

end ClosureLisp
