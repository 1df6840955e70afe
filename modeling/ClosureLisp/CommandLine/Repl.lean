import ClosureLisp.CommandLine.Report
import ClosureLisp.Session
import ClosureLisp.Text.Blank

/-!
# Interactive sessions

A session at a terminal, line by line. Lines are put together until every open parenthesis
is closed and then evaluated; a line that starts with a colon, where no input is pending,
is a command to the session itself.
-/

namespace ClosureLisp

/-- The number of open parentheses less the number of closed ones, comments left out; the flag
says whether a comment goes on. -/
def parenDepth : (inComment : Bool) → Bytes → Int
  | _, [] => 0
  | true, byte :: rest => parenDepth (byte != 10) rest
  | false, byte :: rest =>
      if byte = Bytes.ascii ';' then parenDepth true rest
      else if byte = Bytes.ascii '(' then parenDepth false rest + 1
      else if byte = Bytes.ascii ')' then parenDepth false rest - 1
      else parenDepth false rest

/-- A session at a terminal and the lines that wait for more. The text for the duration of a
collection comes from the terminal. -/
structure Repl where
  session : Session
  pending : Bytes
  duration : Bytes

/-- What a line leads to: text for the two streams, and the session unless it ends. -/
structure ReplStep where
  out : Bytes
  err : Bytes
  next : Option Repl

namespace Repl

/-- The first lines of a session. -/
def banner : Bytes :=
  utf8 "Lamb REPL (type 'exit' to quit, ':help' for commands)\n\n"

/-- The last line of a session. -/
def farewell : Bytes := utf8 "\n"

/-- What stands in front of the next line. -/
def prompt (repl : Repl) : Bytes :=
  if repl.pending.isEmpty then utf8 ">> " else utf8 ".. "

/-- The commands of a session. -/
def help : Bytes :=
  utf8 "REPL Commands:\n" ++
  utf8 "  :help, :h, :?     Show this help\n" ++
  utf8 "  :globals          List defined globals\n" ++
  utf8 "  :disasm           Show the compiled code so far\n" ++
  utf8 "  :gc               Run the collector and show statistics\n" ++
  utf8 "  exit, quit        Exit REPL\n"

/-- What a command that needs the machine says without one. -/
def unavailable : Bytes :=
  utf8 "Not available in interpreter mode\n"

/-- The global names with their slots. -/
def globalLines : (slot : Nat) → List Name → Bytes
  | _, [] => []
  | slot, name :: rest =>
      utf8 "  " ++ Bytes.padLeft 3 (Bytes.ascii ' ') (Bytes.decimalNat slot) ++ utf8 "  " ++ name ++
        utf8 "\n" ++ globalLines (slot + 1) rest

/-- The listing of the code so far. -/
def listing (session : CompiledSession) : Bytes :=
  match session.code.listing session.compiler.globals with
  | (lines, none) => lines
  | (lines, some error) => lines ++ Report.errorLine error.message

/-- The account of a collection. -/
def accountLine (duration : Bytes) (account : Collection) : Bytes :=
  utf8 "Marked " ++ Bytes.decimalNat account.marked ++ utf8 ", swept " ++
    Bytes.decimalNat account.swept ++ utf8 ", freed " ++ Bytes.decimal account.freed.toInt ++
    utf8 " bytes, heap now " ++ Bytes.decimal account.after.toInt ++ utf8 " bytes (" ++
    duration ++ utf8 ")\n"

/-- A number of thousandths, millionths or the like, without zeros at its end. -/
def fraction (digits number : Nat) : Bytes :=
  let unit := Nat.pow 10 digits
  let places := Bytes.padLeft digits (Bytes.ascii '0') (Bytes.decimalNat (number % unit))
  let kept := (places.reverse.dropWhile (· = Bytes.ascii '0')).reverse
  Bytes.decimalNat (number / unit) ++ (if kept.isEmpty then [] else Bytes.ascii '.' :: kept)

/-- The text for a duration, in the largest unit that it reaches. -/
def durationText (nanoseconds : Nat) : Bytes :=
  if nanoseconds < 1000 then Bytes.decimalNat nanoseconds ++ utf8 "ns"
  else if nanoseconds < 1000000 then fraction 3 nanoseconds ++ utf8 "µs"
  else if nanoseconds < 1000000000 then fraction 6 nanoseconds ++ utf8 "ms"
  else fraction 9 nanoseconds ++ utf8 "s"

/-- A step that prints something and goes on. -/
def printing (repl : Repl) (out : Bytes) : ReplStep :=
  ⟨out, [], some repl⟩

/-- Carries out a command that needs the machine. -/
def withMachine (repl : Repl) (act : CompiledSession → Bytes × CompiledSession) : ReplStep :=
  match repl.session with
  | .interpreted _ => repl.printing unavailable
  | .compiled session =>
      let (out, session) := act session
      { repl with session := .compiled session }.printing out

/-- The command that asks for a collection, whose duration is shown. -/
def collectCommand : Bytes := utf8 ":gc"

/-- Carries out a command to the session itself. -/
def command (repl : Repl) (line : Bytes) : ReplStep :=
  if line = utf8 ":help" ∨ line = utf8 ":h" ∨ line = utf8 ":?" then repl.printing help
  else if line = utf8 ":globals" then
    repl.withMachine fun session => (globalLines 0 session.compiler.globals, session)
  else if line = utf8 ":disasm" then
    repl.withMachine fun session => (listing session, session)
  else if line = collectCommand then
    repl.withMachine fun session =>
      let (account, machine) := session.machine.collect
      (accountLine repl.duration account, { session with machine := machine })
  else
    repl.printing (utf8 "Unknown command: " ++ line ++ utf8 " (type :help for commands)\n")

/-- Evaluates a complete input. -/
def evaluate (fuel : Nat) (repl : Repl) (input : Bytes) : ReplStep :=
  let (outcome, session) := repl.session.eval fuel input
  let ((printed, reported), session) := session.takeOutput
  let line :=
    match outcome with
    | .ok value => Report.valueLine value
    | .error error => Report.errorLine error.message
  ⟨printed ++ line, reported, some { repl with session := session, pending := [] }⟩

/-- Adds a line to the pending ones and evaluates them if they are complete. -/
def accept (fuel : Nat) (repl : Repl) (line : Bytes) : ReplStep :=
  let input := if repl.pending.isEmpty then line else repl.pending ++ utf8 "\n" ++ line
  if 0 < parenDepth false input then ⟨[], [], some { repl with pending := input }⟩
  else if (Glyph.trim input).isEmpty then ⟨[], [], some { repl with pending := [] }⟩
  else repl.evaluate fuel input

/-- Whether a line ends a session in which no input is pending. -/
def isExit (line : Bytes) : Bool :=
  line == utf8 "exit" || line == utf8 "quit"

/-- Takes one line. -/
def step (fuel : Nat) (repl : Repl) (line : Bytes) : ReplStep :=
  if repl.pending.isEmpty && isExit line then ⟨[], [], none⟩
  else if repl.pending.isEmpty && line.head? == some (Bytes.ascii ':') then repl.command line
  else repl.accept fuel line

/-! ## Lines -/

/-- A line of this many bytes or more ends the input. -/
def lineLimit : Nat := 65536

/-- A line without a carriage return at its end. -/
def dropReturn (line : Bytes) : Bytes :=
  if line.getLast? = some 13 then line.dropLast else line

/-- The lines of an input. A last line need not be ended, and an overlong line ends the
input. -/
def inputLines (input : Bytes) : List Bytes :=
  let parts := Bytes.splitOn 10 input
  let lines := if parts.getLast? = some [] then parts.dropLast else parts
  (lines.takeWhile fun line => line.length < lineLimit).map dropReturn

/-- What a session prints, and what it reports, from its first prompt on. -/
def transcriptFrom (fuel : Nat) (repl : Repl) : List Bytes → Bytes × Bytes
  | [] => (repl.prompt ++ farewell, [])
  | line :: rest =>
      let taken := repl.step fuel line
      match taken.next with
      | none => (repl.prompt ++ taken.out ++ farewell, taken.err)
      | some next =>
          let (out, err) := transcriptFrom fuel next rest
          (repl.prompt ++ taken.out ++ out, taken.err ++ err)

/-- What a session prints, and what it reports, given all its input. -/
def transcript (fuel : Nat) (session : Session) (duration input : Bytes) : Bytes × Bytes :=
  let (out, err) := transcriptFrom fuel ⟨session, [], duration⟩ (inputLines input)
  (banner ++ out, err)

end Repl

end ClosureLisp
