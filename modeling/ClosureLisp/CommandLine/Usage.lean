import ClosureLisp.CommandLine.Flag

/-!
# Usage

The flags of the program and of its commands, and the texts that explain them.
-/

namespace ClosureLisp.Usage

/-- A flag from fixed texts. -/
def flag (name : String) (kind : FlagKind) (help : String) : Flag :=
  ⟨utf8 name, kind, utf8 help⟩

/-- The flags in front of the command, in the order of their names. -/
def flags : List Flag :=
  [flag "cache" .text "SQLite compile cache path",
    flag "deny" .text "Comma-separated capabilities to refuse (e.g. Output)",
    flag "gc-threshold" .number "Heap size in bytes that triggers collection",
    flag "interp" .switch "Evaluate with the tree-walking interpreter instead of the VM",
    flag "log" .text "Write logs to this file instead of stderr",
    flag "no-manifest" .switch "Ignore lamb.toml",
    flag "trace" .switch "Print each executed instruction",
    flag "v" .number "Log verbosity (0 = errors only, 1 = info, 2 = debug)"]

/-- The flags of the command that builds a bundle. -/
def buildFlags : List Flag :=
  [flag "o" .text "Output bundle path"]

/-- The lines in front of the flags. -/
def opening : Bytes :=
  utf8 "Usage: lamb [options] <command> [args...]\n\n" ++
  utf8 "Commands:\n" ++
  utf8 "  run [files...]          Compile and run files (default: lamb.toml sources)\n" ++
  utf8 "  check [files...]        Compile without running and print warnings\n" ++
  utf8 "  eval <source>           Evaluate source text\n" ++
  utf8 "  build [-o out] [files]  Compile files into a bundle\n" ++
  utf8 "  exec <bundle>           Run a compiled bundle\n" ++
  utf8 "  disasm <file>           Disassemble a source file or bundle\n" ++
  utf8 "  repl                    Start interactive REPL\n" ++
  utf8 "\nOptions:\n"

/-- The lines behind the flags. -/
def closing : Bytes :=
  utf8 "\nExamples:\n" ++
  utf8 "  lamb run sum.lamb\n" ++
  utf8 "  lamb eval '(+ 1 2)'\n" ++
  utf8 "  lamb build -o sum.lambc sum.lamb && lamb exec sum.lambc\n"

/-- How to use the program. -/
def program : Bytes :=
  opening ++ flags.flatMap Flag.describe ++ closing

/-- How to use the command that builds a bundle. -/
def build : Bytes :=
  utf8 "Usage of build:\n" ++ buildFlags.flatMap Flag.describe

/-- A flag fault with the text that explains the flags. -/
def explain (fault : FlagFault) (usage : Bytes) : Bytes :=
  (fault.message?.map (· ++ utf8 "\n")).getD [] ++ usage

end ClosureLisp.Usage
