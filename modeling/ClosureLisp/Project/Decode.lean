import ClosureLisp.Project.Basic
import ClosureLisp.Toml.Document

/-!
# Project files

The project that a TOML document configures. A key selects a setting if it is spelled like
it, in whatever case; the exact spelling wins over others. Settings have to have the right
type, and other keys are passed over.
-/

namespace ClosureLisp.Project

open Toml

/-- The code of a character without the difference of case. Besides the capital letters there
are two characters whose small or capital form is an ASCII letter. -/
def foldCase (code : Nat) : Nat :=
  if 65 ≤ code ∧ code ≤ 90 then code + 32
  else if code = 0x212A then 107
  else if code = 0x17F then 115
  else code

/-- The codes of a text without the difference of case. -/
def folded (text : Bytes) : List Nat :=
  (Glyph.ofBytes text).map fun glyph => foldCase glyph.code

/-- The values of the keys spelled like a name, the exact spelling last. -/
def candidates (name : Bytes) (table : Toml.Table) : List Datum :=
  let alike := table.filter fun entry => folded entry.1 = folded name
  ((alike.filter fun entry => entry.1 ≠ name) ++ alike.filter fun entry => entry.1 = name).map
    Prod.snd

/-- The value of a setting in tables of which later ones count more, if all its values have the
right type; it may be missing. -/
def setting? {α : Type} (convert : Datum → Option α) (default : α) (name : String)
    (tables : List Toml.Table) : Option α :=
  ((tables.flatMap (candidates (utf8 name))).mapM convert).map fun values =>
    values.getLast?.getD default

/-- The entries of a table. -/
def asTable? (document : Document) : Datum → Option Toml.Table
  | .table number => some (document.entries number)
  | _ => none

/-- A text. -/
def asText? : Datum → Option Bytes
  | .text content => some content
  | _ => none

/-- An integer. -/
def asInteger? : Datum → Option Int
  | .integer value => some value
  | _ => none

/-- A truth value. -/
def asBoolean? : Datum → Option Bool
  | .boolean value => some value
  | _ => none

/-- A list of texts. -/
def asTexts? : Datum → Option (List Bytes)
  | .array items => items.mapM asText?
  | _ => none

/-- The tables of a section, the exact spelling last. -/
def section? (name : String) (document : Document) : Option (List Toml.Table) :=
  (candidates (utf8 name) (document.entries 0)).mapM (asTable? document)

/-- The project that a document configures, if all settings have the right type. -/
def ofDocument? (document : Document) : Option Project := do
  let project ← section? "project" document
  let source ← section? "source" document
  let machine ← section? "vm" document
  let build ← section? "build" document
  let log ← section? "log" document
  pure
    { name := ← setting? asText? [] "name" project
      version := ← setting? asText? [] "version" project
      sourceDirs := ← setting? asTexts? [] "dirs" source
      sources := ← setting? asTexts? [] "files" source
      gcThreshold := ← setting? asInteger? 0 "gc-threshold" machine
      stackLimit := ← setting? asInteger? 0 "stack-limit" machine
      trace := ← setting? asBoolean? false "trace" machine
      output := ← setting? asText? [] "output" build
      cache := ← setting? asText? [] "cache" build
      verbosity := ← setting? asInteger? 0 "verbosity" log
      logFile := ← setting? asText? [] "file" log
      directory := [] }

/-- The project that a project file configures. -/
def ofText? (text : Bytes) : Option Project :=
  (Toml.parse? text).bind ofDocument?

end ClosureLisp.Project
