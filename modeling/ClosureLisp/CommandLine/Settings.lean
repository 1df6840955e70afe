import ClosureLisp.Bundle.Basic
import ClosureLisp.CommandLine.Flag
import ClosureLisp.Project.Load
import ClosureLisp.Text.Blank

/-!
# Settings

The settings of one call of the program. A flag wins over the project file, except that
either of them can turn tracing on.
-/

namespace ClosureLisp

/-- The settings of one call of the program, merged from the project file and the flags. -/
structure Settings where
  project : Option Project
  machine : MachineOptions
  interpreted : Bool
  cache : Option Path
  log : Option Path
  policy : Policy

namespace Settings

/-- The capabilities that a list between commas refuses. -/
def policyOf (denied : Bytes) : Policy :=
  let names := ((Bytes.splitOn (Bytes.ascii ',') denied).map Glyph.trim).filter fun name =>
    !name.isEmpty
  names.foldl Policy.deny Policy.permissive

/-- The settings of a machine from the project file, changed by flags. -/
def machineOf (project : Option Project) (given : List (Bytes × FlagValue)) : MachineOptions :=
  let options := (project.map Project.machineOptions).getD {}
  { options with
    trace := options.trace || Flag.switch "trace" given
    gcThreshold :=
      if 0 < Flag.number "gc-threshold" given then Flag.number "gc-threshold" given
      else options.gcThreshold }

/-- The verbosity from which downward nothing is logged. -/
def silentVerbosity : Int := -4

/-- The file for the log, unless the log goes to the terminal or is silenced. -/
def logPath? (project : Option Project) (given : List (Bytes × FlagValue)) : Option Path :=
  let configured := (project.map Project.verbosity).getD 0
  let verbosity := Flag.number "v" given
  let path := Flag.text "log" given
  if (if verbosity = 0 then configured else verbosity) ≤ silentVerbosity then none
  else if path.isEmpty then project.bind Project.logPath?
  else some path

/-- The settings from the project file and the flags. -/
def ofFlags (project : Option Project) (given : List (Bytes × FlagValue)) : Settings where
  project := project
  machine := machineOf project given
  interpreted := Flag.switch "interp" given
  cache :=
    let path := Flag.text "cache" given
    if path.isEmpty then project.bind Project.cachePath? else some path
  log := logPath? project given
  policy := policyOf (Flag.text "deny" given)

end Settings

end ClosureLisp
