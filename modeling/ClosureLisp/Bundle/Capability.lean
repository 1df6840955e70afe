import ClosureLisp.Bytecode.Decode
import ClosureLisp.Primitive

/-!
# Capabilities

What code needs from its host. A capability is needed if the code loads a predefined global
whose name stands for a function with an effect. A policy says which capabilities a bundle
may declare.
-/

namespace ClosureLisp

/-- Something that code needs from its host. -/
inductive Capability where
  | output
  deriving DecidableEq, Repr

namespace Capability

/-- All capabilities in the order of their names. -/
def all : List Capability :=
  [.output]

/-- The name of a capability. -/
def name : Capability → Name
  | .output => utf8 "Output"

/-- The capability that a primitive needs. -/
def ofPrimitive? : Primitive → Option Capability
  | .display => some .output
  | _ => none

/-- The capability that the function with a predefined name needs. -/
def ofGlobal? (name : Name) : Option Capability :=
  (Primitive.ofName? name).bind ofPrimitive?

/-- The capability that an instruction needs under a table of global names: only the loads of
predefined slots count. -/
def ofInstr? (globals : List Name) : Instr → Option Capability
  | .getGlobal slot =>
      if 0 ≤ slot ∧ slot.toInt.toNat < predefinedNames.length then
        (globals[slot.toInt.toNat]?).bind ofGlobal?
      else none
  | _ => none

/-- The names of the capabilities that instructions need, in order and each once. -/
def neededBy (globals : List Name) (instrs : List Code.Located) : List Name :=
  let needed := instrs.filterMap fun located => ofInstr? globals located.instr
  (all.filter needed.contains).map name

/-- The names of the capabilities that code needs, if the code decodes. -/
def required (code : Code) (globals : List Name) : Except DecodeError (List Name) :=
  match code.decodeAll with
  | (_, some error) => .error error
  | (instrs, none) => .ok (neededBy globals instrs)

end Capability

/-- Which capabilities a host grants: those allowed, or all if there is no such list, without
those denied. -/
structure Policy where
  allowed : Option (List Name)
  denied : List Name
  deriving DecidableEq, Repr

/-- Why a policy refuses a capability. -/
inductive Refusal where
  | denied (capability : Name)
  | notAllowed (capability : Name)
  deriving DecidableEq, Repr

namespace Policy

/-- The policy that grants everything. -/
def permissive : Policy :=
  ⟨none, []⟩

/-- The policy that grants the given capabilities only. -/
def restricted (allowed : List Name) : Policy :=
  ⟨some allowed, []⟩

/-- A policy that refuses one more capability. -/
def deny (policy : Policy) (capability : Name) : Policy :=
  { policy with denied := capability :: policy.denied }

/-- Why a policy refuses one capability, if it does. -/
def refusal? (policy : Policy) (capability : Name) : Option Refusal :=
  if policy.denied.contains capability then some (.denied capability)
  else if policy.allowed.any fun allowed => !allowed.contains capability then
    some (.notAllowed capability)
  else none

/-- The first refusal among declared capabilities. -/
def check (policy : Policy) (capabilities : List Name) : Option Refusal :=
  capabilities.findSome? policy.refusal?

end Policy

end ClosureLisp
