import ClosureLisp.Source.Token

/-!
# Binders

The names that lambdas bind, and the coordinates of a name among enclosing lambdas: how
many of them lie between an occurrence and its binder, and the slot there. A parameter
hides the own name of its lambda, and of two equal parameters the later one counts.
-/

namespace ClosureLisp

/-- The names that one lambda binds. -/
structure Binder where
  self : Option Name
  parameters : List Name
  deriving DecidableEq, Repr

namespace Binder

/-- Whether a lambda binds a name, as a parameter or as its own. -/
def binds (binder : Binder) (name : Name) : Bool :=
  binder.parameters.contains name || binder.self == some name

/-- The place of the last occurrence of a name in a list. -/
def lastIndex? (name : Name) : List Name → Option Nat
  | [] => none
  | first :: rest =>
      match lastIndex? name rest with
      | some index => some (index + 1)
      | none => if first = name then some 0 else none

/-- The slot of a name: its place among the parameters, or their number for the lambda
itself. -/
def slot? (binder : Binder) (name : Name) : Option Nat :=
  match lastIndex? name binder.parameters with
  | some index => some index
  | none => if binder.self = some name then some binder.parameters.length else none

/-- The coordinates of a name inside the given lambdas, innermost first: the number of
lambdas passed and the slot. -/
def resolve? (name : Name) : List Binder → Option (Nat × Nat)
  | [] => none
  | binder :: outer =>
      match binder.slot? name with
      | some slot => some (0, slot)
      | none => (resolve? name outer).map fun (depth, slot) => (depth + 1, slot)

end Binder

end ClosureLisp
