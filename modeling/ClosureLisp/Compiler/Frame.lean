import ClosureLisp.Source.Token
import Std.Data.TreeSet

/-!
# Lexical frames

While the body of a lambda is compiled, its frame says which slot each local name has.
Slots follow the layout of an activation: the parameters, then the function itself, then
the captures in the order in which they were first needed. A stack of frames lists the
innermost lambda first.
-/

namespace ClosureLisp

/-- A value copied out of the enclosing activation when the closure is made. -/
structure Capture where
  name : Name
  parentSlot : Nat
  slot : Nat
  deriving DecidableEq, Repr

/-- The local names of one lambda. -/
structure Frame where
  parameters : List Name
  self : Option Name
  captures : List Capture
  deriving DecidableEq, Repr

namespace Frame

/-- Whether names differ from each other and from those seen before. -/
def differ (seen : Std.TreeSet Name) : List Name → Bool
  | [] => true
  | name :: rest => !seen.contains name && differ (seen.insert name) rest

theorem differ_eq_true_iff (seen : Std.TreeSet Name) (names : List Name) :
    differ seen names = true ↔ names.Nodup ∧ ∀ name ∈ names, name ∉ seen := by
  induction names generalizing seen with
  | nil => simp [differ]
  | cons name rest ih =>
      simp only [differ, Bool.and_eq_true, Bool.not_eq_true', ih, List.nodup_cons,
        List.forall_mem_cons, Std.TreeSet.mem_insert, Std.LawfulEqCmp.compare_eq_iff_eq, not_or]
      rw [← Bool.not_eq_true, ← Std.TreeSet.mem_iff_contains]
      constructor
      · rintro ⟨unseen, distinct, apart⟩
        exact ⟨⟨fun again => (apart name again).1 rfl, distinct⟩, unseen,
          fun other found => (apart other found).2⟩
      · rintro ⟨⟨once, distinct⟩, unseen, apart⟩
        exact ⟨unseen, distinct, fun other found =>
          ⟨fun same => once (same ▸ found), apart other found⟩⟩

/-- Long lists of parameters are searched for repetitions with a tree. -/
instance decidableNodup (names : List Name) : Decidable names.Nodup :=
  decidable_of_iff (differ ∅ names = true) (by simp [differ_eq_true_iff])

/-- The frame of a lambda before its body is compiled; there is none if a parameter is
repeated. -/
def new? (self : Option Name) (parameters : List Name) : Option Frame :=
  if parameters.Nodup then some ⟨parameters, self, []⟩ else none

/-- The number of parameters. -/
def arity (frame : Frame) : Nat :=
  frame.parameters.length

/-- The first slot that is still free. -/
def nextSlot (frame : Frame) : Nat :=
  frame.arity + 1 + frame.captures.length

/-- The slot of a name that the frame itself holds: a parameter before the function's own
name, and that before a capture. -/
def slot? (frame : Frame) (name : Name) : Option Nat :=
  match frame.parameters.idxOf? name with
  | some index => some index
  | none =>
      if frame.self = some name then some frame.arity
      else (frame.captures.find? fun capture => capture.name = name).map Capture.slot

/-- Captures a name from a slot of the enclosing frame, at most once. -/
def capture (frame : Frame) (name : Name) (parentSlot : Nat) : Nat × Frame :=
  match frame.captures.find? fun capture => capture.name = name with
  | some known => (known.slot, frame)
  | none =>
      (frame.nextSlot,
        { frame with captures := frame.captures ++ [⟨name, parentSlot, frame.nextSlot⟩] })

/-- Resolves a name from the innermost frame outwards. A name held by an outer frame is
captured by every frame inside it, so that the slot found belongs to the innermost frame. -/
def resolve? (name : Name) : List Frame → Option (Nat × List Frame)
  | [] => none
  | frame :: outer =>
      match frame.slot? name with
      | some slot => some (slot, frame :: outer)
      | none =>
          match resolve? name outer with
          | none => none
          | some (parentSlot, outer) =>
              let (slot, frame) := frame.capture name parentSlot
              some (slot, frame :: outer)

end Frame

end ClosureLisp
