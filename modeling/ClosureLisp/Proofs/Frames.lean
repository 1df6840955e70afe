import ClosureLisp.Compiler.Frame
import Mathlib.Data.List.Forall2

/-!
# Frames while code is generated

Generating code only ever adds captures to frames. `Frame.Extends` compares a frame with a
later state of itself, and `Frame.Threaded` says that every capture of a frame has its place
in the layout and is loaded from a slot that the next frame gives the same name.
-/

namespace ClosureLisp.Frame

/-- A later state of a frame: the same binders, and further captures behind the known ones. -/
structure Extends (frame later : Frame) : Prop where
  parameters : later.parameters = frame.parameters
  self : later.self = frame.self
  captures : frame.captures <+: later.captures

namespace Extends

theorem refl (frame : Frame) : Extends frame frame :=
  ⟨rfl, rfl, List.prefix_refl _⟩

theorem trans {first second third : Frame} (left : Extends first second)
    (right : Extends second third) : Extends first third :=
  ⟨right.parameters.trans left.parameters, right.self.trans left.self,
    left.captures.trans right.captures⟩

/-- A name keeps its slot. -/
theorem slot? {frame later : Frame} (grown : Extends frame later) {name : Name} {slot : Nat}
    (found : frame.slot? name = some slot) : later.slot? name = some slot := by
  obtain ⟨parameters, self, more, captures⟩ := grown
  unfold Frame.slot? at found ⊢
  rw [parameters, self, Frame.arity, parameters, ← captures, List.find?_append]
  cases known : frame.captures.find? fun capture => capture.name = name with
  | some capture => simpa [known, Frame.arity] using found
  | none =>
      split at found
      · next index place => simpa [place] using found
      · next place =>
          split at found
          · next same => simpa [place, same, Frame.arity] using found
          · rw [known] at found
            cases found

end Extends

/-- The slot of a name in the innermost of some frames. -/
def innermostSlot? (frames : List Frame) (name : Name) : Option Nat :=
  frames.head?.bind fun frame => frame.slot? name

/-- The captures of a frame follow the function itself in the order in which they were added. -/
def Regular (frame : Frame) : Prop :=
  ∀ index capture, frame.captures[index]? = some capture →
    capture.slot = frame.arity + 1 + index

/-- Every capture stands in its place and comes from the slot of its name in the next frame. -/
def Threaded : List Frame → Prop
  | [] => True
  | frame :: outer =>
      frame.Regular ∧
        (∀ capture ∈ frame.captures,
          innermostSlot? outer capture.name = some capture.parentSlot) ∧
        Threaded outer

theorem Threaded.cons_fresh {frames : List Frame} (threaded : Threaded frames)
    (parameters : List Name) (self : Option Name) :
    Threaded (⟨parameters, self, []⟩ :: frames) :=
  ⟨fun _ _ found => by simp at found, fun _ listed => by simp at listed, threaded⟩

theorem extendsAll_refl (frames : List Frame) : List.Forall₂ Extends frames frames :=
  List.forall₂_same.mpr fun frame _ => .refl frame

theorem extendsAll_trans {first second third : List Frame}
    (left : List.Forall₂ Extends first second) (right : List.Forall₂ Extends second third) :
    List.Forall₂ Extends first third := by
  induction left generalizing third with
  | nil => exact right
  | cons head _ ih =>
      cases right with
      | cons next rest => exact .cons (head.trans next) (ih rest)

theorem innermostSlot?_of_extends {frames later : List Frame}
    (extended : List.Forall₂ Extends frames later) {name : Name} {slot : Nat}
    (found : innermostSlot? frames name = some slot) :
    innermostSlot? later name = some slot := by
  cases extended with
  | nil => exact found
  | cons head _ => exact head.slot? found

/-- A name that a frame does not hold is added to its captures. -/
theorem capture_of_slot?_eq_none {frame : Frame} {name : Name}
    (missing : frame.slot? name = none) (parentSlot : Nat) :
    frame.capture name parentSlot =
      (frame.nextSlot,
        { frame with captures := frame.captures ++ [⟨name, parentSlot, frame.nextSlot⟩] }) := by
  have unknown : frame.captures.find? (fun capture => capture.name = name) = none := by
    unfold Frame.slot? at missing
    split at missing
    · cases missing
    · split at missing
      · cases missing
      · exact Option.map_eq_none_iff.mp missing
  rw [Frame.capture, unknown]

theorem slot?_of_captured {frame : Frame} {name : Name} (missing : frame.slot? name = none)
    (parentSlot : Nat) :
    ({ frame with
      captures := frame.captures ++ [⟨name, parentSlot, frame.nextSlot⟩] } : Frame).slot? name =
      some frame.nextSlot := by
  unfold Frame.slot? at missing ⊢
  split at missing
  · cases missing
  · next place =>
      split at missing
      · cases missing
      · next other =>
          rw [Option.map_eq_none_iff] at missing
          simp [place, other, List.find?_append, missing]

/-- Resolving a name keeps frames threaded, only adds captures, and finds the slot that the
innermost frame then gives the name. -/
theorem resolve?_spec {name : Name} {frames after : List Frame} {slot : Nat}
    (threaded : Threaded frames) (resolved : resolve? name frames = some (slot, after)) :
    Threaded after ∧ List.Forall₂ Extends frames after ∧
      innermostSlot? after name = some slot := by
  induction frames generalizing slot after with
  | nil => cases resolved
  | cons frame outer ih =>
      rw [resolve?] at resolved
      split at resolved
      · next found =>
          cases resolved
          exact ⟨threaded, extendsAll_refl _, found⟩
      · next missing =>
          split at resolved
          · cases resolved
          · next parentSlot outerAfter outerResolved =>
              rw [capture_of_slot?_eq_none missing] at resolved
              cases resolved
              obtain ⟨regular, loaded, outerThreaded⟩ := threaded
              obtain ⟨kept, extended, parent⟩ := ih outerThreaded outerResolved
              refine ⟨⟨?_, ?_, kept⟩, .cons ⟨rfl, rfl, List.prefix_append _ _⟩ extended,
                slot?_of_captured missing parentSlot⟩
              · intro index capture found
                rcases Nat.lt_trichotomy index frame.captures.length with below | last | above
                · rw [List.getElem?_append_left below] at found
                  exact regular index capture found
                · subst last
                  simp at found
                  rw [← found]
                  rfl
                · simp [List.getElem?_append_right (Nat.le_of_lt above),
                    Nat.sub_ne_zero_of_lt above] at found
              · intro capture listed
                rcases List.mem_append.mp listed with known | added
                · exact innermostSlot?_of_extends extended (loaded capture known)
                · rw [List.mem_singleton.mp added]
                  exact parent

/-- A name that does not resolve is held by no frame. -/
theorem slot?_eq_none_of_resolve?_eq_none {name : Name} {frames : List Frame}
    (unresolved : resolve? name frames = none) :
    ∀ frame ∈ frames, frame.slot? name = none := by
  induction frames with
  | nil => exact fun _ listed => absurd listed List.not_mem_nil
  | cons frame outer ih =>
      rw [resolve?] at unresolved
      split at unresolved
      · cases unresolved
      · next missing =>
          split at unresolved
          · next outermost => exact List.forall_mem_cons.mpr ⟨missing, ih outermost⟩
          · cases unresolved

end ClosureLisp.Frame
