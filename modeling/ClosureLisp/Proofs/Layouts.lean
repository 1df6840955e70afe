import ClosureLisp.Canon.Basic
import ClosureLisp.Proofs.Frames

/-!
# Frames without names

A frame names its captures; a layout says instead where each capture comes from, in
coordinates. Both ways of resolving a name, by coordinates among binders and by slots among
frames, carry the same information: `Frame.resolve?_layouts` computes the slots from the
coordinates alone.
-/

namespace ClosureLisp

/-! ## Coordinates -/

namespace Binder

theorem getElem?_of_lastIndex? {name : Name} {names : List Name} {index : Nat}
    (found : lastIndex? name names = some index) : names[index]? = some name := by
  induction names generalizing index with
  | nil => cases found
  | cons first rest ih =>
      rw [lastIndex?] at found
      split at found
      · next later =>
          cases found
          exact ih later
      · split at found
        · next same =>
            cases found
            rw [same]
            rfl
        · cases found

/-- Among names that differ from each other the last occurrence is the first. -/
theorem lastIndex?_eq_idxOf? {name : Name} {names : List Name} (distinct : names.Nodup) :
    lastIndex? name names = names.idxOf? name := by
  induction names with
  | nil => rfl
  | cons first rest ih =>
      obtain ⟨once, distinct⟩ := List.nodup_cons.mp distinct
      rw [lastIndex?, ih distinct, List.idxOf?_cons]
      by_cases same : first = name
      · subst same
        have absent : rest.idxOf? first = none := List.idxOf?_eq_none_iff.mpr once
        simp [absent]
      · have other : (first == name) = false := beq_eq_false_iff_ne.mpr same
        rw [other]
        cases rest.idxOf? name <;> simp [same]

variable {binder : Binder} {name other : Name} {slot : Nat}

theorem slot?_eq_some (found : binder.slot? name = some slot) :
    binder.parameters[slot]? = some name ∨
      slot = binder.parameters.length ∧ binder.self = some name := by
  unfold slot? at found
  split at found
  · next listed =>
      cases found
      exact .inl (getElem?_of_lastIndex? listed)
  · split at found
    · next own =>
        cases found
        exact .inr ⟨rfl, own⟩
    · cases found

/-- A slot belongs to one name only. -/
theorem slot?_inj (found : binder.slot? name = some slot)
    (otherFound : binder.slot? other = some slot) : name = other := by
  rcases slot?_eq_some found with listed | ⟨behind, own⟩
  · rcases slot?_eq_some otherFound with otherListed | ⟨behind, -⟩
    · exact Option.some.inj (listed.symm.trans otherListed)
    · rw [behind, List.getElem?_eq_none (Nat.le_refl _)] at listed
      cases listed
  · rcases slot?_eq_some otherFound with otherListed | ⟨-, otherOwn⟩
    · rw [behind, List.getElem?_eq_none (Nat.le_refl _)] at otherListed
      cases otherListed
    · exact Option.some.inj (own.symm.trans otherOwn)

/-- Coordinates belong to one name only. -/
theorem resolve?_inj {binders : List Binder} {place : Nat × Nat}
    (found : resolve? name binders = some place)
    (otherFound : resolve? other binders = some place) : name = other := by
  induction binders generalizing place with
  | nil => cases found
  | cons binder outer ih =>
      rw [resolve?] at found otherFound
      cases first : binder.slot? name with
      | some slot =>
          rw [first] at found
          cases found
          cases second : binder.slot? other with
          | some otherSlot =>
              rw [second] at otherFound
              cases otherFound
              exact slot?_inj first second
          | none =>
              rw [second] at otherFound
              obtain ⟨place, -, same⟩ := Option.map_eq_some_iff.mp otherFound
              cases same
      | none =>
          rw [first] at found
          obtain ⟨⟨depth, slot⟩, outerFound, rfl⟩ := Option.map_eq_some_iff.mp found
          cases second : binder.slot? other with
          | some otherSlot =>
              rw [second] at otherFound
              cases otherFound
          | none =>
              rw [second] at otherFound
              obtain ⟨⟨otherDepth, otherSlot⟩, otherOuter, same⟩ :=
                Option.map_eq_some_iff.mp otherFound
              simp only [Prod.mk.injEq, Nat.add_right_cancel_iff] at same
              obtain ⟨rfl, rfl⟩ := same
              exact ih outerFound otherOuter

end Binder

/-! ## Layouts -/

/-- A capture of a frame: the coordinates of what is captured, seen from outside the lambda, the
slot it is loaded from, and its slot inside. -/
structure Layout.Copy where
  origin : Option (Nat × Nat)
  parentSlot : Nat
  slot : Nat
  deriving DecidableEq

/-- A frame without names. -/
structure Layout where
  arity : Nat
  copies : List Layout.Copy

namespace Layout

/-- The layout of a lambda before its body is compiled. -/
def fresh (arity : Nat) : Layout :=
  ⟨arity, []⟩

/-- The slot at which a lambda holds what has the given coordinates outside of it, if it does. -/
def copied? (layout : Layout) (origin : Nat × Nat) : Option Nat :=
  (layout.copies.find? fun copy => copy.origin = some origin).map Copy.slot

/-- Captures what has the given coordinates outside of the lambda. -/
def capture (layout : Layout) (origin : Nat × Nat) (parentSlot : Nat) : Nat × Layout :=
  let slot := layout.arity + 1 + layout.copies.length
  (slot, { layout with copies := layout.copies ++ [⟨some origin, parentSlot, slot⟩] })

/-- Resolves coordinates from the innermost layout outwards, as names are resolved by frames. -/
def resolve? : (depth slot : Nat) → List Layout → Option (Nat × List Layout)
  | _, _, [] => none
  | 0, slot, layout :: outer => some (slot, layout :: outer)
  | depth + 1, slot, layout :: outer =>
      match layout.copied? (depth, slot) with
      | some copy => some (copy, layout :: outer)
      | none =>
          match resolve? depth slot outer with
          | none => none
          | some (parentSlot, outer) =>
              let (slot, layout) := layout.capture (depth, slot) parentSlot
              some (slot, layout :: outer)

end Layout

namespace Frame

/-- The names that the lambda of a frame binds. -/
def binder (frame : Frame) : Binder :=
  ⟨frame.self, frame.parameters⟩

/-- A frame inside the given lambdas without its names. -/
def layout (outer : List Binder) (frame : Frame) : Layout :=
  ⟨frame.arity, frame.captures.map fun capture =>
    ⟨Binder.resolve? capture.name outer, capture.parentSlot, capture.slot⟩⟩

/-- Frames without their names. -/
def layouts : List Frame → List Layout
  | [] => []
  | frame :: outer => frame.layout (outer.map binder) :: layouts outer

/-- The parameters of each frame differ, and what it captures is bound outside. -/
def Sensible : List Frame → Prop
  | [] => True
  | frame :: outer =>
      frame.parameters.Nodup ∧
        (∀ capture ∈ frame.captures,
          ∃ place, Binder.resolve? capture.name (outer.map binder) = some place) ∧
        Sensible outer

variable {frame : Frame} {name : Name}

/-- A name that a lambda does not bind itself is found among its captures. -/
theorem slot?_eq (distinct : frame.parameters.Nodup) (name : Name) :
    frame.slot? name =
      (frame.binder.slot? name).or
        ((frame.captures.find? fun capture => capture.name = name).map Capture.slot) := by
  rw [slot?, Binder.slot?, binder, Binder.lastIndex?_eq_idxOf? distinct]
  cases frame.parameters.idxOf? name with
  | some index => rfl
  | none =>
      by_cases own : frame.self = some name
      · simp [own, arity]
      · simp [own]

/-- A capture is found by the coordinates of its name as well as by its name. -/
theorem copied?_layout (frame : Frame) {outer : List Binder} {origin : Nat × Nat}
    (resolved : Binder.resolve? name outer = some origin) :
    (frame.layout outer).copied? origin =
      (frame.captures.find? fun capture => capture.name = name).map Capture.slot := by
  have alike : ∀ capture : Capture,
      decide (Binder.resolve? capture.name outer = some origin) = decide (capture.name = name) := by
    intro capture
    rw [decide_eq_decide]
    constructor
    · exact fun found => Binder.resolve?_inj found resolved
    · rintro rfl
      exact resolved
  rw [Layout.copied?, layout, List.find?_map, Option.map_map]
  simp only [Function.comp_def, alike]

/-- Capturing a name is capturing what has its coordinates. -/
theorem layout_capture {outer : List Binder} {origin : Nat × Nat} {parentSlot : Nat}
    (resolved : Binder.resolve? name outer = some origin) :
    ({ frame with
      captures := frame.captures ++ [⟨name, parentSlot, frame.nextSlot⟩] } : Frame).layout outer =
      ((frame.layout outer).capture origin parentSlot).2 := by
  simp [layout, Layout.capture, resolved, nextSlot, arity]

/-- Resolving a name by frames is resolving its coordinates by layouts. -/
theorem resolve?_layouts {frames : List Frame} {depth slot : Nat} (sensible : Sensible frames)
    (resolved : Binder.resolve? name (frames.map binder) = some (depth, slot)) :
    ∃ found after, resolve? name frames = some (found, after) ∧
      Layout.resolve? depth slot (layouts frames) = some (found, layouts after) ∧
      Sensible after ∧ after.map binder = frames.map binder := by
  induction frames generalizing depth slot with
  | nil => cases resolved
  | cons frame outer ih =>
      obtain ⟨distinct, captured, outerSensible⟩ := sensible
      rw [List.map_cons, Binder.resolve?] at resolved
      cases own : frame.binder.slot? name with
      | some place =>
          rw [own] at resolved
          cases resolved
          have held : frame.slot? name = some slot := by rw [slot?_eq distinct, own, Option.some_or]
          refine ⟨slot, frame :: outer, ?_, rfl, ⟨distinct, captured, outerSensible⟩, rfl⟩
          rw [resolve?, held]
      | none =>
          rw [own] at resolved
          obtain ⟨⟨outerDepth, outerSlot⟩, outerResolved, same⟩ :=
            Option.map_eq_some_iff.mp resolved
          cases same
          have copied := copied?_layout frame outerResolved
          have held := slot?_eq distinct name
          rw [own, Option.none_or, ← copied] at held
          rw [resolve?, layouts, Layout.resolve?, held]
          cases known : (frame.layout (outer.map binder)).copied? (outerDepth, slot) with
          | some copy =>
              exact ⟨copy, frame :: outer, rfl, rfl, ⟨distinct, captured, outerSensible⟩, rfl⟩
          | none =>
              rw [known] at held
              obtain ⟨parentSlot, outerAfter, found, placed, kept, binders⟩ :=
                ih outerSensible outerResolved
              simp only [found, placed]
              rw [capture_of_slot?_eq_none held]
              refine ⟨_, _, rfl, ?_, ⟨distinct, ?_, kept⟩, congrArg (frame.binder :: ·) binders⟩
              · rw [layouts, binders, layout_capture outerResolved]
                simp [Layout.capture, layout, nextSlot, arity]
              · rw [binders]
                intro capture listed
                rcases List.mem_append.mp listed with old | added
                · exact captured capture old
                · rw [List.mem_singleton.mp added]
                  exact ⟨_, outerResolved⟩

/-- A name without coordinates is resolved by no frame. -/
theorem resolve?_eq_none {frames : List Frame} (sensible : Sensible frames)
    (unresolved : Binder.resolve? name (frames.map binder) = none) :
    resolve? name frames = none := by
  induction frames with
  | nil => rfl
  | cons frame outer ih =>
      obtain ⟨distinct, captured, outerSensible⟩ := sensible
      rw [List.map_cons, Binder.resolve?] at unresolved
      cases own : frame.binder.slot? name with
      | some place =>
          rw [own] at unresolved
          cases unresolved
      | none =>
          rw [own, Option.map_eq_none_iff] at unresolved
          have unknown : frame.captures.find? (fun capture => capture.name = name) = none := by
            rw [List.find?_eq_none]
            intro capture listed same
            obtain ⟨place, found⟩ := captured capture listed
            rw [of_decide_eq_true same, unresolved] at found
            cases found
          have missing : frame.slot? name = none := by
            rw [slot?_eq distinct, own, unknown]
            rfl
          rw [resolve?, missing, ih outerSensible unresolved]

end Frame

end ClosureLisp
