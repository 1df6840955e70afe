import ClosureLisp.Proofs.Generation

/-!
# Captures lead to their binder

A name that an outer lambda binds is captured by every lambda in between, and later occurrences
find these captures as if they were bindings. `Frame.Reachable` are the stacks of frames that can
come up while code is generated, and `Expr.Underway` says at which of them the generator comes to
an expression. On all of these a name resolves exactly if a frame binds it, and the captures lead
from the slot found to the slot of the nearest binder (`Frame.resolve?_reaches_binder`). The
invariant is `Frame.Threaded`: a capture is loaded from the slot that the next frame gives its name.
-/

namespace ClosureLisp

namespace Frame

/-- A frame binds a name, as a parameter or as the own name of its lambda. -/
def Binds (frame : Frame) (name : Name) : Prop :=
  name ∈ frame.parameters ∨ frame.self = some name

/-- The nearest of some frames that binds a name, by its depth, and the slot of the name there: the
place among the parameters, or their number for the lambda's own name. -/
structure BoundAt (name : Name) (frames : List Frame) (depth place : Nat) : Prop where
  binder : ∃ frame, frames[depth]? = some frame ∧
    (frame.parameters[place]? = some name ∨
      name ∉ frame.parameters ∧ frame.self = some name ∧ place = frame.arity)
  nearest : ∀ index frame, index < depth → frames[index]? = some frame → ¬ frame.Binds name

/-- Following captures outwards leads from a slot of the innermost frame to a slot of the frame at
a depth: a capture stands for the slot of the enclosing frame that it is loaded from. -/
inductive Leads : List Frame → (slot depth place : Nat) → Prop where
  | here {frame : Frame} {outer : List Frame} {slot : Nat} : Leads (frame :: outer) slot 0 slot
  | outward {frame : Frame} {outer : List Frame} {capture : Capture} {depth place : Nat}
      (listed : capture ∈ frame.captures) (onward : Leads outer capture.parentSlot depth place) :
      Leads (frame :: outer) capture.slot (depth + 1) place

/-- Frames before and after a name that is bound at a depth has been resolved: each frame inside
the binder has at most one more capture, at its end, and all else is as it was. -/
structure Adds (name : Name) (depth : Nat) (frames after : List Frame) : Prop where
  length : after.length = frames.length
  captures : ∀ index frame later, frames[index]? = some frame → after[index]? = some later →
    later = frame ∨ index < depth ∧ ∃ parentSlot, later =
      { frame with captures := frame.captures ++ [⟨name, parentSlot, frame.nextSlot⟩] }
  slots : ∀ (index : Nat) (frame later : Frame), frames[index]? = some frame →
    after[index]? = some later →
    ∀ other slot, frame.slot? other = some slot → later.slot? other = some slot

/-- How a name is resolved by frames. -/
structure Resolves (name : Name) (frames : List Frame) : Prop where
  /-- The name is found exactly if a frame binds it. -/
  found_iff : (∃ found, resolve? name frames = some found) ↔ ∃ frame ∈ frames, frame.Binds name
  /-- The slot found leads to the nearest binder. Only frames inside it have changed, by one more
  capture, and resolving the name again changes nothing and finds the same slot. -/
  exact : ∀ slot after, resolve? name frames = some (slot, after) →
    ∃ depth place, BoundAt name frames depth place ∧ Leads after slot depth place ∧
      Adds name depth frames after ∧ resolve? name after = some (slot, after)

/-- How frames are laid out. -/
structure Laid (frames : List Frame) : Prop where
  /-- A parameter has one place. -/
  parameters : ∀ frame ∈ frames, frame.parameters.Nodup
  /-- The captures follow the parameters and the function itself. -/
  slots : ∀ frame ∈ frames, ∀ index capture, frame.captures[index]? = some capture →
    capture.slot = frame.arity + 1 + index
  /-- A capture is loaded from a slot that the enclosing frame has. -/
  parents : ∀ (depth : Nat) (frame enclosing : Frame), frames[depth]? = some frame →
    frames[depth + 1]? = some enclosing →
    ∀ capture ∈ frame.captures, capture.parentSlot < enclosing.nextSlot
  /-- The outermost frame captures nothing. -/
  outermost : ∀ frame ∈ frames.getLast?, frame.captures = []

/-! ## Frames that come up -/

/-- The stacks of frames that lambdas entered and left and names resolved on the way give rise
to. -/
inductive Reachable : List Frame → Prop where
  | start : Reachable []
  | enter {frames : List Frame} {frame : Frame} {self : Option Name} {parameters : List Name}
      (reachable : Reachable frames) (made : new? self parameters = some frame) :
      Reachable (frame :: frames)
  | resolve {frames after : List Frame} {name : Name} {slot : Nat} (reachable : Reachable frames)
      (resolved : resolve? name frames = some (slot, after)) : Reachable after
  | leave {frame : Frame} {frames : List Frame} (reachable : Reachable (frame :: frames)) :
      Reachable frames

variable {frame : Frame} {frames outer after : List Frame} {name : Name} {slot depth place : Nat}

theorem new?_eq_some {self : Option Name} {parameters : List Name}
    (made : new? self parameters = some frame) :
    parameters.Nodup ∧ frame = ⟨parameters, self, []⟩ := by
  rw [new?] at made
  split at made
  · next distinct =>
      cases made
      exact ⟨distinct, rfl⟩
  · cases made

theorem Reachable.threaded (reachable : Reachable frames) : Threaded frames := by
  induction reachable with
  | start => exact True.intro
  | enter _ made ih =>
      obtain ⟨-, rfl⟩ := new?_eq_some made
      exact ih.cons_fresh _ _
  | resolve _ resolved ih => exact (resolve?_spec ih resolved).1
  | leave _ ih => exact ih.2.2

theorem map_parameters_of_extends (grown : List.Forall₂ Extends frames after) :
    after.map parameters = frames.map parameters := by
  induction grown with
  | nil => rfl
  | cons head _ ih => rw [List.map_cons, List.map_cons, head.parameters, ih]

theorem Reachable.nodup (reachable : Reachable frames) :
    ∀ names ∈ frames.map parameters, names.Nodup := by
  induction reachable with
  | start => exact fun _ listed => absurd listed List.not_mem_nil
  | enter _ made ih =>
      obtain ⟨distinct, rfl⟩ := new?_eq_some made
      exact List.forall_mem_cons.mpr ⟨distinct, ih⟩
  | resolve reachable resolved ih =>
      obtain ⟨-, grown, -⟩ := resolve?_spec reachable.threaded resolved
      rw [map_parameters_of_extends grown]
      exact ih
  | leave _ ih => exact (List.forall_mem_cons.mp ih).2

/-! ## Where a slot leads -/

/-- A name that a frame holds is bound there or captured, and then it is bound further out. -/
theorem slot?_eq_some (found : frame.slot? name = some slot) :
    (frame.parameters[slot]? = some name ∨
      name ∉ frame.parameters ∧ frame.self = some name ∧ slot = frame.arity) ∨
    ¬ frame.Binds name ∧ ∃ capture ∈ frame.captures, capture.name = name ∧ capture.slot = slot := by
  unfold slot? at found
  split at found
  · next index listed =>
      cases found
      obtain ⟨inside, same, -⟩ := List.idxOf?_eq_some_iff.mp listed
      exact .inl (.inl (by rw [List.getElem?_eq_getElem inside, same]))
  · next unlisted =>
      have absent : name ∉ frame.parameters := List.idxOf?_eq_none_iff.mp unlisted
      split at found
      · next own =>
          cases found
          exact .inl (.inr ⟨absent, own, rfl⟩)
      · next other =>
          obtain ⟨capture, known, rfl⟩ := Option.map_eq_some_iff.mp found
          refine .inr ⟨fun binds => binds.elim absent other, capture,
            List.mem_of_find?_eq_some known, ?_, rfl⟩
          simpa using List.find?_some known

theorem not_binds_of_slot?_eq_none (missing : frame.slot? name = none) : ¬ frame.Binds name := by
  unfold slot? at missing
  split at missing
  · cases missing
  · next unlisted =>
      split at missing
      · cases missing
      · next other =>
          exact fun binds => binds.elim (List.idxOf?_eq_none_iff.mp unlisted) other

theorem BoundAt.zero (binder : frame.parameters[place]? = some name ∨
    name ∉ frame.parameters ∧ frame.self = some name ∧ place = frame.arity) :
    BoundAt name (frame :: outer) 0 place :=
  ⟨⟨frame, rfl, binder⟩, fun _ _ before => absurd before (Nat.not_lt_zero _)⟩

theorem BoundAt.succ (other : ¬ frame.Binds name) (bound : BoundAt name outer depth place) :
    BoundAt name (frame :: outer) (depth + 1) place := by
  refine ⟨bound.binder, fun index nearer before found => ?_⟩
  cases index with
  | zero =>
      cases found
      exact other
  | succ index => exact bound.nearest index nearer (Nat.lt_of_succ_lt_succ before) found

theorem BoundAt.exists_binds (bound : BoundAt name frames depth place) :
    ∃ frame, frames[depth]? = some frame ∧ frame.Binds name := by
  obtain ⟨⟨frame, found, listed | ⟨-, own, -⟩⟩, -⟩ := bound
  · exact ⟨frame, found, .inl (List.mem_of_getElem? listed)⟩
  · exact ⟨frame, found, .inr own⟩

/-- A slot that the innermost frame gives a name leads to the nearest binder of the name. -/
theorem exists_leads (threaded : Threaded frames)
    (found : innermostSlot? frames name = some slot) :
    ∃ depth place, BoundAt name frames depth place ∧ Leads frames slot depth place := by
  induction frames generalizing slot with
  | nil => cases found
  | cons frame outer ih =>
      obtain ⟨-, loaded, outerThreaded⟩ := threaded
      rcases slot?_eq_some found with binder | ⟨other, capture, listed, rfl, rfl⟩
      · exact ⟨0, slot, .zero binder, .here⟩
      · obtain ⟨depth, place, bound, leads⟩ := ih outerThreaded (loaded capture listed)
        exact ⟨depth + 1, place, bound.succ other, .outward listed leads⟩

/-! ## Resolving names -/

namespace Adds

theorem refl (name : Name) (depth : Nat) (frames : List Frame) : Adds name depth frames frames := by
  refine ⟨rfl, fun index frame later found again => .inl ?_,
    fun index frame later found again other slot held => ?_⟩
  · exact Option.some.inj (again.symm.trans found)
  · rw [← Option.some.inj (found.symm.trans again)]
    exact held

/-- A frame that does not hold the name captures it. -/
theorem cons (frame : Frame) (parentSlot : Nat) (adds : Adds name depth outer after) :
    Adds name (depth + 1) (frame :: outer)
      ({ frame with captures := frame.captures ++ [⟨name, parentSlot, frame.nextSlot⟩] } ::
        after) := by
  refine ⟨congrArg (· + 1) adds.length, fun index => ?_, fun index => ?_⟩
  · cases index with
    | zero =>
        rintro _ _ ⟨⟩ ⟨⟩
        exact .inr ⟨Nat.succ_pos _, parentSlot, rfl⟩
    | succ index =>
        intro former later found again
        exact (adds.captures index former later found again).imp_right fun added =>
          ⟨Nat.succ_lt_succ added.1, added.2⟩
  · cases index with
    | zero =>
        rintro _ _ ⟨⟩ ⟨⟩ other slot held
        have grown : Extends frame
            { frame with captures := frame.captures ++ [⟨name, parentSlot, frame.nextSlot⟩] } :=
          ⟨rfl, rfl, List.prefix_append _ _⟩
        exact grown.slot? held
    | succ index => exact adds.slots index

end Adds

/-- The slot that a name resolves to leads to the nearest binder of the name. -/
theorem resolve?_leads (threaded : Threaded frames)
    (resolved : resolve? name frames = some (slot, after)) :
    ∃ depth place, BoundAt name frames depth place ∧ Leads after slot depth place ∧
      Adds name depth frames after := by
  induction frames generalizing slot after with
  | nil => cases resolved
  | cons frame outer ih =>
      have found := resolved
      rw [resolve?] at resolved
      split at resolved
      · next held =>
          cases resolved
          obtain ⟨depth, place, bound, leads⟩ := exists_leads threaded held
          exact ⟨depth, place, bound, leads, .refl _ _ _⟩
      · next missing =>
          split at resolved
          · cases resolved
          · next parentSlot outerAfter outerResolved =>
              rw [capture_of_slot?_eq_none missing] at resolved
              cases resolved
              obtain ⟨depth, place, bound, leads, adds⟩ := ih threaded.2.2 outerResolved
              refine ⟨depth + 1, place, bound.succ (not_binds_of_slot?_eq_none missing), ?_,
                adds.cons frame parentSlot⟩
              exact @Leads.outward _ _ ⟨name, parentSlot, frame.nextSlot⟩ _ _
                (List.mem_append_right _ List.mem_cons_self) leads

theorem resolve?_of_innermostSlot? (found : innermostSlot? frames name = some slot) :
    resolve? name frames = some (slot, frames) := by
  cases frames with
  | nil => cases found
  | cons frame outer =>
      have held : frame.slot? name = some slot := found
      rw [resolve?, held]

theorem resolves (threaded : Threaded frames) (name : Name) : Resolves name frames := by
  constructor
  case found_iff =>
    constructor
    · rintro ⟨⟨slot, after⟩, resolved⟩
      obtain ⟨depth, place, bound, -⟩ := resolve?_leads threaded resolved
      obtain ⟨frame, found, binds⟩ := bound.exists_binds
      exact ⟨frame, List.mem_of_getElem? found, binds⟩
    · rintro ⟨frame, listed, binds⟩
      refine Option.ne_none_iff_exists'.mp fun unresolved => ?_
      exact not_binds_of_slot?_eq_none
        (slot?_eq_none_of_resolve?_eq_none unresolved frame listed) binds
  case exact =>
    intro slot after resolved
    obtain ⟨depth, place, bound, leads, adds⟩ := resolve?_leads threaded resolved
    obtain ⟨-, -, held⟩ := resolve?_spec threaded resolved
    exact ⟨depth, place, bound, leads, adds, resolve?_of_innermostSlot? held⟩

/-! ## The layout -/

theorem slot?_lt_nextSlot (regular : frame.Regular) (found : frame.slot? name = some slot) :
    slot < frame.nextSlot := by
  rw [nextSlot]
  rcases slot?_eq_some found with (listed | ⟨-, -, rfl⟩) | ⟨-, capture, listed, -, rfl⟩
  · have inside := (List.getElem?_eq_some_iff.mp listed).1
    rw [arity]
    omega
  · omega
  · obtain ⟨index, inside, same⟩ := List.mem_iff_getElem.mp listed
    have placed := regular index capture (by rw [List.getElem?_eq_getElem inside, same])
    omega

theorem Threaded.regular (threaded : Threaded frames) : ∀ frame ∈ frames, frame.Regular := by
  induction frames with
  | nil => exact fun _ listed => absurd listed List.not_mem_nil
  | cons frame outer ih => exact List.forall_mem_cons.mpr ⟨threaded.1, ih threaded.2.2⟩

theorem Threaded.parents (threaded : Threaded frames) {enclosing : Frame}
    (found : frames[depth]? = some frame) (outside : frames[depth + 1]? = some enclosing) :
    ∀ capture ∈ frame.captures, capture.parentSlot < enclosing.nextSlot := by
  induction frames generalizing depth with
  | nil => cases found
  | cons first outer ih =>
      cases depth with
      | zero =>
          cases found
          intro capture listed
          have loaded := threaded.2.1 capture listed
          cases outer with
          | nil => cases outside
          | cons second outer =>
              cases outside
              exact slot?_lt_nextSlot threaded.2.2.1 loaded
      | succ depth => exact ih threaded.2.2 found outside

theorem Threaded.outermost (threaded : Threaded frames) :
    ∀ frame ∈ frames.getLast?, frame.captures = [] := by
  induction frames with
  | nil => exact nofun
  | cons first outer ih =>
      cases outer with
      | nil =>
          rintro frame ⟨⟩
          refine List.eq_nil_iff_forall_not_mem.mpr fun capture listed => ?_
          cases threaded.2.1 capture listed
      | cons second outer => exact ih threaded.2.2

theorem Reachable.laid (reachable : Reachable frames) : Laid frames where
  parameters := List.forall_mem_map.mp reachable.nodup
  slots := reachable.threaded.regular
  parents := fun _ _ _ found outside => reachable.threaded.parents found outside
  outermost := reachable.threaded.outermost

end Frame

/-! ## Frames while code is generated -/

namespace Expr

variable {globals : Name → Option Nat} {offset : Nat} {frames after : List Frame}
  {code : List Instr}

/-- While code is generated for a top-level expression, it comes to be generated for an expression
at an offset and with some frames. -/
inductive Underway (globals : Name → Option Nat) : Nat → List Frame → Expr → Prop where
  | top (offset : Nat) (expr : Expr) : Underway globals offset [] expr
  | testOfIfThen {offset : Nat} {frames : List Frame} {span : Span} {test consequent : Expr}
      (underway : Underway globals offset frames (.ifThen span test consequent)) :
      Underway globals offset frames test
  | consequentOfIfThen {offset : Nat} {frames after : List Frame} {span : Span}
      {test consequent : Expr} {code : List Instr}
      (underway : Underway globals offset frames (.ifThen span test consequent))
      (tested : generate globals offset frames test = .ok (code, after)) :
      Underway globals (thenOffset offset code) after consequent
  | testOfIfElse {offset : Nat} {frames : List Frame} {span : Span}
      {test consequent alternative : Expr}
      (underway : Underway globals offset frames (.ifElse span test consequent alternative)) :
      Underway globals offset frames test
  | alternativeOfIfElse {offset : Nat} {frames after : List Frame} {span : Span}
      {test consequent alternative : Expr} {code : List Instr}
      (underway : Underway globals offset frames (.ifElse span test consequent alternative))
      (tested : generate globals offset frames test = .ok (code, after)) :
      Underway globals (offset + Instr.sizeAll code + jumpSize) after alternative
  | consequentOfIfElse {offset : Nat} {frames middle after : List Frame} {span : Span}
      {test consequent alternative : Expr} {code elseCode : List Instr}
      (underway : Underway globals offset frames (.ifElse span test consequent alternative))
      (tested : generate globals offset frames test = .ok (code, middle))
      (otherwise : generate globals (offset + Instr.sizeAll code + jumpSize) middle alternative =
        .ok (elseCode, after)) :
      Underway globals
        (offset + Instr.sizeAll code + jumpSize + Instr.sizeAll elseCode + jumpSize) after
        consequent
  | bodyOfLambda {offset : Nat} {frames : List Frame} {span : Span} {self : Option Name}
      {parameters : List Name} {body : Expr} {frame : Frame}
      (underway : Underway globals offset frames (.lambda span self parameters body))
      (made : Frame.new? self parameters = some frame) :
      Underway globals (offset + jumpSize) (frame :: frames) body
  | argumentOfCall {offset : Nat} {frames after : List Frame} {span : Span}
      {callee argument : Expr} {front back : List Expr} {code : List Instr}
      (underway : Underway globals offset frames (.call span callee (front ++ argument :: back)))
      (supplied : generateAll globals offset frames front = .ok (code, after)) :
      Underway globals (offset + Instr.sizeAll code) after argument
  | calleeOfCall {offset : Nat} {frames after : List Frame} {span : Span} {callee : Expr}
      {arguments : List Expr} {code : List Instr}
      (underway : Underway globals offset frames (.call span callee arguments))
      (supplied : generateAll globals offset frames arguments = .ok (code, after)) :
      Underway globals (offset + Instr.sizeAll code) after callee

/-- Generating code for an expression leads from frames that come up to frames that come up. -/
def KeepsReachable (globals : Name → Option Nat) (expr : Expr) : Prop :=
  ∀ {offset : Nat} {frames after : List Frame} {code : List Instr}, Frame.Reachable frames →
    generate globals offset frames expr = .ok (code, after) → Frame.Reachable after

theorem generateAll_keepsReachable {exprs : List Expr}
    (each : ∀ expr ∈ exprs, KeepsReachable globals expr) (reachable : Frame.Reachable frames)
    (generated : generateAll globals offset frames exprs = .ok (code, after)) :
    Frame.Reachable after := by
  induction exprs generalizing offset frames code with
  | nil =>
      rw [generateAll] at generated
      cases generated
      exact reachable
  | cons expr rest ih =>
      obtain ⟨firstCode, middle, restCode, first, rested, -⟩ := generateAll_cons generated
      obtain ⟨head, tail⟩ := List.forall_mem_cons.mp each
      exact ih tail (head reachable first) rested

theorem keepsReachable (globals : Name → Option Nat) (expr : Expr) :
    KeepsReachable globals expr := by
  induction expr using Expr.induction with
  | int span value | bool span value =>
      intro offset frames after code reachable generated
      rw [generate] at generated
      cases generated
      exact reachable
  | var span name =>
      intro offset frames after code reachable generated
      rcases generate_var generated with ⟨slot, resolved, -⟩ | ⟨-, rfl, -⟩
      · exact .resolve reachable resolved
      · exact reachable
  | ifThen span test consequent testIh thenIh =>
      intro offset frames after code reachable generated
      obtain ⟨testCode, middle, thenCode, tested, chosen, -⟩ := generate_ifThen generated
      exact thenIh (testIh reachable tested) chosen
  | ifElse span test consequent alternative testIh thenIh elseIh =>
      intro offset frames after code reachable generated
      obtain ⟨testCode, first, elseCode, second, thenCode, tested, otherwise, chosen, -⟩ :=
        generate_ifElse generated
      exact thenIh (elseIh (testIh reachable tested) otherwise) chosen
  | define span name value _ =>
      intro offset frames after code reachable generated
      exact absurd generated generate_define
  | lambda span self parameters body bodyIh =>
      intro offset frames after code reachable generated
      obtain ⟨distinct, bodyCode, frame, inner, -⟩ := generate_lambda reachable.threaded generated
      exact .leave (bodyIh (.enter reachable (if_pos distinct)) inner)
  | call span callee arguments calleeIh argumentsIh =>
      intro offset frames after code reachable generated
      obtain ⟨argumentCode, middle, calleeCode, supplied, called, -⟩ := generate_call generated
      exact calleeIh (generateAll_keepsReachable argumentsIh reachable supplied) called

theorem Underway.reachable {expr : Expr} (underway : Underway globals offset frames expr) :
    Frame.Reachable frames := by
  induction underway with
  | top offset expr => exact .start
  | testOfIfThen _ ih | testOfIfElse _ ih => exact ih
  | consequentOfIfThen _ tested ih | alternativeOfIfElse _ tested ih =>
      exact keepsReachable globals _ ih tested
  | consequentOfIfElse _ tested otherwise ih =>
      exact keepsReachable globals _ (keepsReachable globals _ ih tested) otherwise
  | bodyOfLambda _ made ih => exact .enter ih made
  | argumentOfCall _ supplied ih | calleeOfCall _ supplied ih =>
      exact generateAll_keepsReachable (fun expr _ => keepsReachable globals expr) ih supplied

end Expr

namespace Frame

/-- Generating code for expressions only ever comes to frames that come up by entering and leaving
lambdas and resolving names. All of these are laid out as an activation is, and every name is
resolved exactly: it is found if and only if a frame binds it, and then the slot found leads along
the captures to the nearest binder. -/
theorem resolve?_reaches_binder :
    (∀ globals offset frames expr, Expr.Underway globals offset frames expr → Reachable frames) ∧
      ∀ frames, Reachable frames → Laid frames ∧ ∀ name, Resolves name frames :=
  ⟨fun _ _ _ _ underway => underway.reachable,
    fun _ reachable => ⟨reachable.laid, resolves reachable.threaded⟩⟩

/-- The function `f` of `x` inside which stand a lambda of `x` and one of `y`, whose body names
`f`. -/
def selfReference : Expr :=
  .lambda default (some (utf8 "f")) [utf8 "x"]
    (.lambda default none [utf8 "x"] (.lambda default none [utf8 "y"] (.var default (utf8 "f"))))

/-- The frames at the innermost body, before and after `f` is resolved there. -/
def atReference : List Frame :=
  [⟨[utf8 "y"], none, []⟩, ⟨[utf8 "x"], none, []⟩, ⟨[utf8 "x"], some (utf8 "f"), []⟩]

def behindReference : List Frame :=
  [⟨[utf8 "y"], none, [⟨utf8 "f", 2, 2⟩]⟩, ⟨[utf8 "x"], none, [⟨utf8 "f", 1, 2⟩]⟩,
    ⟨[utf8 "x"], some (utf8 "f"), []⟩]

theorem resolve?_reaches_binder_selfReference :
    Expr.Underway (fun _ => none) 15 atReference (.var default (utf8 "f")) ∧
      Laid atReference ∧ resolve? (utf8 "f") atReference = some (2, behindReference) ∧
      ∃ depth place, BoundAt (utf8 "f") atReference depth place ∧
        Leads behindReference 2 depth place ∧
        Adds (utf8 "f") depth atReference behindReference ∧
        resolve? (utf8 "f") behindReference = some (2, behindReference) := by
  obtain ⟨comesUp, exact⟩ := resolve?_reaches_binder
  have underway : Expr.Underway (fun _ => none) 15 atReference
      (.var default (utf8 "f")) :=
    .bodyOfLambda (.bodyOfLambda (.bodyOfLambda (.top 0 selfReference) rfl) rfl) rfl
  have resolved : resolve? (utf8 "f") atReference = some (2, behindReference) := by decide +kernel
  obtain ⟨laid, resolves⟩ := exact atReference (comesUp _ _ _ _ underway)
  exact ⟨underway, laid, resolved, (resolves _).exact _ _ resolved⟩

end Frame

end ClosureLisp
