import ClosureLisp.Proofs.Emission

/-!
# Batches and marks that are undone

A batch can fail at any depth, with lambdas open, jumps without a target and new names in the
index. Setting the emitter back cuts the code and the names, and takes the names that were cut out
of the index. `Journal` follows an emitter, and a compiler beside it, through any operations. What
is kept is that the index lists the globals, and that the code and the globals at each mark are
fronts of those at the next one; so nothing that a mark needs is ever lost.
-/

namespace ClosureLisp

namespace Emitter

/-- What holds of an emitter between two batches. -/
structure Sound (emitter : Emitter) : Prop where
  lists : emitter.index.Lists emitter.globals
  predefined : predefinedNames <+: emitter.globals
  closed : emitter.frames = []

/-- Two emitters hold the same code, the same globals and the same index. -/
structure Same (left right : Emitter) : Prop where
  code : left.buffer.code = right.buffer.code
  globals : left.globals = right.globals
  index : left.index = right.index

variable {emitter before : Emitter}

theorem Same.extends (same : emitter.Same before) :
    before.compiler.Extends emitter.compiler := by
  constructor
  · change before.buffer.code.toList <+: emitter.buffer.code.toList
    rw [same.code]
  · change before.globals <+: emitter.globals
    rw [same.globals]

theorem lists_addGlobals (names : List Name) (lists : emitter.index.Lists emitter.globals)
    (distinct : (emitter.globals ++ names).Nodup) :
    (names.foldl addGlobal emitter).index.Lists (names.foldl addGlobal emitter).globals ∧
      (names.foldl addGlobal emitter).compiler = ⟨emitter.buffer, emitter.globals ++ names⟩ ∧
      (names.foldl addGlobal emitter).frames = emitter.frames := by
  induction names generalizing emitter with
  | nil =>
      rw [List.append_nil]
      exact ⟨lists, rfl, rfl⟩
  | cons name rest ih =>
      rw [List.append_cons] at distinct ⊢
      have fresh : emitter.index[name]? = none := by
        rw [← lists.idxOf?_eq, List.idxOf?_eq_none_iff]
        exact (List.nodup_append.mp distinct.of_append_left).2.2 _ |> fun apart listed =>
          apart listed _ (List.mem_singleton_self name) rfl
      exact @ih (emitter.addGlobal name) (lists.insert fresh) distinct

/-- A fresh emitter holds what a fresh compiler holds. -/
theorem sound_new : new.Sound ∧ new.compiler = Compiler.new := by
  obtain ⟨lists, same, frames⟩ := @lists_addGlobals ⟨CodeBuffer.empty, [], ∅, []⟩ predefinedNames
    Index.Lists.empty (by decide)
  have globals : new.globals = predefinedNames := congrArg Compiler.globals same
  exact ⟨⟨lists, globals ▸ List.prefix_refl _, frames⟩, same⟩

theorem reset_eq_true {mark : Compiler.Mark} {restored : Compiler}
    (done : emitter.compiler.reset mark = (true, restored)) :
    emitter.reset mark = (true,
      ⟨restored.buffer, restored.globals, emitter.index.forget (emitter.globals.drop mark.globals),
        []⟩) := by
  rw [Compiler.reset, compiler] at done
  rw [reset]
  cases cut : emitter.buffer.truncate? mark.length with
  | none =>
      rw [cut] at done
      cases done
  | some buffer =>
      rw [cut] at done
      dsimp only at done ⊢
      split at done
      · next inside =>
          cases done
          rw [if_pos inside]
      · cases done

/-- An emitter that is set back to a mark holds what it held there. -/
theorem reset_restores (lists : emitter.index.Lists emitter.globals) (sound : before.Sound)
    (extended : before.compiler.Extends emitter.compiler) :
    ∃ later, emitter.reset before.mark = (true, later) ∧ later.Same before ∧ later.Sound := by
  obtain ⟨restored, done, code, globals⟩ := Compiler.reset_of_extends extended
  have reached : emitter.reset before.mark = (true, _) := reset_eq_true done
  have kept := lists_reset lists before.mark
  rw [reached] at kept
  refine ⟨_, reached, ⟨code, globals, ?_⟩, kept, ?_, rfl⟩
  · dsimp only at kept
    rw [globals] at kept
    exact kept.unique sound.lists
  · dsimp only
    rw [globals]
    exact sound.predefined

/-- A batch extends what an emitter holds, and one that fails leaves it as it was. -/
theorem compile_cases (sound : emitter.Sound) (forms : List Expr) :
    (emitter.compile forms).2.Sound ∧
      emitter.compiler.Extends (emitter.compile forms).2.compiler ∧
      ∀ error, (emitter.compile forms).1 = .error error →
        (emitter.compile forms).2.Same emitter := by
  have added := addForms_alike sound.lists sound.closed forms
  have extended := Compiler.addForms_extends emitter.compiler forms
  rw [compile]
  generalize emitter.compiler.addForms forms = result at added extended
  generalize addForms forms emitter = outcome at added
  cases added with
  | @done later lists closed =>
      exact ⟨⟨lists, sound.predefined.trans extended.globals, closed⟩, extended, by rintro _ ⟨⟩⟩
  | @failed error later lists =>
      obtain ⟨restored, done, same, kept⟩ := reset_restores lists sound extended
      dsimp only
      rw [done]
      exact ⟨kept, same.extends, fun _ _ => same⟩

end Emitter

/-! ## Journals -/

/-- An emitter and a compiler after the same operations, with the marks that can still be gone back
to, the latest first, and what the emitter was when each of them was taken. -/
structure Journal where
  emitter : Emitter
  compiler : Compiler
  marks : List (Compiler.Mark × Emitter)

namespace Journal

/-- An operation between two batches: compiling a batch, marking the present point, and going back
to the mark with the given place among those that were taken and not passed over. -/
inductive Operation where
  | compile (forms : List Expr)
  | mark
  | reset (place : Nat)

/-- A journal after one more operation. Going back to a mark passes over the marks that were taken
after it, and the mark itself can be gone back to again. -/
def apply (journal : Journal) : Operation → Journal
  | .compile forms =>
      { journal with
        emitter := (journal.emitter.compile forms).2
        compiler := (journal.compiler.compile forms).2 }
  | .mark =>
      { journal with marks := (journal.compiler.mark, journal.emitter) :: journal.marks }
  | .reset place =>
      match journal.marks.drop place with
      | [] => journal
      | (mark, before) :: older =>
          { emitter := (journal.emitter.reset mark).2
            compiler := (journal.compiler.reset mark).2
            marks := (mark, before) :: older }

/-- A fresh emitter and a fresh compiler after some operations. -/
def after (operations : List Operation) : Journal :=
  operations.foldl apply ⟨Emitter.new, Compiler.new, []⟩

/-- What an emitter holds at each mark is a front of what it holds at the next one. -/
def Layered : Emitter → List (Compiler.Mark × Emitter) → Prop
  | _, [] => True
  | emitter, (mark, before) :: older =>
      mark = before.mark ∧ before.Sound ∧ before.compiler.Extends emitter.compiler ∧
        Layered before older

theorem Layered.extend {emitter later : Emitter} {marks : List (Compiler.Mark × Emitter)}
    (layered : Layered emitter marks) (extended : emitter.compiler.Extends later.compiler) :
    Layered later marks := by
  cases marks with
  | nil => exact True.intro
  | cons latest older =>
      obtain ⟨taken, sound, held, rest⟩ := layered
      exact ⟨taken, sound, held.trans extended, rest⟩

theorem Layered.drop {emitter before : Emitter} {marks older : List (Compiler.Mark × Emitter)}
    {mark : Compiler.Mark} {place : Nat} (layered : Layered emitter marks)
    (found : marks.drop place = (mark, before) :: older) :
    mark = before.mark ∧ before.Sound ∧ before.compiler.Extends emitter.compiler ∧
      Layered before older := by
  induction marks generalizing emitter place with
  | nil =>
      rw [List.drop_nil] at found
      cases found
  | cons latest rest ih =>
      obtain ⟨taken, sound, held, below⟩ := layered
      cases place with
      | zero =>
          cases found
          exact ⟨taken, sound, held, below⟩
      | succ place =>
          obtain ⟨same, kept, extended, further⟩ := ih below found
          exact ⟨same, kept, extended.trans held, further⟩

/-- What every operation keeps. -/
structure Kept (journal : Journal) : Prop where
  sound : journal.emitter.Sound
  same : journal.emitter.compiler = journal.compiler
  layered : Layered journal.emitter journal.marks

theorem Kept.apply {journal : Journal} (kept : journal.Kept) (operation : Operation) :
    (journal.apply operation).Kept := by
  obtain ⟨sound, same, layered⟩ := kept
  cases operation with
  | compile forms =>
      obtain ⟨compiled, extended, -⟩ := Emitter.compile_cases sound forms
      obtain ⟨-, held, -⟩ := Emitter.compile_compiler sound.lists sound.closed forms
      rw [same] at held
      exact ⟨compiled, held, layered.extend extended⟩
  | mark =>
      exact ⟨sound, same, congrArg Compiler.mark same.symm, sound, .refl _, layered⟩
  | reset place =>
      rw [Journal.apply]
      split
      · exact ⟨sound, same, layered⟩
      · next mark before older found =>
          obtain ⟨rfl, beforeSound, extended, below⟩ := layered.drop found
          obtain ⟨restored, done, again, restoredSound⟩ :=
            Emitter.reset_restores sound.lists beforeSound extended
          have held := (Emitter.reset_compiler journal.emitter before.mark).2
          rw [same] at held
          rw [done] at held ⊢
          exact ⟨restoredSound, held, rfl, beforeSound, again.extends, below⟩

theorem kept_after (operations : List Operation) : (after operations).Kept := by
  have start : Kept ⟨Emitter.new, Compiler.new, []⟩ :=
    ⟨Emitter.sound_new.1, Emitter.sound_new.2, True.intro⟩
  rw [after]
  generalize (⟨Emitter.new, Compiler.new, []⟩ : Journal) = journal at start ⊢
  induction operations generalizing journal with
  | nil => exact start
  | cons operation rest ih => exact ih _ (start.apply operation)

/-- Undoing is exact. -/
structure Exact (journal : Journal) : Prop where
  /-- The index maps a name to a slot if and only if the slot has the name. -/
  indexed : ∀ (name : Name) (slot : Nat),
    journal.emitter.index[name]? = some slot ↔ journal.emitter.globals[slot]? = some name
  /-- No name has two slots. -/
  distinct : journal.emitter.globals.Nodup
  /-- The predefined names keep the first slots. -/
  predefined : ∀ (name : Name) (slot : Nat),
    predefinedNames[slot]? = some name → journal.emitter.index[name]? = some slot
  /-- No lambda is open. -/
  closed : journal.emitter.frames = []
  /-- The compiler holds the same code and globals, and every batch has the same outcome with it. -/
  compiler : journal.emitter.compiler = journal.compiler ∧
    ∀ forms, (journal.emitter.compile forms).1 = (journal.compiler.compile forms).1
  /-- A batch that fails leaves code, globals and index as they were. -/
  failing : ∀ forms error later, journal.emitter.compile forms = (.error error, later) →
    later.Same journal.emitter
  /-- Going back to a mark restores the code, the globals and the index that it was taken at. -/
  restoring : ∀ mark before, (mark, before) ∈ journal.marks →
    ∃ later, journal.emitter.reset mark = (true, later) ∧ later.Same before

/-- After any operations undoing is exact. -/
theorem after_exact (operations : List Operation) : (after operations).Exact := by
  obtain ⟨sound, same, layered⟩ := kept_after operations
  constructor
  case indexed => exact sound.lists
  case distinct => exact sound.lists.nodup
  case predefined =>
    intro name slot listed
    obtain ⟨rest, whole⟩ := sound.predefined
    obtain ⟨inside, -⟩ := List.getElem?_eq_some_iff.mp listed
    rw [sound.lists, ← whole, List.getElem?_append_left inside, listed]
  case closed => exact sound.closed
  case compiler =>
    refine ⟨same, fun forms => ?_⟩
    rw [← same]
    exact (Emitter.compile_compiler sound.lists sound.closed forms).1
  case failing =>
    intro forms error later failed
    have unchanged := (Emitter.compile_cases sound forms).2.2 error
    rw [failed] at unchanged
    exact unchanged rfl
  case restoring =>
    intro mark before listed
    obtain ⟨front, older, whole⟩ := List.append_of_mem listed
    have found : (after operations).marks.drop front.length = (mark, before) :: older := by
      rw [whole, List.drop_left]
    obtain ⟨rfl, beforeSound, extended, -⟩ := layered.drop found
    obtain ⟨later, done, again, -⟩ := Emitter.reset_restores sound.lists beforeSound extended
    exact ⟨later, done, again⟩

/-- An unknown name inside a lambda stops an emitter with the lambda open and a jump without a
target. -/
example : (match Emitter.emit (.lambda default none [[120]] (.var default [121])) Emitter.new with
    | .ok _ _ => (0, 0)
    | .error _ later => (later.frames.length, later.buffer.used)) = (1, 5) := by
  decide

end Journal

end ClosureLisp
