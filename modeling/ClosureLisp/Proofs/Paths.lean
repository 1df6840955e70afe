import Mathlib.Data.List.Basic
import ClosureLisp.Host.Path

/-!
# Clean paths

A path is cleaned component by component. What is left are its `kept` components, in which double
dots only lead out of the place where a relative path starts (`Settled`), and `build` puts them
together again. Cleaning a clean path changes nothing, and a path below a directory tells the
clean directory and the name that it is made of (`Path.join_inj`).
-/

namespace ClosureLisp

namespace Path

/-- A name that an entry of a directory can have. -/
structure Plain (name : Name) : Prop where
  nonempty : name ≠ []
  noSlash : slash ∉ name
  notCurrent : name ≠ current
  notParent : name ≠ parent

instance (name : Name) : Decidable (Plain name) :=
  decidable_of_iff (name ≠ [] ∧ slash ∉ name ∧ name ≠ current ∧ name ≠ parent)
    ⟨fun ⟨nonempty, noSlash, notCurrent, notParent⟩ =>
      ⟨nonempty, noSlash, notCurrent, notParent⟩,
    fun plain => ⟨plain.nonempty, plain.noSlash, plain.notCurrent, plain.notParent⟩⟩

/-- The components of a path that cleaning leaves. -/
def kept (path : Path) : List Name :=
  ((components path).foldl (cleanStep (isAbsolute path)) []).reverse

/-- The clean path with the given components. -/
def build (rooted : Bool) (names : List Name) : Path :=
  if rooted then slash :: ofComponents names
  else if names.isEmpty then current else ofComponents names

/-- What stands in front of the kept components: an empty component if the path is absolute. -/
def lead (rooted : Bool) : List Name :=
  if rooted then [[]] else []

/-- Components, latest first, of which cleaning removes nothing. -/
inductive Settled (rooted : Bool) : List Name → Prop where
  | nil : Settled rooted []
  | outwards {before : List Name} (free : rooted = false) (all : ∀ name ∈ before, name = parent)
      (settled : Settled rooted before) : Settled rooted (parent :: before)
  | inwards {name : Name} {before : List Name} (plain : Plain name)
      (settled : Settled rooted before) : Settled rooted (name :: before)

/-! ## Components -/

variable {path first second directory other : Path} {name : Name} {names before : List Name}
  {rooted : Bool}

theorem components_eq_splitOn (path : Path) : components path = List.splitOn slash path := by
  rw [components]
  induction path with
  | nil => rfl
  | cons byte rest ih =>
      rw [Bytes.splitOn, ih, List.splitOn_eq_splitOnP, List.splitOn_eq_splitOnP,
        List.splitOnP_cons_eq_if_modifyHead]
      cases parts : List.splitOnP (· == slash) rest with
      | nil => exact absurd parts (List.splitOnP_ne_nil _ _)
      | cons part parts => by_cases separates : byte = slash <;> simp [separates]

theorem ofComponents_eq_intercalate (names : List Name) :
    ofComponents names = [slash].intercalate names := by
  rw [ofComponents]
  induction names with
  | nil => rfl
  | cons name rest ih =>
      cases rest with
      | nil => rw [Bytes.join, List.intercalate_singleton]
      | cons next rest => rw [Bytes.join, List.intercalate_cons_cons, ih]

theorem components_single (free : slash ∉ name) : components name = [name] := by
  rw [components_eq_splitOn, List.splitOn_eq_singleton free]

theorem components_append (first second : Path) :
    components (first ++ slash :: second) = components first ++ components second := by
  simp only [components_eq_splitOn, List.splitOn_append_cons_self]

theorem components_ofComponents (free : ∀ name ∈ names, slash ∉ name) (nonempty : names ≠ []) :
    components (ofComponents names) = names := by
  rw [components_eq_splitOn, ofComponents_eq_intercalate, List.splitOn_intercalate _ free nonempty]

/-- Components are made of bytes of the path, without the slashes. -/
theorem mem_components (path : Path) : ∀ name ∈ components path, slash ∉ name ∧ name ⊆ path := by
  induction path with
  | nil => exact List.forall_mem_singleton.mpr ⟨List.not_mem_nil, List.Subset.refl _⟩
  | cons byte rest ih =>
      rw [components, Bytes.splitOn]
      rw [components] at ih
      split
      · exact List.forall_mem_singleton.mpr ⟨List.not_mem_nil, List.nil_subset _⟩
      · next part parts split =>
          have behind : ∀ name ∈ part :: parts, slash ∉ name ∧ name ⊆ byte :: rest := by
            intro name listed
            obtain ⟨free, inside⟩ := ih name (split ▸ listed)
            exact ⟨free, List.subset_cons_of_subset _ inside⟩
          obtain ⟨⟨free, -⟩, others⟩ := List.forall_mem_cons.mp behind
          obtain ⟨-, inside⟩ := ih part (split ▸ List.mem_cons_self)
          split
          · exact List.forall_mem_cons.mpr ⟨⟨List.not_mem_nil, List.nil_subset _⟩, behind⟩
          · next differs =>
              refine List.forall_mem_cons.mpr ⟨⟨fun listed => ?_, List.cons_subset_cons _ inside⟩,
                others⟩
              rcases List.mem_cons.mp listed with same | within
              · exact differs same.symm
              · exact free within

/-- What starts with a component that is not empty starts with no slash. -/
theorem isAbsolute_append (proper : name ≠ [] ∧ slash ∉ name) (rest : Path) :
    isAbsolute (name ++ rest) = false := by
  obtain ⟨nonempty, free⟩ := proper
  obtain ⟨byte, bytes, rfl⟩ := List.exists_cons_of_ne_nil nonempty
  have other : byte ≠ slash := fun same => free (by simp [same])
  simpa [isAbsolute] using other

theorem ofComponents_cons (name : Name) (names : List Name) :
    ∃ rest, ofComponents (name :: names) = name ++ rest := by
  cases names with
  | nil => exact ⟨[], (List.append_nil _).symm⟩
  | cons next rest => exact ⟨_, List.append_assoc _ _ _⟩

/-! ## Cleaning -/

theorem cleanStep_plain (plain : Plain name) (before : List Name) :
    cleanStep rooted before name = name :: before := by
  simp [cleanStep, plain.nonempty, plain.notCurrent, plain.notParent]

theorem cleanStep_parent_nil :
    cleanStep rooted [] parent = if rooted then [] else [parent] :=
  (if_neg (by decide)).trans (if_pos rfl)

theorem cleanStep_parent_cons (last : Name) (before : List Name) :
    cleanStep rooted (last :: before) parent =
      if last = parent then parent :: last :: before else before :=
  (if_neg (by decide)).trans (if_pos rfl)

namespace Settled

theorem proper (settled : Settled rooted names) : ∀ name ∈ names, name ≠ [] ∧ slash ∉ name := by
  induction settled with
  | nil => exact fun _ listed => absurd listed List.not_mem_nil
  | outwards _ _ _ ih => exact List.forall_mem_cons.mpr ⟨by decide, ih⟩
  | inwards plain _ ih => exact List.forall_mem_cons.mpr ⟨⟨plain.nonempty, plain.noSlash⟩, ih⟩

theorem tail (settled : Settled rooted (name :: before)) : Settled rooted before := by
  cases settled with
  | outwards _ _ settled => exact settled
  | inwards _ settled => exact settled

theorem step (settled : Settled rooted before) (free : slash ∉ name) :
    Settled rooted (cleanStep rooted before name) := by
  unfold cleanStep
  split
  · exact settled
  · next proper =>
      split
      · split
        · split
          · exact .nil
          · next relative =>
              exact .outwards (by simpa using relative) (fun _ listed => absurd listed
                List.not_mem_nil) .nil
        · next last rest =>
            split
            · next outside =>
                subst outside
                cases settled with
                | outwards relative all settled =>
                    exact .outwards relative (List.forall_mem_cons.mpr ⟨rfl, all⟩)
                      (.outwards relative all settled)
                | inwards plain _ => exact absurd rfl plain.notParent
            · exact settled.tail
      · next inside =>
          simp only [Bool.or_eq_true, List.isEmpty_iff, decide_eq_true_eq, not_or] at proper
          exact .inwards ⟨proper.1, free, proper.2, inside⟩ settled

theorem foldl (settled : Settled rooted before) (free : ∀ name ∈ names, slash ∉ name) :
    Settled rooted (names.foldl (cleanStep rooted) before) := by
  induction names generalizing before with
  | nil => exact settled
  | cons name rest ih =>
      obtain ⟨first, others⟩ := List.forall_mem_cons.mp free
      exact ih (settled.step first) others

/-- Cleaning removes nothing from them. -/
theorem refold (settled : Settled rooted before) :
    before.reverse.foldl (cleanStep rooted) [] = before := by
  induction settled with
  | nil => rfl
  | @outwards before relative all _ ih =>
      rw [List.reverse_cons, List.foldl_append, ih, List.foldl_cons, List.foldl_nil]
      cases before with
      | nil => rw [cleanStep_parent_nil, relative, if_neg Bool.false_ne_true]
      | cons last rest => rw [cleanStep_parent_cons, if_pos (all last List.mem_cons_self)]
  | inwards plain _ ih =>
      rw [List.reverse_cons, List.foldl_append, ih, List.foldl_cons, List.foldl_nil,
        cleanStep_plain plain]

end Settled

theorem settled_kept (path : Path) : Settled (isAbsolute path) (kept path).reverse := by
  rw [kept, List.reverse_reverse]
  exact Settled.nil.foldl fun name listed => (mem_components path name listed).1

theorem clean_eq_build (path : Path) : clean path = build (isAbsolute path) (kept path) := by
  simp [clean, build, kept]

/-! ## Clean paths -/

theorem isAbsolute_build (settled : Settled rooted names.reverse) :
    isAbsolute (build rooted names) = rooted := by
  cases rooted with
  | true => rfl
  | false =>
      cases names with
      | nil => rfl
      | cons name rest =>
          obtain ⟨more, parted⟩ := ofComponents_cons name rest
          change isAbsolute (ofComponents (name :: rest)) = false
          rw [parted]
          exact isAbsolute_append (settled.proper name (by simp)) more

theorem components_build (settled : Settled rooted names.reverse) (nonempty : names ≠ []) :
    components (build rooted names) = lead rooted ++ names := by
  have split := components_ofComponents
    (fun name listed => (settled.proper name (List.mem_reverse.mpr listed)).2) nonempty
  cases rooted with
  | false =>
      have relative : build false names = ofComponents names := by simp [build, nonempty]
      rw [relative, split]
      rfl
  | true =>
      have absolute : build true names = [] ++ slash :: ofComponents names := rfl
      rw [absolute, components_append, split]
      rfl

/-- A path made of all components is the clean path, also for the root and the current directory. -/
theorem build_eq_ofComponents (settled : Settled rooted names.reverse) :
    (if lead rooted ++ names = [[]] then [slash]
      else if (lead rooted ++ names).isEmpty then current
      else ofComponents (lead rooted ++ names)) = build rooted names := by
  cases rooted with
  | false =>
      cases names with
      | nil => rfl
      | cons name rest =>
          have nonempty : name ≠ [] := (settled.proper name (by simp)).1
          simp [build, lead, nonempty]
  | true =>
      cases names with
      | nil => rfl
      | cons name rest => rfl

theorem kept_build (settled : Settled rooted names.reverse) :
    kept (build rooted names) = names := by
  rw [kept, isAbsolute_build settled]
  by_cases nonempty : names = []
  · subst nonempty
    cases rooted <;> rfl
  · have whole : names.foldl (cleanStep rooted) [] = names.reverse := by simpa using settled.refold
    rw [components_build settled nonempty, List.foldl_append]
    cases rooted with
    | false =>
        change (names.foldl (cleanStep false) []).reverse = names
        rw [whole, List.reverse_reverse]
    | true =>
        change (names.foldl (cleanStep true) []).reverse = names
        rw [whole, List.reverse_reverse]

theorem build_inj {others : List Name} {rooted' : Bool} (settled : Settled rooted names.reverse)
    (settled' : Settled rooted' others.reverse) (same : build rooted names = build rooted' others) :
    rooted = rooted' ∧ names = others := by
  constructor
  · rw [← isAbsolute_build settled, same, isAbsolute_build settled']
  · rw [← kept_build settled, same, kept_build settled']

/-- Cleaning a clean path changes nothing. -/
theorem clean_clean (path : Path) : clean (clean path) = clean path := by
  have settled := settled_kept path
  rw [clean_eq_build (clean path), clean_eq_build path, isAbsolute_build settled,
    kept_build settled]

/-- A path below a directory has one component more. -/
theorem join_plain (plain : Plain name) (directory : Path) :
    join directory name = build (isAbsolute directory) (kept directory ++ [name]) := by
  have single := components_single plain.noSlash
  cases directory with
  | nil =>
      have absolute : isAbsolute name = false := by
        simpa using isAbsolute_append ⟨plain.nonempty, plain.noSlash⟩ []
      have nonempty : name.isEmpty = false := by simpa using plain.nonempty
      have cleaned : join [] name = clean name := by simp [join, nonempty]
      rw [cleaned, clean_eq_build, absolute, kept, single, absolute, List.foldl_cons,
        List.foldl_nil, cleanStep_plain plain]
      rfl
  | cons byte rest =>
      have absolute : isAbsolute (byte :: rest ++ slash :: name) = isAbsolute (byte :: rest) := rfl
      have cleaned : join (byte :: rest) name = clean (byte :: rest ++ slash :: name) := rfl
      rw [cleaned, clean_eq_build, absolute, kept, components_append, single, absolute,
        List.foldl_append, List.foldl_cons, List.foldl_nil, cleanStep_plain plain,
        List.reverse_cons]
      rfl

theorem settled_join (plain : Plain name) (directory : Path) :
    Settled (isAbsolute directory) (kept directory ++ [name]).reverse := by
  rw [List.reverse_append]
  exact .inwards plain (settled_kept directory)

/-- A path below a directory is clean. -/
theorem clean_join (plain : Plain name) (directory : Path) :
    clean (join directory name) = join directory name := by
  have settled := settled_join plain directory
  rw [clean_eq_build, join_plain plain, isAbsolute_build settled, kept_build settled]

/-- A path below a directory tells the clean directory and the name. -/
theorem join_inj {name' : Name} (plain : Plain name) (plain' : Plain name')
    (same : join directory name = join other name') :
    clean directory = clean other ∧ name = name' := by
  rw [join_plain plain, join_plain plain'] at same
  obtain ⟨rooted, names⟩ := build_inj (settled_join plain _) (settled_join plain' _) same
  obtain ⟨directories, names⟩ := List.append_inj' names rfl
  rw [clean_eq_build, clean_eq_build, rooted, directories]
  exact ⟨rfl, List.singleton_inj.mp names⟩

end Path

end ClosureLisp
