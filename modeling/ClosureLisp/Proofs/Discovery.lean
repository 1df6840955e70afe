import Mathlib.Data.List.Nodup
import ClosureLisp.Host.FileTree
import ClosureLisp.Project.Load
import ClosureLisp.Proofs.Concatenation
import ClosureLisp.Proofs.Paths

/-!
# Finding source files

The path of a source directory is taken as a pattern, and the sources in a directory are what a
further component of the pattern fits below whatever the path fits (`FileTree.find?_run_join`).
`Project.Discovers` says what should be found: the files that lie directly in a directory of the
project, each once and in ascending order. `Project.sourceFiles?_discovers_iff` says when this is
so. Two paths of one directory repeat its files, and a directory that is named like a pattern is
lost to others that fit it (`Project.not_discovers_crowdedTree`).
-/

namespace ClosureLisp

/-! ## Patterns -/

namespace Pattern

/-- Literal bytes leave nothing of a name if they are the name. -/
theorem rest?_literals_eq_nil_iff (bytes : Bytes) (name : Name) :
    rest? (bytes.map .literal) name = some [] ↔ name = bytes := by
  induction bytes generalizing name with
  | nil => simp [rest?]
  | cons byte bytes ih =>
      cases name with
      | nil => simp [rest?, partRest?]
      | cons first rest => by_cases same : first = byte <;> simp [rest?, partRest?, same, ih]

theorem rest?_last_eq_iff (parts : List PatternPart) (name rest : Name) :
    ((rest? parts name).filter fun rest => !true || rest.isEmpty) = some rest ↔
      rest = [] ∧ rest? parts name = some [] := by
  rw [Option.filter_eq_some_iff, Bool.not_true, Bool.false_or, List.isEmpty_iff, and_comm]
  exact and_congr_right fun ended => by rw [ended]

/-- The last parts stand behind a star if they leave nothing from some place on. -/
theorem seek?_last_eq_iff (parts : List PatternPart) (name rest : Name) :
    seek? true parts name = some rest ↔
      rest = [] ∧ ∃ place, place <:+ name ∧ rest? parts place = some [] := by
  induction name with
  | nil => simp only [seek?, rest?_last_eq_iff, List.suffix_nil, exists_eq_left]
  | cons byte name ih =>
      rw [seek?, Option.or_eq_some_iff, rest?_last_eq_iff, ih]
      simp only [List.suffix_cons_iff, or_and_right, exists_or, exists_eq_left]
      constructor
      · rintro (⟨ended, stands⟩ | ⟨-, ended, later⟩)
        · exact ⟨ended, .inl stands⟩
        · exact ⟨ended, .inr later⟩
      · rintro ⟨ended, stands | later⟩
        · exact .inl ⟨ended, stands⟩
        · cases tried : (rest? parts (byte :: name)).filter fun rest => !true || rest.isEmpty with
          | none => exact .inr ⟨rfl, ended, later⟩
          | some left =>
              exact .inl ⟨ended, ((rest?_last_eq_iff parts _ left).mp tried).2⟩

/-- Parts behind a star stand at the end of a name, wherever the star ends. -/
theorem fits_star_iff (parts : List PatternPart) (name : Name) :
    fits ⟨[], [parts]⟩ name = true ↔ ∃ place, place <:+ name ∧ rest? parts place = some [] := by
  have sought := seek?_last_eq_iff parts name
  simp only [fits, rest?, fitsStarred, List.isEmpty_nil]
  constructor
  · intro fits
    split at fits
    · exact absurd fits Bool.false_ne_true
    · next rest found => exact ((sought rest).mp found).2
  · intro stands
    rw [(sought []).mpr ⟨rfl, stands⟩]
    rfl

/-- A star in front of literal bytes stands for whatever comes before them. -/
theorem fits_star_literals (bytes : Bytes) (name : Name) :
    fits ⟨[], [bytes.map .literal]⟩ name = true ↔ bytes <:+ name := by
  simp only [fits_star_iff, rest?_literals_eq_nil_iff, exists_eq_right]

/-- A star in front of parts that can stand at once ends there, whatever comes behind them. -/
theorem seek?_of_rest? {parts : List PatternPart} {name rest : Name}
    (stands : rest? parts name = some rest) : seek? false parts name = some rest := by
  cases name <;> simp [seek?, stands]

/-- Question marks that each stand behind a star take one character each, also of a name in which
the bytes of a character could be shared out between them. -/
theorem fits_stars_any_iff (count : Nat) (name : Name) :
    fits ⟨[], List.replicate (count + 1) [.any]⟩ name = true ↔
      count < (Glyph.ofBytes name).length := by
  induction count generalizing name with
  | zero =>
      rw [show List.replicate (0 + 1) [PatternPart.any] = [[.any]] from rfl, fits_star_iff]
      cases name using List.reverseRecOn with
      | nil => simp [rest?, partRest?, Glyph.ofBytes]
      | append_singleton name byte =>
          have alone : (Glyph.first byte []).2 = [] :=
            List.length_eq_zero_iff.mp (Nat.lt_one_iff.mp (Glyph.first_rest_length byte []))
          have whole := Glyph.toBytes_ofBytes (name ++ [byte])
          refine ⟨fun _ => List.length_pos_iff.mpr fun none => ?_, fun _ =>
            ⟨[byte], List.suffix_append _ _, by simp [rest?, partRest?, alone]⟩⟩
          rw [none] at whole
          exact absurd whole (by simp [Glyph.toBytes])
  | succ count ih =>
      rw [List.replicate_succ]
      cases name with
      | nil => simp [fits, rest?, fitsStarred, seek?, partRest?, Glyph.ofBytes]
      | cons lead rest =>
          have inner := ih (Glyph.first lead rest).2
          have taken : rest? [.any] (lead :: rest) = some (Glyph.first lead rest).2 := rfl
          rw [Glyph.ofBytes, List.length_cons, Nat.succ_lt_succ_iff, ← inner]
          simp only [fits, rest?, fitsStarred, List.replicate_succ, List.isEmpty_cons,
            seek?_of_rest? taken]

example : ((parse? (utf8 "*?*?")).map fun pattern => fits pattern (utf8 "€")) = some false := by
  decide +kernel

/-- Names are all taken as they are, or there is a first one that is a pattern. -/
theorem hasMeta_cases (names : List Name) :
    (∀ name ∈ names, hasMeta name = false) ∨
      ∃ front first rest, names = front ++ first :: rest ∧
        (∀ name ∈ front, hasMeta name = false) ∧ hasMeta first = true := by
  induction names with
  | nil => exact .inl fun _ listed => absurd listed List.not_mem_nil
  | cons name rest ih =>
      cases marked : hasMeta name with
      | true =>
          exact .inr ⟨[], name, rest, rfl, fun _ listed => absurd listed List.not_mem_nil, marked⟩
      | false =>
          rcases ih with ordinary | ⟨front, first, back, rfl, ordinary, special⟩
          · exact .inl (List.forall_mem_cons.mpr ⟨marked, ordinary⟩)
          · exact .inr ⟨name :: front, first, back, rfl,
              List.forall_mem_cons.mpr ⟨marked, ordinary⟩, special⟩

/-- The pattern for the names of source files. -/
def source : Pattern :=
  ⟨[], [Project.sourceExtension.map .literal]⟩

theorem parse?_source : parse? (utf8 "*" ++ Project.sourceExtension) = some source := by
  decide +kernel

end Pattern

namespace FileTree

variable (tree : FileTree) (here : List Name)

/-- The paths directly below a directory whose names fit a pattern, in order. -/
def fitting (pattern : Pattern) (directory : Path) : List Path :=
  (((tree.names here directory).mergeSort Bytes.lexLE).filter pattern.fits).map
    (Path.join directory)

/-- The paths below directories whose further components fit patterns. -/
def expand : List Pattern → List Path → List Path
  | [], paths => paths
  | pattern :: patterns, paths => expand patterns (paths.flatMap (tree.fitting here pattern))

/-- Nothing but a directory has names below it. -/
theorem names_eq_nil {path : Path} (other : tree.kind? here path ≠ some .directory) :
    tree.names here path = [] := by
  rw [names]
  split
  · next place found => exact absurd (by rw [kind?, found]) other
  · rfl

theorem fitting_run (pattern : Pattern) (directory : Path) :
    ((files here).fitting pattern directory).run tree =
      (tree.fitting here pattern directory, tree) := by
  have kind : ((files here).kind? directory).run tree = (tree.kind? here directory, tree) := rfl
  rw [Files.fitting, Command.run_bind_of kind]
  split
  · rfl
  · next other =>
      rw [fitting, names_eq_nil tree here other, List.mergeSort_nil]
      rfl

theorem expand_run (patterns : List Pattern) (paths : List Path) :
    ((files here).expand patterns paths).run tree = (tree.expand here patterns paths, tree) := by
  induction patterns generalizing paths with
  | nil => rfl
  | cons pattern patterns ih =>
      have mapped : (paths.mapM ((files here).fitting pattern)).run tree =
          (paths.map (tree.fitting here pattern), tree) := by
        induction paths with
        | nil => rfl
        | cons path rest inner =>
            rw [List.mapM_cons, Command.run_bind_of (tree.fitting_run here pattern path),
              Command.run_bind_of inner]
            rfl
      rw [Files.expand, Command.run_bind_of mapped, expand, ih, List.flatMap]

theorem expand_append (patterns : List Pattern) (last : Pattern) (paths : List Path) :
    tree.expand here (patterns ++ [last]) paths =
      (tree.expand here patterns paths).flatMap (tree.fitting here last) := by
  induction patterns generalizing paths with
  | nil => rfl
  | cons pattern patterns ih => exact ih _

end FileTree

/-! ## Paths as patterns -/

namespace FileTree

variable (tree : FileTree) (here : List Name) {path : Path} {front rest : List Name} {first : Name}

/-- A path without patterns is found if something stands there. -/
theorem find?_run_of_ordinary
    (plain : ∀ name ∈ Path.components path, Pattern.hasMeta name = false) :
    ((files here).find? path).run tree =
      (some (if (tree.kind? here path).isSome then [path] else []), tree) := by
  have taken : (Path.components path).takeWhile (fun name => !Pattern.hasMeta name) =
      Path.components path :=
    List.takeWhile_eq_self_iff.mpr fun name listed => by simp [plain name listed]
  have kind : ((files here).kind? path).run tree = (tree.kind? here path, tree) := rfl
  unfold Files.find?
  simp only [taken, List.drop_length, List.mapM_nil]
  change (StateT.run ((files here).kind? path >>= _) tree) = _
  rw [Command.run_bind_of kind]
  cases tree.kind? here path <;> rfl

/-- Behind the components in front of the first pattern, the others are all taken as patterns. -/
theorem find?_run_of_pattern (parted : Path.components path = front ++ first :: rest)
    (plain : ∀ name ∈ front, Pattern.hasMeta name = false)
    (special : Pattern.hasMeta first = true) :
    ((files here).find? path).run tree =
      (((first :: rest).mapM Pattern.parse?).map fun patterns => tree.expand here patterns
        [if front = [[]] then [Path.slash] else if front.isEmpty then Path.current
          else Path.ofComponents front], tree) := by
  have taken : (front ++ first :: rest).takeWhile (fun name => !Pattern.hasMeta name) = front := by
    rw [List.takeWhile_append_of_pos fun name listed => by simp [plain name listed],
      List.takeWhile_cons_of_neg (by simp [special]), List.append_nil]
  unfold Files.find?
  simp only [parted, taken, List.drop_left]
  cases parsed : (first :: rest).mapM Pattern.parse? with
  | none => rfl
  | some patterns =>
      cases patterns with
      | nil =>
          rw [List.mapM_cons] at parsed
          cases one : Pattern.parse? first <;> cases others : rest.mapM Pattern.parse? <;>
            simp [one, others] at parsed
      | cons pattern patterns =>
          have ran := tree.expand_run here (pattern :: patterns)
            [if front = [[]] then [Path.slash] else if front.isEmpty then Path.current
              else Path.ofComponents front]
          exact congrArg (fun reply => (some reply.1, reply.2)) ran

/-- The paths that fit a path as a pattern. -/
def matching? (path : Path) : Option (List Path) :=
  (((files here).find? path).run tree).1

theorem hasMeta_lead (rooted : Bool) :
    ∀ name ∈ Path.lead rooted, Pattern.hasMeta name = false := by
  cases rooted <;> decide

section Below

variable {rooted : Bool} {names : List Name} {name : Name} {pattern : Pattern}
  (settled : Path.Settled rooted names.reverse)
  (below : Path.components (Path.build rooted (names ++ [name])) =
    Path.lead rooted ++ (names ++ [name]))
  (parsed : Pattern.parse? name = some pattern)

include settled below parsed

/-- A pattern below a directory whose path is no pattern. -/
theorem find?_run_below_ordinary (special : Pattern.hasMeta name = true)
    (ordinary : ∀ other ∈ names, Pattern.hasMeta other = false) :
    ((files here).find? (Path.build rooted (names ++ [name]))).run tree =
      ((tree.matching? here (Path.build rooted names)).map fun found =>
        found.flatMap (tree.fitting here pattern), tree) := by
  have frontPlain := List.forall_mem_append.mpr ⟨hasMeta_lead rooted, ordinary⟩
  have whole : ∀ other ∈ Path.components (Path.build rooted names),
      Pattern.hasMeta other = false := by
    by_cases none : names = []
    · subst none
      cases rooted <;> decide
    · rwa [Path.components_build settled none]
  rw [← List.append_assoc] at below
  rw [matching?, tree.find?_run_of_pattern here below frontPlain special,
    Path.build_eq_ofComponents settled, tree.find?_run_of_ordinary here whole]
  simp only [List.mapM_cons, parsed, List.mapM_nil]
  change (some ([Path.build rooted names].flatMap (tree.fitting here pattern)), tree) = _
  cases kind : tree.kind? here (Path.build rooted names) with
  | some found => rfl
  | none =>
      have nothing : tree.fitting here pattern (Path.build rooted names) = [] := by
        rw [fitting, tree.names_eq_nil here (by simp [kind]), List.mergeSort_nil]
        rfl
      simp [nothing]

/-- A pattern below a directory whose path is a pattern from one of its components on. -/
theorem find?_run_below_pattern (parted : names = front ++ first :: rest)
    (ordinary : ∀ other ∈ front, Pattern.hasMeta other = false)
    (marked : Pattern.hasMeta first = true) :
    ((files here).find? (Path.build rooted (names ++ [name]))).run tree =
      ((tree.matching? here (Path.build rooted names)).map fun found =>
        found.flatMap (tree.fitting here pattern), tree) := by
  subst parted
  have frontPlain := List.forall_mem_append.mpr ⟨hasMeta_lead rooted, ordinary⟩
  have whole := Path.components_build settled (by simp)
  rw [← List.append_assoc] at whole
  rw [List.append_assoc, List.cons_append, ← List.append_assoc] at below
  rw [matching?, List.append_assoc, List.cons_append,
    tree.find?_run_of_pattern here below frontPlain marked,
    tree.find?_run_of_pattern here whole frontPlain marked, ← List.cons_append, List.mapM_append]
  cases (first :: rest).mapM Pattern.parse? with
  | none => rfl
  | some patterns =>
      simp only [List.mapM_cons, parsed, List.mapM_nil]
      exact congrArg (fun found => (some found, tree)) (tree.expand_append here _ _ _)

end Below

/-- What fits a pattern below a directory lies below what fits the directory. -/
theorem find?_run_join {name : Name} {pattern : Pattern} (plain : Path.Plain name)
    (special : Pattern.hasMeta name = true) (parsed : Pattern.parse? name = some pattern)
    (directory : Path) :
    ((files here).find? (Path.join directory name)).run tree =
      ((tree.matching? here (Path.clean directory)).map fun found =>
        found.flatMap (tree.fitting here pattern), tree) := by
  have settled := Path.settled_kept directory
  have below := Path.components_build (Path.settled_join plain directory) (by simp)
  rw [Path.clean_eq_build, Path.join_plain plain]
  rcases Pattern.hasMeta_cases (Path.kept directory) with ordinary |
    ⟨front, first, rest, parted, ordinary, marked⟩
  · exact tree.find?_run_below_ordinary here settled below parsed special ordinary
  · exact tree.find?_run_below_pattern here settled below parsed parted ordinary marked

end FileTree

/-! ## The files found -/

namespace Project

/-- The directories that the paths of directories find as patterns, in their order. -/
def matched? (tree : FileTree) (here : List Name) (directories : List Path) : Option (List Path) :=
  (directories.mapM fun directory => tree.matching? here (Path.clean directory)).map List.flatten

theorem matched?_cons (tree : FileTree) (here : List Name) (given : Path) (rest : List Path) :
    matched? tree here (given :: rest) =
      (tree.matching? here (Path.clean given)).bind fun found =>
        (matched? tree here rest).map fun others => found ++ others := by
  simp only [matched?, List.mapM_cons]
  cases tree.matching? here (Path.clean given) with
  | none => rfl
  | some found =>
      cases rest.mapM fun directory => tree.matching? here (Path.clean directory) <;> rfl

theorem plain_sourcePattern : Path.Plain (utf8 "*" ++ sourceExtension) := by
  decide

theorem filesIn?_run (tree : FileTree) (here : List Name) (directories : List Path) :
    (filesIn? (FileTree.files here) directories).run tree =
      ((matched? tree here directories).map fun found =>
        found.flatMap (tree.fitting here Pattern.source), tree) := by
  induction directories with
  | nil => rfl
  | cons directory rest ih =>
      have first := tree.find?_run_join here plain_sourcePattern (by decide) Pattern.parse?_source
        directory
      rw [filesIn?, Command.run_bind_of first, matched?_cons]
      cases tree.matching? here (Path.clean directory) with
      | none => rfl
      | some found =>
          simp only [Option.map_some, Option.bind_some]
          rw [Command.run_bind_of ih]
          cases matched? tree here rest with
          | none => rfl
          | some others =>
              have whole := @List.flatMap_append _ _ found others
                (tree.fitting here Pattern.source)
              exact congrArg (fun found => (some found, tree)) whole.symm

theorem sourceFiles?_run (tree : FileTree) (here : List Name) {project : Project}
    (unlisted : project.sources = []) :
    (sourceFiles? (FileTree.files here) project).run tree =
      ((matched? tree here project.sourceDirPaths).map fun found =>
        (found.flatMap (tree.fitting here Pattern.source)).mergeSort Bytes.lexLE, tree) := by
  rw [sourceFiles?, if_pos (by simp [unlisted]),
    Command.run_bind_of (filesIn?_run tree here project.sourceDirPaths)]
  cases matched? tree here project.sourceDirPaths <;> rfl

end Project

/-! ## Order -/

namespace Bytes

theorem lexLE_iff (first second : Bytes) : lexLE first second = true ↔ first ≤ second := by
  induction first generalizing second with
  | nil => simp [lexLE]
  | cons left lefts ih =>
      cases second with
      | nil => simp [lexLE]
      | cons right rights =>
          rw [lexLE, List.cons_le_cons_iff]
          split
          · next lower => simp [lower]
          · next notLower =>
              split
              · next upper =>
                  have differ : left ≠ right := fun same => notLower (same ▸ upper)
                  simp [notLower, differ]
              · next notUpper =>
                  have same : left = right :=
                    UInt8.le_antisymm (UInt8.not_lt.mp notUpper) (UInt8.not_lt.mp notLower)
                  simp [ih, same]

theorem pairwise_mergeSort (texts : List Bytes) : (texts.mergeSort lexLE).Pairwise (· ≤ ·) := by
  refine (List.pairwise_mergeSort (fun first second third lower upper => ?_)
    (fun first second => ?_) texts).imp fun ordered => (lexLE_iff _ _).mp ordered
  · rw [lexLE_iff] at *
    exact List.le_trans lower upper
  · rw [Bool.or_eq_true, lexLE_iff, lexLE_iff]
    exact List.le_total first second

/-- Texts in order are strictly ascending if none is repeated. -/
theorem pairwise_lt_iff {texts : List Bytes} (sorted : texts.Pairwise (· ≤ ·)) :
    texts.Pairwise (· < ·) ↔ texts.Nodup := by
  constructor
  · refine List.Pairwise.imp fun lower => ?_
    rintro rfl
    exact List.lt_irrefl _ lower
  · exact fun distinct => sorted.imp₂ (fun _ _ lower differ => Std.lt_of_le_of_ne lower differ)
      distinct

end Bytes

/-! ## Each file once -/

namespace FileTree

/-- Every entry has a name that an entry can have, and stands at a place of its own. -/
structure Proper (tree : FileTree) : Prop where
  names : ∀ entry ∈ tree.entries, ∀ name ∈ entry.1, Path.Plain name
  distinct : (tree.entries.map Prod.fst).Nodup

instance (tree : FileTree) : Decidable tree.Proper :=
  decidable_of_iff ((∀ entry ∈ tree.entries, ∀ name ∈ entry.1, Path.Plain name) ∧
      (tree.entries.map Prod.fst).Nodup)
    ⟨fun ⟨names, distinct⟩ => ⟨names, distinct⟩, fun proper => ⟨proper.names, proper.distinct⟩⟩

/-- A path leads to an entry directly in a directory, and its name ends like that of a source. -/
def Lies (tree : FileTree) (here : List Name) (directory path : Path) : Prop :=
  ∃ name ∈ tree.names here directory, Project.sourceExtension <:+ name ∧
    path = Path.join directory name

variable {tree : FileTree} {here : List Name} {directory other path : Path} {pattern : Pattern}

theorem mem_fitting : path ∈ tree.fitting here pattern directory ↔
    ∃ name ∈ tree.names here directory, pattern.fits name = true ∧
      path = Path.join directory name := by
  simp only [fitting, List.mem_map, List.mem_filter, List.mem_mergeSort, and_assoc, eq_comm]

theorem mem_fitting_source : path ∈ tree.fitting here Pattern.source directory ↔
    tree.Lies here directory path := by
  simp only [mem_fitting, Pattern.source, Pattern.fits_star_literals, Lies]

namespace Proper

variable (proper : tree.Proper)

include proper

theorem plain (place : List Name) : ∀ name ∈ tree.namesBelow place, Path.Plain name := by
  intro name listed
  obtain ⟨entry, inside, found⟩ := List.mem_filterMap.mp listed
  split at found
  · exact proper.names entry inside name (List.mem_of_getLast? found)
  · cases found

theorem nodup (place : List Name) : (tree.namesBelow place).Nodup := by
  have same : tree.namesBelow place = (tree.entries.map Prod.fst).filterMap fun other =>
      if other.dropLast = place then other.getLast? else none := by
    rw [List.filterMap_map]
    rfl
  rw [same]
  refine proper.distinct.filterMap fun first second name found again => ?_
  simp only [Option.mem_def] at found again
  split at found <;> split at again <;> try contradiction
  next below below' =>
    rw [← List.dropLast_append_getLast? name found, ← List.dropLast_append_getLast? name again,
      below, below']

theorem plain_names (directory : Path) : ∀ name ∈ tree.names here directory, Path.Plain name := by
  rw [FileTree.names]
  split
  · exact proper.plain _
  · exact fun _ listed => absurd listed List.not_mem_nil

theorem nodup_names (directory : Path) : (tree.names here directory).Nodup := by
  rw [FileTree.names]
  split
  · exact proper.nodup _
  · exact .nil

theorem nodup_fitting (pattern : Pattern) (directory : Path) :
    (tree.fitting here pattern directory).Nodup := by
  refine List.Nodup.map_on (fun first listed second listed' same => ?_)
    ((List.nodup_mergeSort.mpr (proper.nodup_names directory)).filter _)
  have plain : ∀ name ∈ ((tree.names here directory).mergeSort Bytes.lexLE).filter pattern.fits,
      Path.Plain name := fun name listed =>
    proper.plain_names directory name (List.mem_mergeSort.mp (List.mem_filter.mp listed).1)
  exact (Path.join_inj (plain first listed) (plain second listed') same).2

/-- What is found below a directory is a clean path. -/
theorem clean_fitting (listed : path ∈ tree.fitting here pattern directory) :
    Path.clean path = path := by
  obtain ⟨name, inside, -, rfl⟩ := mem_fitting.mp listed
  exact Path.clean_join (proper.plain_names directory name inside) directory

theorem clean_expand (patterns : List Pattern) {paths : List Path}
    (clean : ∀ path ∈ paths, Path.clean path = path) :
    ∀ path ∈ tree.expand here patterns paths, Path.clean path = path := by
  induction patterns generalizing paths with
  | nil => exact clean
  | cons pattern patterns ih =>
      refine ih fun path listed => ?_
      obtain ⟨_, -, inside⟩ := List.mem_flatMap.mp listed
      exact proper.clean_fitting inside

/-- A path lies in one clean directory only. -/
theorem lies_inj (lies : tree.Lies here directory path) (lies' : tree.Lies here other path) :
    Path.clean directory = Path.clean other := by
  obtain ⟨name, listed, -, rfl⟩ := lies
  obtain ⟨name', listed', -, same⟩ := lies'
  exact (Path.join_inj (proper.plain_names _ name listed) (proper.plain_names _ name' listed')
    same).1

end Proper

/-- What fits a clean path as a pattern are clean paths. -/
theorem clean_of_matching? (proper : tree.Proper) {found : List Path}
    (cleaned : Path.clean path = path) (matched : tree.matching? here path = some found) :
    ∀ other ∈ found, Path.clean other = other := by
  rw [matching?] at matched
  rcases Pattern.hasMeta_cases (Path.components path) with ordinary |
    ⟨front, first, rest, parted, ordinary, marked⟩
  · rw [tree.find?_run_of_ordinary here ordinary] at matched
    cases matched
    intro other listed
    split at listed
    · rw [List.mem_singleton.mp listed, cleaned]
    · exact absurd listed List.not_mem_nil
  · rw [tree.find?_run_of_pattern here parted ordinary marked] at matched
    obtain ⟨patterns, parsed, rfl⟩ := Option.map_eq_some_iff.mp matched
    rw [List.mapM_cons, Option.bind_eq_bind, Option.bind_eq_some_iff] at parsed
    obtain ⟨pattern, -, parsed⟩ := parsed
    obtain ⟨others, -, made⟩ := Option.bind_eq_some_iff.mp parsed
    cases made
    refine proper.clean_expand others fun other listed => ?_
    obtain ⟨_, -, inside⟩ := List.mem_flatMap.mp listed
    exact proper.clean_fitting inside

end FileTree

namespace Project

variable {tree : FileTree} {here : List Name} {directories matched : List Path} {directory : Path}

/-- The source files found are exactly those that lie directly in a directory of the project, and
they are in ascending order, so that none is repeated. -/
structure Discovers (tree : FileTree) (here : List Name) (project : Project) (found : List Path) :
    Prop where
  ascending : found.Pairwise (· < ·)
  complete : ∀ path, path ∈ found ↔
    ∃ directory ∈ project.sourceDirPaths, tree.Lies here (Path.clean directory) path

theorem clean_matched? (proper : tree.Proper)
    (found : matched? tree here directories = some matched) :
    ∀ directory ∈ matched, Path.clean directory = directory := by
  induction directories generalizing matched with
  | nil =>
      cases found
      exact fun _ listed => absurd listed List.not_mem_nil
  | cons given rest ih =>
      rw [matched?_cons, Option.bind_eq_some_iff] at found
      obtain ⟨first, fits, others⟩ := found
      obtain ⟨behind, found, rfl⟩ := Option.map_eq_some_iff.mp others
      exact List.forall_mem_append.mpr
        ⟨FileTree.clean_of_matching? proper (Path.clean_clean given) fits, ih found⟩

/-- Paths that are no patterns find themselves if something stands there. -/
theorem matched?_of_ordinary (tree : FileTree) (here : List Name)
    (ordinary : ∀ directory ∈ directories, Pattern.hasMeta (Path.clean directory) = false) :
    matched? tree here directories =
      some ((directories.map Path.clean).filter fun path => (tree.kind? here path).isSome) := by
  induction directories with
  | nil => rfl
  | cons given rest ih =>
      obtain ⟨first, others⟩ := List.forall_mem_cons.mp ordinary
      have fits : tree.matching? here (Path.clean given) =
          some (if (tree.kind? here (Path.clean given)).isSome then [Path.clean given] else []) :=
        congrArg Prod.fst (tree.find?_run_of_ordinary here fun name listed => by
          obtain ⟨-, inside⟩ := Path.mem_components _ name listed
          rw [Pattern.hasMeta, List.any_eq_false] at first ⊢
          exact fun byte within => first byte (inside within))
      rw [matched?_cons, fits, ih others]
      cases kind : tree.kind? here (Path.clean given) <;> simp [kind]

/-- Each directory that holds a source is found at most once if no file is repeated. -/
theorem nodup_flatMap_iff (proper : tree.Proper) (here : List Name)
    (clean : ∀ path ∈ matched, Path.clean path = path) :
    (matched.flatMap (tree.fitting here Pattern.source)).Nodup ↔
      ∀ directory, (∃ path, tree.Lies here directory path) → matched.count directory ≤ 1 := by
  induction matched with
  | nil => simp
  | cons first rest ih =>
      obtain ⟨firstClean, restClean⟩ := List.forall_mem_cons.mp clean
      rw [List.flatMap_cons, List.nodup_append, ih restClean]
      constructor
      · rintro ⟨-, once, apart⟩ directory ⟨path, lies⟩
        rw [List.count_cons]
        split
        · next same =>
            have same : first = directory := by simpa using same
            subst same
            have absent : first ∉ rest := fun again =>
              apart path (FileTree.mem_fitting_source.mpr lies) path (List.mem_flatMap.mpr
                ⟨first, again, FileTree.mem_fitting_source.mpr lies⟩) rfl
            rw [List.count_eq_zero.mpr absent]
        · exact once directory ⟨path, lies⟩
      · intro once
        refine ⟨proper.nodup_fitting _ _, fun directory holds =>
          Nat.le_trans List.count_le_count_cons (once directory holds), ?_⟩
        intro path listed other again same
        subst same
        obtain ⟨directory, inside, lies⟩ := List.mem_flatMap.mp again
        have holds := FileTree.mem_fitting_source.mp listed
        have unique := proper.lies_inj holds (FileTree.mem_fitting_source.mp lies)
        rw [firstClean, restClean directory inside] at unique
        subst unique
        have twice := once first ⟨path, holds⟩
        have positive := List.count_pos_iff.mpr inside
        rw [List.count_cons_self] at twice
        omega

/-- Exactly the sources that lie in given directories are found if exactly those of them that hold
a source are found. -/
theorem complete_iff (proper : tree.Proper) (here : List Name) (directories : List Path)
    (clean : ∀ path ∈ matched, Path.clean path = path) :
    (∀ path, path ∈ matched.flatMap (tree.fitting here Pattern.source) ↔
      ∃ directory ∈ directories, tree.Lies here (Path.clean directory) path) ↔
    ∀ directory, (∃ path, tree.Lies here directory path) →
      (directory ∈ matched ↔ directory ∈ directories.map Path.clean) := by
  simp only [List.mem_flatMap, FileTree.mem_fitting_source, List.mem_map]
  constructor
  · rintro complete directory ⟨path, lies⟩
    constructor
    · intro inside
      obtain ⟨given, listed, lies'⟩ := (complete path).mp ⟨directory, inside, lies⟩
      have same := proper.lies_inj lies lies'
      rw [clean directory inside, Path.clean_clean] at same
      exact ⟨given, listed, same.symm⟩
    · rintro ⟨given, listed, rfl⟩
      obtain ⟨directory, inside, lies'⟩ := (complete path).mpr ⟨given, listed, lies⟩
      have same := proper.lies_inj lies lies'
      rw [clean directory inside, Path.clean_clean] at same
      rwa [same]
  · intro same path
    constructor
    · rintro ⟨directory, inside, lies⟩
      obtain ⟨given, listed, rfl⟩ := (same directory ⟨path, lies⟩).mp inside
      exact ⟨given, listed, lies⟩
    · rintro ⟨given, listed, lies⟩
      exact ⟨_, (same _ ⟨path, lies⟩).mpr ⟨given, listed, rfl⟩, lies⟩

/-- A directory that holds a source is there. -/
theorem isSome_kind?_of_lies {path : Path} (lies : tree.Lies here directory path) :
    (tree.kind? here directory).isSome = true := by
  obtain ⟨name, listed, -⟩ := lies
  by_contra missing
  rw [tree.names_eq_nil here fun kind => missing (by rw [kind]; rfl)] at listed
  exact absurd listed List.not_mem_nil

variable {project : Project}

theorem pairwise_lt_mergeSort_iff (texts : List Bytes) :
    (texts.mergeSort Bytes.lexLE).Pairwise (· < ·) ↔ texts.Nodup :=
  (Bytes.pairwise_lt_iff (Bytes.pairwise_mergeSort texts)).trans List.nodup_mergeSort

/-- What is found in directories discovers the sources exactly if each directory that holds one
is among them once if it is configured, and not at all otherwise. -/
theorem discovers_iff (proper : tree.Proper)
    (clean : ∀ directory ∈ matched, Path.clean directory = directory) :
    Discovers tree here project
        ((matched.flatMap (tree.fitting here Pattern.source)).mergeSort Bytes.lexLE) ↔
      ∀ directory, (∃ path, tree.Lies here directory path) →
        matched.count directory =
          if directory ∈ project.sourceDirPaths.map Path.clean then 1 else 0 := by
  have once := nodup_flatMap_iff proper here clean
  have complete := complete_iff proper here project.sourceDirPaths clean
  constructor
  · rintro ⟨ascending, listed⟩ directory holds
    have few := once.mp ((pairwise_lt_mergeSort_iff _).mp ascending) directory holds
    simp only [List.mem_mergeSort] at listed
    have found := complete.mp listed directory holds
    split
    · next configured =>
        have positive := List.count_pos_iff.mpr (found.mpr configured)
        omega
    · next other => exact List.count_eq_zero.mpr fun inside => other (found.mp inside)
  · intro counted
    refine ⟨(pairwise_lt_mergeSort_iff _).mpr (once.mpr fun directory holds => ?_), ?_⟩
    · rw [counted directory holds]
      split <;> decide
    · simp only [List.mem_mergeSort]
      refine complete.mpr fun directory holds => ?_
      rw [← List.count_pos_iff, counted directory holds]
      split <;> simp_all

/-- The source files of a project without a list of them are discovered exactly if the paths of
its directories are well-formed as patterns and find each directory that holds a source once if it
is configured, and not at all otherwise. If no path is a pattern, then nothing is lost, and a file
is repeated exactly if its directory is configured twice. -/
theorem sourceFiles?_discovers_iff (proper : tree.Proper) (unlisted : project.sources = [])
    (here : List Name) :
    ((∃ found, (sourceFiles? (FileTree.files here) project).run tree = (some found, tree) ∧
        Discovers tree here project found) ↔
      ∃ matched, matched? tree here project.sourceDirPaths = some matched ∧
        ∀ directory, (∃ path, tree.Lies here directory path) →
          matched.count directory =
            if directory ∈ project.sourceDirPaths.map Path.clean then 1 else 0) ∧
    ((∀ directory ∈ project.sourceDirPaths, Pattern.hasMeta (Path.clean directory) = false) →
      ∃ found, (sourceFiles? (FileTree.files here) project).run tree = (some found, tree) ∧
        found.Pairwise (· ≤ ·) ∧
        (∀ path, path ∈ found ↔
          ∃ directory ∈ project.sourceDirPaths, tree.Lies here (Path.clean directory) path) ∧
        (found.Nodup ↔ ∀ directory, (∃ path, tree.Lies here directory path) →
          (project.sourceDirPaths.map Path.clean).count directory ≤ 1)) := by
  rw [sourceFiles?_run tree here unlisted]
  constructor
  · constructor
    · rintro ⟨found, ran, discovers⟩
      obtain ⟨matched, known, rfl⟩ := Option.map_eq_some_iff.mp (congrArg Prod.fst ran)
      exact ⟨matched, known, (discovers_iff proper (clean_matched? proper known)).mp discovers⟩
    · rintro ⟨matched, known, counted⟩
      exact ⟨_, by rw [known]; rfl,
        (discovers_iff proper (clean_matched? proper known)).mpr counted⟩
  · intro ordinary
    have known := matched?_of_ordinary tree here ordinary
    have clean := clean_matched? proper known
    refine ⟨_, by rw [known]; rfl, Bytes.pairwise_mergeSort _, ?_, ?_⟩
    · simp only [List.mem_mergeSort]
      refine (complete_iff proper here _ clean).mpr fun directory ⟨path, lies⟩ => ?_
      rw [List.mem_filter]
      exact and_iff_left (isSome_kind?_of_lies lies)
    · rw [List.nodup_mergeSort, nodup_flatMap_iff proper here clean]
      refine forall_congr' fun directory => forall_congr' fun ⟨path, lies⟩ => ?_
      have there := isSome_kind?_of_lies lies
      rw [@List.count_filter _ _ _ (fun path => (tree.kind? here path).isSome) _ _ there]

/-- A project that names one directory in two ways, and another one whose directory is named like a
pattern that another directory fits. -/
def doubled : Project :=
  { blank with sourceDirs := [utf8 "src", utf8 "./src"], directory := utf8 "/p" }

def bracketed : Project :=
  { blank with sourceDirs := [utf8 "[ab]"], directory := utf8 "/p" }

def crowdedTree : FileTree :=
  ⟨[([utf8 "p"], .directory), ([utf8 "p", utf8 "src"], .directory),
    ([utf8 "p", utf8 "src", utf8 "a.lamb"], .file (utf8 "1")),
    ([utf8 "p", utf8 "[ab]"], .directory),
    ([utf8 "p", utf8 "[ab]", utf8 "x.lamb"], .file (utf8 "2")),
    ([utf8 "p", utf8 "a"], .directory),
    ([utf8 "p", utf8 "a", utf8 "y.lamb"], .file (utf8 "3"))]⟩

theorem not_discovers_crowdedTree :
    crowdedTree.Proper ∧ doubled.sources = [] ∧ bracketed.sources = [] ∧
      (¬ ∃ found, (sourceFiles? (FileTree.files []) doubled).run crowdedTree =
        (some found, crowdedTree) ∧ Discovers crowdedTree [] doubled found) ∧
      ¬ ∃ found, (sourceFiles? (FileTree.files []) bracketed).run crowdedTree =
        (some found, crowdedTree) ∧ Discovers crowdedTree [] bracketed found := by
  have twice : (sourceFiles? (FileTree.files []) doubled).run crowdedTree =
      (some [utf8 "/p/src/a.lamb", utf8 "/p/src/a.lamb"], crowdedTree) := by cbv
  have lost : (sourceFiles? (FileTree.files []) bracketed).run crowdedTree =
      (some [utf8 "/p/a/y.lamb"], crowdedTree) := by cbv
  refine ⟨by decide +kernel, rfl, rfl, ?_, ?_⟩
  · rintro ⟨found, ran, ascending, -⟩
    cases twice.symm.trans ran
    exact absurd ascending (by decide)
  · rintro ⟨found, ran, -, complete⟩
    cases lost.symm.trans ran
    have listed := (complete (utf8 "/p/[ab]/x.lamb")).mpr
      ⟨_, List.mem_singleton_self _, utf8 "x.lamb", by decide +kernel, by decide, by decide⟩
    exact absurd listed (by decide)

/-- A project with two directories, one of them behind a double dot. -/
def separate : Project :=
  { blank with sourceDirs := [utf8 "src", utf8 "src/../a"], directory := utf8 "/p" }

theorem sourceFiles?_discovers_iff_separate :
    crowdedTree.Proper ∧ separate.sources = [] ∧
      (∀ directory ∈ separate.sourceDirPaths, Pattern.hasMeta (Path.clean directory) = false) ∧
      (sourceFiles? (FileTree.files []) separate).run crowdedTree =
        (some [utf8 "/p/a/y.lamb", utf8 "/p/src/a.lamb"], crowdedTree) ∧
      Discovers crowdedTree [] separate [utf8 "/p/a/y.lamb", utf8 "/p/src/a.lamb"] := by
  have proper : crowdedTree.Proper := by decide +kernel
  have ordinary : ∀ directory ∈ separate.sourceDirPaths,
      Pattern.hasMeta (Path.clean directory) = false := by decide +kernel
  have ran : (sourceFiles? (FileTree.files []) separate).run crowdedTree =
      (some [utf8 "/p/a/y.lamb", utf8 "/p/src/a.lamb"], crowdedTree) := by cbv
  obtain ⟨found, ran', sorted, complete, once⟩ :=
    (@sourceFiles?_discovers_iff crowdedTree separate proper rfl []).2 ordinary
  cases ran.symm.trans ran'
  have distinct := once.mpr fun directory _ =>
    List.nodup_iff_count_le_one.mp (by decide +kernel) directory
  exact ⟨proper, rfl, ordinary, ran, (Bytes.pairwise_lt_iff sorted).mpr distinct, complete⟩

end Project

end ClosureLisp
