import ClosureLisp.BundleStore
import ClosureLisp.Proofs.Identity
import ClosureLisp.Proofs.Wire
import Mathlib

/-!
# Compiling with a store

Every entry of a store that has only been used to compile was written for a program with the
key of the entry. So where keys determine programs, the bundle found under the key of a program
is the one that compiling the program yields.
-/

namespace ClosureLisp

namespace Bundle

variable (source : Bytes) (code : Code) (globals : List Name)

/-- All capabilities are known by name. -/
theorem capabilities_new_sublist :
    (new source code globals).capabilities.Sublist (Capability.all.map Capability.name) := by
  simp only [new, Capability.required]
  split
  · exact List.nil_sublist _
  · exact List.filter_sublist.map _

/-- Two bundles agree in what a program does, or two errors are the same. -/
def SameOutcome : Except SourceError Bundle → Except SourceError Bundle → Prop
  | .ok found, .ok made =>
      found.code = made.code ∧ found.globals = made.globals ∧
        found.capabilities = made.capabilities
  | .error found, .error made => found = made
  | _, _ => False

instance (first second : Except SourceError Bundle) : Decidable (SameOutcome first second) :=
  match first, second with
  | .ok _, .ok _ => inferInstanceAs (Decidable (_ ∧ _ ∧ _))
  | .error _, .error _ => inferInstanceAs (Decidable (_ = _))
  | .ok _, .error _ => .isFalse id
  | .error _, .ok _ => .isFalse id

theorem SameOutcome.refl (outcome : Except SourceError Bundle) : SameOutcome outcome outcome := by
  cases outcome with
  | ok bundle => exact ⟨rfl, rfl, rfl⟩
  | error error => rfl

end Bundle

/-- The lengths in a program are in the range of signed words of sixty-four bits. -/
structure Program.Measured (program : Program) : Prop where
  code : program.code.size < Word.signedRange
  globals : program.globals.length < Word.signedRange
  names : ∀ name ∈ program.globals, name.length < Word.signedRange

theorem Program.Measured.bundle {program : Program} (measured : program.Measured)
    (source : Bytes) : (Bundle.new source program.code program.globals).Measured := by
  have capabilities := Bundle.capabilities_new_sublist source program.code program.globals
  refine ⟨?_, ?_, ?_, ?_, ?_⟩
  · rw [Bundle.code_new]
    exact measured.code
  · rw [Bundle.globals_new]
    exact Nat.lt_trans measured.globals (by decide)
  · rw [Bundle.globals_new]
    exact measured.names
  · exact Nat.lt_of_le_of_lt capabilities.length_le (by decide)
  · intro name listed
    have known : ∀ name ∈ Capability.all.map Capability.name, name.length < Word.signedRange := by
      decide
    exact known name (capabilities.subset listed)

namespace BundleStore

/-- The store after compiling sources one after the other, starting from an empty one. -/
def afterAll (sources : List Bytes) : BundleStore :=
  sources.foldl (fun store source => (store.compile source).2) empty

/-- Digests tell the serialized programs of texts apart. -/
def Uncollided (texts : List Bytes) : Prop :=
  ∀ first ∈ texts, ∀ second ∈ texts, ∀ exprs others, Reader.parse first = .ok exprs →
    Reader.parse second = .ok others →
    Canon.programDigest exprs = Canon.programDigest others →
      (Canon.ofProgram exprs).encode = (Canon.ofProgram others).encode

/-- Nothing of the program in a text is cut when its key is made or its bundle is written. -/
def Uncut (text : Bytes) : Prop :=
  ∀ exprs, Reader.parse text = .ok exprs →
    Program.Uncut exprs ∧ ∀ program, Program.ofExprs exprs = .ok program → program.Measured

/-- No lambda in a text repeats a parameter. -/
def Distinct (text : Bytes) : Prop :=
  ∀ exprs, Reader.parse text = .ok exprs →
    ∀ parameters ∈ Expr.parameterListsAll exprs, parameters.Nodup

/-- A store has a bundle that is safe to run under the key of the program in a text. -/
def Answers (store : BundleStore) (text : Bytes) : Prop :=
  ∃ exprs bundle, Reader.parse text = .ok exprs ∧
    (store.get (Canon.programDigest exprs)).1 = .ok bundle

/-- An open store with entries for some of the given texts. -/
structure Holds (store : BundleStore) (texts : List Bytes) : Prop where
  isOpen : store.isOpen = true
  entries : ∀ {key : Digest} {data : Bytes}, (key, data) ∈ store.entries →
    ∃ text ∈ texts, ∃ exprs program, Reader.parse text = .ok exprs ∧
      Program.ofExprs exprs = .ok program ∧ key = Canon.programDigest exprs ∧
      data = (Bundle.new text program.code program.globals).encode

section Entries

variable {store : BundleStore} {key : Digest} {data : Bytes}

theorem mem_of_data? (found : store.data? key = some data) : (key, data) ∈ store.entries := by
  obtain ⟨⟨other, kept⟩, listed, rfl⟩ := Option.map_eq_some_iff.mp found
  have same : other = key := by simpa using List.find?_some listed
  rw [← same]
  exact List.mem_of_find?_eq_some listed

theorem mem_insert {entry : Digest × Bytes} {entries : List (Digest × Bytes)}
    (listed : entry ∈ insert key data entries) : entry = (key, data) ∨ entry ∈ entries := by
  induction entries with
  | nil => exact .inl (List.mem_singleton.mp listed)
  | cons first rest ih =>
      rw [insert] at listed
      split at listed
      · rcases List.mem_cons.mp listed with rfl | behind
        · exact .inr List.mem_cons_self
        · exact (ih behind).imp_right (List.mem_cons_of_mem _)
      · exact List.mem_cons.mp listed

theorem mem_withData {entry : Digest × Bytes}
    (listed : entry ∈ (store.withData key data).entries) :
    entry = (key, data) ∨ entry ∈ store.entries :=
  (mem_insert listed).imp_right fun kept => List.mem_of_mem_filter kept

end Entries

/-! ## One source -/

variable {store : BundleStore} {texts : List Bytes} {source : Bytes} {exprs : List Expr}

/-- An entry is found, or there is none that is safe to run, and then there is none afterwards. -/
theorem get_cases (isOpen : store.isOpen = true) (key : Digest) :
    (∃ data found, (key, data) ∈ store.entries ∧ Bundle.decode data = .ok found ∧
      store.get key = (.ok found, store)) ∨
    ∃ fault rest, rest.isOpen = true ∧ rest.entries ⊆ store.entries ∧
      store.get key = (.error fault, rest) := by
  rw [get, if_pos isOpen]
  cases found : store.data? key with
  | none => exact .inr ⟨_, store, isOpen, List.Subset.refl _, rfl⟩
  | some data =>
      cases decoded : Bundle.decode data with
      | ok bundle => exact .inl ⟨data, bundle, mem_of_data? found, decoded, by simp only [decoded]⟩
      | error fault =>
          refine .inr ⟨.notFound, store.dropKey key, isOpen, List.filter_sublist.subset, ?_⟩
          simp only [decoded]

/-- A program is found under its key, or it is compiled and then kept, if it compiles. -/
theorem compileExprs_cases (isOpen : store.isOpen = true) (source : Bytes) (exprs : List Expr) :
    (∃ data found, (Canon.programDigest exprs, data) ∈ store.entries ∧
      Bundle.decode data = .ok found ∧
      (store.get (Canon.programDigest exprs)).1 = .ok found ∧
      store.compileExprs source exprs = (.ok found, store)) ∨
    ∃ rest : BundleStore, rest.isOpen = true ∧ rest.entries ⊆ store.entries ∧
      store.compileExprs source exprs =
        match Bundle.ofExprs source exprs with
        | .error error => (.error error, rest)
        | .ok bundle => (.ok bundle, rest.withData (Canon.programDigest exprs) bundle.encode) := by
  rcases get_cases isOpen (Canon.programDigest exprs) with
    ⟨data, found, listed, decoded, got⟩ | ⟨fault, rest, opened, subset, got⟩
  · refine .inl ⟨data, found, listed, decoded, by rw [got], ?_⟩
    rw [compileExprs, got]
  · refine .inr ⟨rest, opened, subset, ?_⟩
    rw [compileExprs, got]
    cases Bundle.ofExprs source exprs with
    | error error => rfl
    | ok bundle => simp only [put, if_pos opened]

/-- Compiling a source adds an entry for it at most. -/
theorem Holds.compile (holds : Holds store texts) (source : Bytes) :
    Holds (store.compile source).2 (source :: texts) := by
  have weaken : ∀ rest : BundleStore, rest.isOpen = true → rest.entries ⊆ store.entries →
      Holds rest (source :: texts) := by
    intro rest isOpen subset
    refine ⟨isOpen, fun listed => ?_⟩
    obtain ⟨text, member, known⟩ := holds.entries (subset listed)
    exact ⟨text, List.mem_cons_of_mem _ member, known⟩
  rw [BundleStore.compile]
  cases parsed : Reader.parse source with
  | error error => exact weaken store holds.isOpen (List.Subset.refl _)
  | ok exprs =>
      rcases compileExprs_cases holds.isOpen source exprs with
        ⟨data, found, -, -, -, hit⟩ | ⟨rest, isOpen, subset, missed⟩
      · simp only [hit]
        exact weaken store holds.isOpen (List.Subset.refl _)
      · simp only [missed]
        cases compiled : Program.ofExprs exprs with
        | error error =>
            simp only [Bundle.ofExprs, compiled]
            exact weaken rest isOpen subset
        | ok program =>
            simp only [Bundle.ofExprs, compiled]
            refine ⟨isOpen, fun listed => ?_⟩
            rcases mem_withData listed with same | old
            · obtain ⟨rfl, rfl⟩ := Prod.mk.inj same
              exact ⟨source, List.mem_cons_self, exprs, program, parsed, compiled, rfl, rfl⟩
            · exact (weaken rest isOpen subset).entries old

/-- A source that a store holds no wrong entry for is compiled as without a store. -/
theorem Holds.sameOutcome (holds : Holds store texts) (uncollided : Uncollided (source :: texts))
    (uncut : ∀ text ∈ source :: texts, Uncut text)
    (distinct : Distinct source ∨ ¬ store.Answers source) :
    Bundle.SameOutcome (store.compile source).1 (Bundle.ofText source) := by
  rw [BundleStore.compile, Bundle.ofText]
  cases parsed : Reader.parse source with
  | error error => exact .refl _
  | ok exprs =>
      rcases compileExprs_cases holds.isOpen source exprs with
        ⟨data, found, listed, decoded, got, hit⟩ | ⟨rest, -, -, missed⟩
      · have distinct := distinct.resolve_right fun missing => missing ⟨exprs, found, parsed, got⟩
        obtain ⟨text, member, others, program, read, compiled, same, rfl⟩ := holds.entries listed
        have behind := List.mem_cons_of_mem source member
        have encoded := uncollided text behind source List.mem_cons_self others exprs read parsed
          same.symm
        have again := Program.ofExprs_of_encode_eq (uncut text behind others read).1
          (uncut source List.mem_cons_self exprs parsed).1 (distinct exprs parsed) encoded compiled
        have measured := (uncut text behind others read).2 program compiled
        obtain ⟨code, globals, capabilities⟩ := Bundle.decode_encode (measured.bundle text) decoded
        rw [Bundle.code_new] at code
        rw [Bundle.globals_new] at globals
        simp only [hit, Bundle.ofExprs, again]
        refine ⟨?_, ?_, capabilities⟩
        · rw [code, Bundle.code_new]
        · rw [globals, Bundle.globals_new]
      · simp only [missed]
        cases Bundle.ofExprs source exprs <;> exact .refl _

/-- A source that a store answers has a bundle, whether it compiles or not. -/
theorem exists_bundle_of_answers (answers : store.Answers source) :
    ∃ bundle, (store.compile source).1 = .ok bundle := by
  obtain ⟨exprs, bundle, parsed, got⟩ := answers
  refine ⟨bundle, ?_⟩
  rw [BundleStore.compile, parsed]
  simp only [compileExprs]
  split
  · next found rest hit =>
      rw [hit] at got
      cases got
      rfl
  · next fault rest missed =>
      rw [missed] at got
      cases got

/-- A source in which a lambda repeats a parameter does not compile. -/
theorem exists_error_of_not_distinct (repeats : ¬ Distinct source) :
    ∃ error, Bundle.ofText source = .error error := by
  rw [Bundle.ofText]
  cases parsed : Reader.parse source with
  | error error => exact ⟨error, rfl⟩
  | ok exprs =>
      cases compiled : Program.ofExprs exprs with
      | error error => exact ⟨error, by simp only [Bundle.ofExprs, compiled]⟩
      | ok program =>
          refine absurd ?_ repeats
          intro found read
          rw [parsed] at read
          cases read
          exact Program.distinct_of_ofExprs compiled

/-! ## Sequences of sources -/

theorem holds_afterAll (sources : List Bytes) : Holds (afterAll sources) sources.reverse := by
  have run : ∀ (sources : List Bytes) (store : BundleStore) (texts : List Bytes),
      Holds store texts →
        Holds (sources.foldl (fun store source => (store.compile source).2) store)
          (sources.reverse ++ texts) := by
    intro sources
    induction sources with
    | nil => exact fun store texts holds => holds
    | cons source sources ih =>
        intro store texts holds
        rw [List.foldl_cons, List.reverse_cons, List.append_assoc]
        exact ih _ _ (holds.compile source)
  have start : Holds empty [] := ⟨rfl, fun listed => absurd listed List.not_mem_nil⟩
  have reached := run sources empty [] start
  rwa [List.append_nil] at reached

/-- When a store changes nothing, where keys cut nothing and digests do not collide: after any
sequence of sources, a source is compiled with the store as it is compiled without if and only
if no lambda in it repeats a parameter or the store has no answer. -/
theorem compile_sameOutcome_iff (sources : List Bytes) (source : Bytes)
    (uncollided : Uncollided (source :: sources))
    (uncut : ∀ text ∈ source :: sources, Uncut text) :
    Bundle.SameOutcome ((afterAll sources).compile source).1 (Bundle.ofText source) ↔
      (Distinct source ∨ ¬ (afterAll sources).Answers source) := by
  constructor
  · intro same
    by_contra neither
    rw [not_or, not_not] at neither
    obtain ⟨bundle, found⟩ := exists_bundle_of_answers neither.2
    obtain ⟨error, failed⟩ := exists_error_of_not_distinct neither.1
    rw [found, failed] at same
    exact same
  · have known : ∀ text, text ∈ source :: sources.reverse → text ∈ source :: sources := by
      intro text listed
      exact (List.mem_cons.mp listed).elim (fun same => same ▸ List.mem_cons_self)
        fun behind => List.mem_cons_of_mem _ (List.mem_reverse.mp behind)
    refine (holds_afterAll sources).sameOutcome ?_ fun text listed => uncut text (known text listed)
    intro first listed second otherListed
    exact uncollided first (known first listed) second (known second otherListed)

/-- The function that yields the second of two arguments, as it is read from sixteen bytes. -/
def secondOf (first second : Name) : List Expr :=
  [.lambda ⟨⟨0, 1, 1⟩, ⟨15, 1, 16⟩⟩ none [first, second] (.var ⟨⟨14, 1, 15⟩, ⟨15, 1, 16⟩⟩ second)]

theorem parse_secondOf :
    Reader.parse (utf8 "(lambda (x y) y)") = .ok (secondOf [120] [121]) ∧
      Reader.parse (utf8 "(lambda (a b) b)") = .ok (secondOf [97] [98]) ∧
      Reader.parse (utf8 "(lambda (x x) x)") = .ok (secondOf [120] [120]) := by
  refine ⟨?_, ?_, ?_⟩ <;> cbv

theorem uncut_of_parse {text : Bytes} {exprs : List Expr} (parsed : Reader.parse text = .ok exprs)
    (uncut : Program.Uncut exprs)
    (measured : ∀ program, Program.ofExprs exprs = .ok program → program.Measured) :
    Uncut text := by
  intro found read
  rw [parsed] at read
  cases read
  exact ⟨uncut, measured⟩

/-- Digests cannot collide among texts of one program. -/
theorem uncollided_of_canon {texts : List Bytes} (canon : Canon)
    (same : ∀ text ∈ texts, ∃ exprs, Reader.parse text = .ok exprs ∧
      Canon.ofProgram exprs = canon) : Uncollided texts := by
  intro first listed second otherListed exprs others parsed otherParsed _
  obtain ⟨found, read, equal⟩ := same first listed
  obtain ⟨otherFound, otherRead, otherEqual⟩ := same second otherListed
  rw [read] at parsed
  rw [otherRead] at otherParsed
  cases parsed
  cases otherParsed
  rw [equal, otherEqual]

theorem compile_sameOutcome_iff_renamed :
    Bundle.SameOutcome
      ((afterAll [utf8 "(lambda (x y) y)"]).compile (utf8 "(lambda (a b) b)")).1
      (Bundle.ofText (utf8 "(lambda (a b) b)")) := by
  obtain ⟨first, second, -⟩ := parse_secondOf
  refine (compile_sameOutcome_iff _ _ ?_ ?_).mpr (.inl ?_)
  · refine uncollided_of_canon (.program [.lambda 2 (.bound 0 1)]) ?_
    rw [List.forall_mem_cons, List.forall_mem_singleton]
    exact ⟨⟨_, second, rfl⟩, ⟨_, first, rfl⟩⟩
  · rw [List.forall_mem_cons, List.forall_mem_singleton]
    constructor
    · refine uncut_of_parse second (by unfold Program.Uncut Canon.Counted; decide) ?_
      intro program compiled
      cases compiled
      exact ⟨by decide +kernel, by decide +kernel, by decide +kernel⟩
    · refine uncut_of_parse first (by unfold Program.Uncut Canon.Counted; decide) ?_
      intro program compiled
      cases compiled
      exact ⟨by decide +kernel, by decide +kernel, by decide +kernel⟩
  · intro exprs parsed
    rw [second] at parsed
    cases parsed
    decide

/-- Stores do answer sources in which a lambda repeats a parameter: the key of a lambda does not
show that it does, so a bundle may be found although the source does not compile. -/
theorem compile_not_sameOutcome_ofText :
    ¬ ∀ (sources : List Bytes) (source : Bytes), Uncollided (source :: sources) →
      Bundle.SameOutcome ((afterAll sources).compile source).1 (Bundle.ofText source) := by
  intro transparent
  obtain ⟨first, -, third⟩ := parse_secondOf
  have uncollided : Uncollided [utf8 "(lambda (x x) x)", utf8 "(lambda (x y) y)"] := by
    refine uncollided_of_canon (.program [.lambda 2 (.bound 0 1)]) ?_
    rw [List.forall_mem_cons, List.forall_mem_singleton]
    exact ⟨⟨_, third, rfl⟩, ⟨_, first, rfl⟩⟩
  have same := transparent [utf8 "(lambda (x y) y)"] (utf8 "(lambda (x x) x)") uncollided
  rw [afterAll, List.foldl_cons, List.foldl_nil, compile, compile, Bundle.ofText, first, third]
    at same
  revert same
  decide +kernel

end BundleStore

end ClosureLisp
