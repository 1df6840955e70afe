import ClosureLisp.CommandLine.Commands
import ClosureLisp.Host.FileTree
import ClosureLisp.Proofs.Caching
import ClosureLisp.Proofs.Verification

/-!
# Bundles that are built and run later

A source that is compiled on the command line yields a new bundle or one that was read from a
store. Either of them passes verification, and a bundle that does is read back from its bytes as
the same bundle if and only if the table of its global names is an array of texts. Names come from
sources byte by byte, so that a name need not be a text, and then the bytes of the bundle are
refused although the bundle itself can be run.
-/

namespace ClosureLisp

namespace Bundle

variable {bundle : Bundle} {source data : Bytes} {exprs : List Expr}

/-- A bundle that is read is safe to run. -/
theorem verify_of_decode (decoded : decode data = .ok bundle) : bundle.verify = .ok () := by
  unfold decode decodeWith at decoded
  split at decoded
  · cases decoded
  · split at decoded
    · cases decoded
    · next verified =>
        cases decoded
        exact verified

/-- A compiled bundle whose operands fit is safe to run. -/
theorem verify_of_compiled (compiled : ofExprs source exprs = .ok bundle)
    (fits : Compiler.new.Fits exprs) : bundle.verify = .ok () := by
  unfold ofExprs at compiled
  split at compiled
  · cases compiled
  · next program made =>
      cases compiled
      obtain ⟨later, added, rfl⟩ := Compiler.ofExprs_eq_ok made
      obtain ⟨decodes, refers⟩ := Compiler.refers_of_addForms added fits (Code.ComesTo.zero _)
      have table := (Compiler.addForms_extends Compiler.new exprs).globals
      rw [added] at table
      exact verify_new (globalsFault?_of_isPrefix table)
        (targetFault?_of_checked (Code.checked_of_refers decodes refers))

/-- What a verified bundle declares is what its code needs. -/
theorem required_of_verify (verified : bundle.verify = .ok ()) :
    Capability.required bundle.code bundle.globals = .ok bundle.capabilities := by
  obtain ⟨-, -, declared⟩ := faults_of_verify verified
  unfold capabilityFault? at declared
  split at declared
  · cases declared
  · next needed found =>
      split at declared
      · next same => rw [found, same]
      · cases declared

/-- The names of capabilities can always be read back. -/
theorem legible_capabilities (verified : bundle.verify = .ok ()) :
    Legible bundle.capabilities := by
  have known : ∀ names, names.Sublist (Capability.all.map Capability.name) → Legible names := by
    intro names among
    have texts : ∀ name ∈ Capability.all.map Capability.name, Glyph.isValidText name := by
      decide +kernel
    exact ⟨Nat.le_trans among.length_le (by decide),
      fun name listed => texts name (among.subset listed)⟩
  have required := required_of_verify verified
  unfold Capability.required at required
  split at required
  · cases required
  · rw [← Except.ok.inj required]
    exact known _ (List.filter_sublist.map _)

/-- The bytes of a bundle are read as a bundle with its code, its globals and its capabilities,
which runs in the same way. -/
def Reloads (bundle : Bundle) : Prop :=
  ∃ loaded, decode bundle.encode = .ok loaded ∧ loaded.code = bundle.code ∧
    loaded.globals = bundle.globals ∧ loaded.capabilities = bundle.capabilities ∧
    ∀ settings, Command.runBundle settings loaded = Command.runBundle settings bundle

/-- A bundle is read back if it is safe to run and its names can be read back. -/
theorem reloads_iff (measured : bundle.Measured) :
    bundle.Reloads ↔ bundle.verify = .ok () ∧ Legible bundle.globals := by
  constructor
  · rintro ⟨loaded, decoded, -⟩
    have legible : Legible bundle.globals := by
      by_cases legible : Legible bundle.globals
      · exact legible
      · have refused := decodeWith_of_not_legible .canonical measured legible
        cases refused.symm.trans decoded
    have same := eq_of_decodeWith .canonical measured decoded
    rw [← same]
    exact ⟨verify_of_decode decoded, same ▸ legible⟩
  · rintro ⟨verified, legible⟩
    have decoded := decodeWith_of_legible .canonical measured verified legible
      (legible_capabilities verified)
    exact ⟨bundle, decoded, rfl, rfl, rfl, fun _ => rfl⟩

end Bundle

/-! ## Compiling on the command line -/

namespace BundleStore

/-- A bundle for a program comes from the store or is compiled. -/
theorem compileExprs_eq_ok {store : BundleStore} {source : Bytes} {exprs : List Expr}
    {bundle : Bundle} (compiled : (store.compileExprs source exprs).1 = .ok bundle) :
    Bundle.ofExprs source exprs = .ok bundle ∨ ∃ data, Bundle.decode data = .ok bundle := by
  unfold compileExprs at compiled
  dsimp only at compiled
  split at compiled
  · next found rest hit =>
      cases compiled
      refine .inr ?_
      unfold get at hit
      split at hit
      · split at hit
        · cases hit
        · next data _ =>
            split at hit
            · next decoded =>
                cases hit
                exact ⟨data, decoded⟩
            · cases hit
      · cases hit
  · refine .inl ?_
    split at compiled
    · cases compiled
    · next made =>
        cases compiled
        exact made

end BundleStore

namespace Command

variable {settings : Settings} {here : List Name} {tree : FileTree} {source : Bytes}
  {bundle : Bundle}

/-- A bundle for a source is compiled from the source or was read from a file. -/
theorem compile_eq_ok
    (compiled : (compile (FileTree.files here) settings source tree).1 = .ok bundle) :
    Bundle.ofText source = .ok bundle ∨ ∃ data, Bundle.decode data = .ok bundle := by
  revert compiled
  unfold compile Bundle.ofText
  cases Reader.parse source with
  | error error =>
      intro compiled
      cases compiled
  | ok exprs =>
      cases settings.cache with
      | none => exact .inl
      | some path =>
          simp only [bind, StateT.bind]
          obtain ⟨opened, after⟩ := openStore (FileTree.files here) path tree
          -- Saving the store afterwards has no part in the result.
          cases opened with
          | none => exact .inl
          | some store => exact BundleStore.compileExprs_eq_ok

/-- A bundle for a source whose operands fit is safe to run. -/
theorem verify_of_compile
    (compiled : (compile (FileTree.files here) settings source tree).1 = .ok bundle)
    (fits : ∀ exprs, Reader.parse source = .ok exprs → Compiler.new.Fits exprs) :
    bundle.verify = .ok () := by
  rcases compile_eq_ok compiled with made | ⟨data, decoded⟩
  · unfold Bundle.ofText at made
    split at made
    · cases made
    · next exprs parsed => exact Bundle.verify_of_compiled made (fits exprs parsed)
  · exact Bundle.verify_of_decode decoded

/-- When a bundle that is compiled on the command line, with a store or without, is read back from
its bytes as a bundle that runs in the same way: if and only if it is safe to run and its global
names can be read back. It is safe to run if the operands of its code fit, and if the names cannot
be read back its bytes are refused. -/
theorem compile_reloads_iff (settings : Settings) (here : List Name) (tree : FileTree)
    (source : Bytes) (bundle : Bundle)
    (compiled : (compile (FileTree.files here) settings source tree).1 = .ok bundle)
    (measured : bundle.Measured) :
    (bundle.Reloads ↔ bundle.verify = .ok () ∧ Bundle.Legible bundle.globals) ∧
      ((∀ exprs, Reader.parse source = .ok exprs → Compiler.new.Fits exprs) →
        bundle.verify = .ok ()) ∧
      (¬ Bundle.Legible bundle.globals → Bundle.decode bundle.encode = .error .unreadable) := by
  refine ⟨Bundle.reloads_iff measured, verify_of_compile compiled, ?_⟩
  exact Bundle.decodeWith_of_not_legible .canonical measured

/-- A source that defines a global with a name of one byte and asks for its value. -/
def definition (letter : UInt8) : Bytes :=
  utf8 "(define " ++ [letter] ++ utf8 " 7) " ++ [letter]

/-- The expressions of that source. -/
def definitionExprs (letter : UInt8) : List Expr :=
  [.define ⟨⟨0, 1, 1⟩, ⟨11, 1, 12⟩⟩ [letter] (.int ⟨⟨10, 1, 11⟩, ⟨11, 1, 12⟩⟩ 7),
    .var ⟨⟨13, 1, 14⟩, ⟨14, 1, 15⟩⟩ [letter]]

/-- The program of that source. -/
def definitionProgram (letter : UInt8) : Program :=
  ⟨(Instr.encodeAll [.push (.int 7), .defGlobal, .getGlobal 9, .pop]).toArray,
    predefinedNames ++ [[letter]], 0⟩

/-- The bundle of that source. -/
def definitionBundle (letter : UInt8) : Bundle :=
  Bundle.new (definition letter) (definitionProgram letter).code (definitionProgram letter).globals

theorem measured_definitionBundle (letter : UInt8) : (definitionBundle letter).Measured := by
  have code : (definitionProgram 0).code.size < Word.signedRange := by decide
  have program : (definitionProgram letter).Measured := by
    refine ⟨code, ?_, ?_⟩
    · rw [definitionProgram, List.length_append, List.length_singleton]
      decide
    · rw [definitionProgram, List.forall_mem_append, List.forall_mem_singleton,
        List.length_singleton]
      decide
  exact program.bundle _

theorem compile_definition {letter : UInt8}
    (parsed : Reader.parse (definition letter) = .ok (definitionExprs letter))
    (made : Program.ofExprs (definitionExprs letter) = .ok (definitionProgram letter)) :
    (compile (FileTree.files []) (Settings.ofFlags none []) (definition letter)
      FileTree.empty).1 = .ok (definitionBundle letter) := by
  have uncached : (Settings.ofFlags none []).cache = none := rfl
  unfold compile
  rw [parsed, uncached]
  dsimp only
  rw [Bundle.ofExprs, made]
  rfl

theorem compile_reloads_iff_letter :
    (compile (FileTree.files []) (Settings.ofFlags none []) (definition 120)
        FileTree.empty).1 = .ok (definitionBundle 120) ∧
      (definitionBundle 120).Reloads := by
  have parsed : Reader.parse (definition 120) = .ok (definitionExprs 120) := by cbv
  have compiled := compile_definition parsed rfl
  have fits : ∀ exprs, Reader.parse (definition 120) = .ok exprs → Compiler.new.Fits exprs := by
    intro exprs read
    rw [parsed] at read
    cases read
    unfold Compiler.Fits
    decide +kernel
  have legible : Bundle.Legible (definitionBundle 120).globals := by
    rw [definitionBundle, Bundle.globals_new]
    decide +kernel
  obtain ⟨reloads, verified, -⟩ :=
    compile_reloads_iff _ _ _ _ _ compiled (measured_definitionBundle 120)
  exact ⟨compiled, reloads.mpr ⟨verified fits, legible⟩⟩

/-- A byte that is no text makes a name, and the bundle with that name is compiled but cannot be
read back from its bytes. -/
theorem compile_not_reloads :
    (compile (FileTree.files []) (Settings.ofFlags none []) (definition 255)
        FileTree.empty).1 = .ok (definitionBundle 255) ∧
      Bundle.decode (definitionBundle 255).encode = .error .unreadable ∧
      ¬ (definitionBundle 255).Reloads := by
  have parsed : Reader.parse (definition 255) = .ok (definitionExprs 255) := by cbv
  have measured := measured_definitionBundle 255
  have illegible : ¬ Bundle.Legible (definitionBundle 255).globals := by
    rw [definitionBundle, Bundle.globals_new]
    decide +kernel
  refine ⟨compile_definition parsed rfl, ?_, fun reloads => ?_⟩
  · exact Bundle.decodeWith_of_not_legible .canonical measured illegible
  · exact illegible ((Bundle.reloads_iff measured).mp reloads).2

end Command

end ClosureLisp
