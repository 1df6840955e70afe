import ClosureLisp.Bundle.Capability
import ClosureLisp.Bytecode.Listing
import ClosureLisp.Digest.Sha256
import ClosureLisp.Text.Quoted

/-!
# Bundles

A compiled program made up for keeping and passing on: the code, the names of its global
slots, digests of the source and the code, and the capabilities that the code needs.
`Bundle.verify` says whether a bundle from elsewhere is safe to run: above all, that every
jump and every entry of a function lands where the linear decoding of the code starts an
instruction, so that no code hides inside operands.
-/

namespace ClosureLisp

/-- A compiled program with what is needed to check it. A bundle may lack the code or the
table of names altogether, which counts as an empty one. -/
structure Bundle where
  version : UInt8
  sourceDigest : Digest
  codeDigest : Digest
  storedCode : Option Code
  storedGlobals : Option (List Name)
  capabilities : List Name
  deriving DecidableEq

/-- Why a bundle is not safe to run. -/
inductive BundleFault where
  | version (found : UInt8)
  | digestMismatch
  | fewGlobals (count : Nat)
  | wrongGlobal (slot : Nat) (found expected : Name)
  | badTarget (located : Code.Located)
  | malformed (error : DecodeError)
  | capabilities (declared needed : List Name)
  | refused (refusal : Refusal)
  deriving DecidableEq, Repr

/-- The kinds of bundle faults. -/
inductive BundleFault.Kind where
  | version
  | digestMismatch
  | globals
  | badTarget
  | malformed
  | capability
  deriving DecidableEq, Repr

namespace BundleFault

/-- The kind of a bundle fault. -/
def kind : BundleFault → Kind
  | .version _ => .version
  | .digestMismatch => .digestMismatch
  | .fewGlobals _ => .globals
  | .wrongGlobal _ _ _ => .globals
  | .badTarget _ => .badTarget
  | .malformed _ => .malformed
  | .capabilities _ _ => .capability
  | .refused _ => .capability

/-- The general part of the wording. -/
def Kind.summary : Kind → Bytes
  | .version => utf8 "dist: unsupported bundle version"
  | .digestMismatch => utf8 "dist: code hash mismatch"
  | .globals => utf8 "dist: global table does not match builtins"
  | .badTarget => utf8 "dist: control transfer into the middle of an instruction"
  | .malformed => utf8 "dist"
  | .capability => utf8 "dist: capability not allowed"

/-- The particular part of the wording, where there is one. -/
def detail? : BundleFault → Option Bytes
  | .version found => some (Bytes.decimalNat found.toNat)
  | .digestMismatch => none
  | .fewGlobals count =>
      some (Bytes.decimalNat count ++ utf8 " globals, want at least " ++
        Bytes.decimalNat predefinedNames.length)
  | .wrongGlobal slot found expected =>
      some (utf8 "slot " ++ Bytes.decimalNat slot ++ utf8 " is " ++ Quoted.quote found ++
        utf8 ", want " ++ Quoted.quote expected)
  | .badTarget located =>
      some (located.instr.text ++ utf8 " at " ++ Bytes.zeroPadded 4 located.offset)
  | .malformed error => some error.message
  | .capabilities declared needed =>
      some (utf8 "declares " ++ Bytes.bracketed declared ++ utf8 ", code needs " ++
        Bytes.bracketed needed)
  | .refused (.denied capability) =>
      some (Quoted.quote capability ++ utf8 " is explicitly denied")
  | .refused (.notAllowed capability) =>
      some (Quoted.quote capability ++ utf8 " is not in the allowed set")

/-- The full wording of a bundle fault. -/
def message (fault : BundleFault) : Bytes :=
  match fault.detail? with
  | some detail => fault.kind.summary ++ utf8 ": " ++ detail
  | none => fault.kind.summary

end BundleFault

namespace Bundle

/-- The version of the bundles made here. -/
def currentVersion : UInt8 := 1

/-- The code of a bundle. -/
def code (bundle : Bundle) : Code :=
  bundle.storedCode.getD #[]

/-- The names of a bundle's global slots. -/
def globals (bundle : Bundle) : List Name :=
  bundle.storedGlobals.getD []

/-- The digest of code. -/
def digestOf (code : Code) : Digest :=
  Sha256.digest code.toList

/-- Packs code compiled from a source. An empty code or table is left out, and code that does
not decode declares no capabilities. -/
def new (source : Bytes) (code : Code) (globals : List Name) : Bundle where
  version := currentVersion
  sourceDigest := Sha256.digest source
  codeDigest := digestOf code
  storedCode := if code.isEmpty then none else some code
  storedGlobals := if globals.isEmpty then none else some globals
  capabilities := (Capability.required code globals).toOption.getD []

theorem code_new (source : Bytes) (code : Code) (globals : List Name) :
    (new source code globals).code = code := by
  simp only [Bundle.code, new]
  split
  · next empty => exact (Array.isEmpty_iff.mp empty).symm
  · rfl

theorem globals_new (source : Bytes) (code : Code) (globals : List Name) :
    (new source code globals).globals = globals := by
  simp only [Bundle.globals, new]
  split
  · next empty => exact (List.isEmpty_iff.mp empty).symm
  · rfl

/-- The first slot at which a table does not start with the expected names. -/
def wrongGlobal? : (slot : Nat) → (expected found : List Name) → Option BundleFault
  | slot, name :: expected, other :: found =>
      if other = name then wrongGlobal? (slot + 1) expected found
      else some (.wrongGlobal slot other name)
  | _, _, _ => none

/-- What is wrong with a table of global names, if anything: it has to start with the
predefined names in order. -/
def globalsFault? (globals : List Name) : Option BundleFault :=
  if globals.length < predefinedNames.length then some (.fewGlobals globals.length)
  else wrongGlobal? 0 predefinedNames globals

/-- Whether an instruction starts at an offset. -/
def isStart (instrs : List Code.Located) (target : Int32) : Bool :=
  instrs.any fun located => (located.offset : Int) == target.toInt

/-- Whether control goes where an instruction starts. A jump may also go to the end of the
code. -/
def landsOnStart (size : Nat) (instrs : List Code.Located) : Instr → Bool
  | .jump target => isStart instrs target || target.toInt == size
  | .jumpIf target => isStart instrs target || target.toInt == size
  | .makeLambda entry _ _ => isStart instrs entry
  | _ => true

/-- The first instruction that transfers control into another one, if the code decodes. -/
def targetFault? (code : Code) : Option BundleFault :=
  match code.decodeAll with
  | (_, some error) => some (.malformed error)
  | (instrs, none) =>
      (instrs.find? fun located => !landsOnStart code.size instrs located.instr).map .badTarget

/-- What is wrong with the declared capabilities, if anything. -/
def capabilityFault? (code : Code) (globals declared : List Name) : Option BundleFault :=
  match Capability.required code globals with
  | .error error => some (.malformed error)
  | .ok needed => if needed = declared then none else some (.capabilities declared needed)

/-- Why a bundle is not safe to run: the first fault of its version, its digest, its table of
names, its control transfers and its capabilities. -/
def verify (bundle : Bundle) : Except BundleFault Unit := do
  if bundle.version ≠ currentVersion then throw (.version bundle.version)
  if digestOf bundle.code ≠ bundle.codeDigest then throw .digestMismatch
  if let some fault := globalsFault? bundle.globals then throw fault
  if let some fault := targetFault? bundle.code then throw fault
  if let some fault := capabilityFault? bundle.code bundle.globals bundle.capabilities then
    throw fault

/-- Why a policy refuses a bundle, if it does. -/
def admittedBy (bundle : Bundle) (policy : Policy) : Except BundleFault Unit :=
  match policy.check bundle.capabilities with
  | some refusal => .error (.refused refusal)
  | none => .ok ()

/-- The listing of a bundle's code, and the error that ends it early. -/
def listing (bundle : Bundle) : Bytes × Option DecodeError :=
  bundle.code.listing bundle.globals

end Bundle

end ClosureLisp
