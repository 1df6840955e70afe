import ClosureLisp.Proofs.Lexing
import ClosureLisp.Proofs.Reloading

/-!
# Bundles that are passed on

A verified bundle is read back from its bytes, field by field as it was, if its names are
well-formed UTF-8 and its table of global names is not too long for the reader. This holds for any
codec that reads back the items it writes (`Bundle.decodeWith_encode_iff`), and the canonical form
is one. What is well-formed
is said twice: by `Glyph.isValidText`, which the reader computes, and by the encoding of characters
in the library. They are the same.
-/

namespace ClosureLisp

namespace Glyph

/-! ## Well-formed text -/

theorem isValidChar_toNat (char : Char) : char.toNat.isValidChar :=
  char.valid

/-- The encoding of characters in the library cuts the bits of the first byte, which are few enough
anyway. -/
theorem encode_toNat (char : Char) : encode char.toNat = String.utf8EncodeChar char := by
  have number : char.val.toNat = char.toNat := rfl
  have valid := isValidChar_toNat char
  generalize char.toNat = code at number valid ⊢
  have one : code ≤ 127 ↔ code < 0x80 := by omega
  have two : code ≤ 2047 ↔ code < 0x800 := by omega
  have three : code ≤ 65535 ↔ code < 0x10000 := by omega
  unfold Nat.isValidChar at valid
  unfold encode String.utf8EncodeChar
  simp only [number, one, two, three, Nat.toUInt8_eq, Nat.add_comm 0x80, Nat.add_comm 0xC0,
    Nat.add_comm 0xE0, Nat.add_comm 0xF0]
  split
  · rfl
  · split
    · rw [Nat.mod_eq_of_lt (by omega : code / 64 < 32)]
    · split
      · rw [Nat.mod_eq_of_lt (by omega : code / 4096 < 16)]
      · rw [Nat.mod_eq_of_lt (by omega : code / 262144 < 8)]

theorem ofBytes_encode_append {code : Nat} (valid : code.isValidChar) (rest : Bytes) :
    ofBytes (encode code ++ rest) = ⟨code, encode code⟩ :: ofBytes rest := by
  obtain ⟨lead, tail, encoded⟩ := List.exists_cons_of_ne_nil (encode_ne_nil code)
  rw [encoded, List.cons_append, ofBytes, first_of_encode valid encoded]

/-- The character that has the replacement code point is not taken for a stray byte. -/
theorem isStray_encode (code : Nat) : isStray ⟨code, encode code⟩ = false := by
  have long : (encode replacement).length = 3 := by decide
  rw [isStray]
  by_cases same : code = replacement
  · simp [same, long]
  · simp [same]

theorem isStray_stray (byte : UInt8) : isStray (stray byte) = true := by
  simp [isStray, stray]

theorem Decodes.exists_chars {text : Bytes} {glyphs : List Glyph} (decodes : Decodes text glyphs)
    (whole : ∀ glyph ∈ glyphs, glyph.isStray = false) :
    ∃ chars : List Char, text = chars.flatMap String.utf8EncodeChar := by
  induction decodes with
  | nil => exact ⟨[], rfl⟩
  | @character code rest glyphs valid _ ih =>
      obtain ⟨chars, rfl⟩ := ih (List.forall_mem_cons.mp whole).2
      have encoded := encode_toNat (Char.ofNatAux code valid)
      exact ⟨Char.ofNatAux code valid :: chars, by rw [List.flatMap_cons, ← encoded]; rfl⟩
  | @stray byte _ _ _ _ _ =>
      have kept := (List.forall_mem_cons.mp whole).1
      rw [isStray_stray] at kept
      cases kept

theorem isValidText_flatMap (chars : List Char) :
    isValidText (chars.flatMap String.utf8EncodeChar) = true := by
  unfold isValidText
  induction chars with
  | nil => rw [List.flatMap_nil, ofBytes, List.all_nil]
  | cons char chars ih =>
      rw [List.flatMap_cons, ← encode_toNat, ofBytes_encode_append (isValidChar_toNat char),
        List.all_cons, ih, isStray_encode]
      rfl

/-- The reader of bundles takes a text for well-formed if and only if it encodes characters. -/
theorem isValidText_iff (text : Bytes) :
    isValidText text = true ↔ text.toByteArray.IsValidUTF8 := by
  constructor
  · intro valid
    have whole : ∀ glyph ∈ ofBytes text, glyph.isStray = false := by
      intro glyph listed
      rw [← Bool.not_eq_true']
      exact List.all_eq_true.mp valid glyph listed
    obtain ⟨chars, rfl⟩ := (decodes_ofBytes text).exists_chars whole
    exact .intro chars rfl
  · rintro ⟨chars, same⟩
    rw [List.toByteArray_inj.mp same]
    exact isValidText_flatMap chars

end Glyph

namespace Bundle

/-! ## Bundles -/

/-- What it takes to pass a bundle on: its names are UTF-8, and there are not too many globals. -/
structure Portable (bundle : Bundle) : Prop where
  count : bundle.globals.length ≤ 131072
  globals : ∀ name ∈ bundle.globals, name.toByteArray.IsValidUTF8
  capabilities : ∀ name ∈ bundle.capabilities, name.toByteArray.IsValidUTF8

theorem portable_iff {bundle : Bundle} (verified : bundle.verify = .ok ()) :
    bundle.Portable ↔ Legible bundle.globals := by
  unfold Legible
  simp only [Glyph.isValidText_iff]
  refine ⟨fun portable => ⟨portable.count, portable.globals⟩, fun legible => ?_⟩
  refine ⟨legible.1, legible.2, fun name listed => ?_⟩
  exact (Glyph.isValidText_iff name).mp ((legible_capabilities verified).2 name listed)

/-- However items are written, as long as they can be read back: a verified bundle is read back from
its bytes if and only if it can be passed on, and no other bundle has the same bytes then. -/
theorem decodeWith_encode_iff (codec : Cbor.Codec) {bundle : Bundle} (measured : bundle.Measured)
    (verified : bundle.verify = .ok ()) :
    (decodeWith codec.decode? (codec.encode bundle.toItem) = .ok bundle ↔ bundle.Portable) ∧
      (bundle.Portable → ∀ other : Bundle, other.Measured →
        codec.encode other.toItem = codec.encode bundle.toItem → other = bundle) := by
  have read : bundle.Portable →
      decodeWith codec.decode? (codec.encode bundle.toItem) = .ok bundle := by
    intro portable
    exact decodeWith_of_legible codec measured verified ((portable_iff verified).mp portable)
      (legible_capabilities verified)
  refine ⟨⟨fun decoded => ?_, read⟩, fun portable other otherMeasured same => ?_⟩
  · rw [portable_iff verified]
    by_contra illegible
    rw [decodeWith_of_not_legible codec measured illegible] at decoded
    cases decoded
  · have decoded := read portable
    rw [← same] at decoded
    exact (eq_of_decodeWith codec otherMeasured decoded).symm

/-- A verified bundle is read back from its bytes as it was, its version, its digests, its code and
its names, if and only if it can be passed on. No other bundle has the same bytes then. -/
theorem decode_encode_iff {bundle : Bundle} (measured : bundle.Measured)
    (verified : bundle.verify = .ok ()) :
    (decode bundle.encode = .ok bundle ↔ bundle.Portable) ∧
      (bundle.Portable → ∀ other : Bundle, other.Measured → other.encode = bundle.encode →
        other = bundle) :=
  decodeWith_encode_iff .canonical measured verified

/-- A bundle that displays nothing but may do so, with a global whose name is a letter of two
bytes. -/
def accented : Bundle :=
  Bundle.new [] (Instr.encodeAll [.getGlobal 5, .pop]).toArray (predefinedNames ++ [[0xC3, 0xA9]])

theorem decode_encode_iff_accented :
    accented.capabilities = [utf8 "Output"] ∧ decode accented.encode = .ok accented := by
  have table : globalsFault? (predefinedNames ++ [[0xC3, 0xA9]]) = none := by decide +kernel
  have targets : targetFault? (Instr.encodeAll [.getGlobal 5, .pop]).toArray = none := by
    decide +kernel
  have verified : accented.verify = .ok () := verify_new table targets
  have program : Program.Measured
      ⟨(Instr.encodeAll [.getGlobal 5, .pop]).toArray, predefinedNames ++ [[0xC3, 0xA9]], 0⟩ := by
    exact ⟨by decide, by decide, by decide⟩
  have legible : Legible accented.globals := by
    rw [accented, globals_new]
    decide +kernel
  have portable := (portable_iff verified).mpr legible
  exact ⟨by decide +kernel, (decode_encode_iff (program.bundle _) verified).1.mpr portable⟩

end Bundle

end ClosureLisp
