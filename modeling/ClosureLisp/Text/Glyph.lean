import ClosureLisp.Text.Bytes

/-!
# Glyphs

A glyph is one decoded character together with the bytes it was read from. Text is
decoded as UTF-8; a byte that starts no well-formed character is a glyph of its own,
with the replacement code point and that one byte. Decoding therefore never fails
and never loses a byte: the bytes of the glyphs, put together, are the text.
-/

namespace ClosureLisp

/-- One decoded character with the bytes it stands for. -/
structure Glyph where
  code : Nat
  bytes : Bytes
  deriving DecidableEq, Repr

namespace Glyph

/-- The code point that stands for a byte outside any well-formed character. -/
def replacement : Nat := 0xFFFD

/-- The glyph of a byte outside any well-formed character. -/
def stray (byte : UInt8) : Glyph :=
  ⟨replacement, [byte]⟩

/-- Whether a byte can continue a character. -/
def isTail (byte : UInt8) : Bool :=
  0x80 ≤ byte && byte ≤ 0xBF

/-- The low six bits that a continuing byte contributes. -/
def tailBits (byte : UInt8) : Nat :=
  byte.toNat % 64

/-- Whether two bytes form a character. -/
def isPair (lead second : UInt8) : Bool :=
  0xC2 ≤ lead && lead ≤ 0xDF && isTail second

/-- Whether three bytes form a character: neither overlong nor a surrogate. -/
def isTriple (lead second third : UInt8) : Bool :=
  0xE0 ≤ lead && lead ≤ 0xEF && isTail second && isTail third &&
    !(lead = 0xE0 && second < 0xA0) && !(lead = 0xED && 0x9F < second)

/-- Whether four bytes form a character: neither overlong nor above the last code point. -/
def isQuadruple (lead second third fourth : UInt8) : Bool :=
  0xF0 ≤ lead && lead ≤ 0xF4 && isTail second && isTail third && isTail fourth &&
    !(lead = 0xF0 && second < 0x90) && !(lead = 0xF4 && 0x8F < second)

/-- The first glyph of a non-empty text, and the text behind it. -/
def first (lead : UInt8) (rest : Bytes) : Glyph × Bytes :=
  if lead < 0x80 then (⟨lead.toNat, [lead]⟩, rest)
  else
    match rest with
    | [] => (stray lead, rest)
    | second :: rest₁ =>
        if isPair lead second then
          (⟨(lead.toNat % 32) * 64 + tailBits second, [lead, second]⟩, rest₁)
        else
          match rest₁ with
          | [] => (stray lead, rest)
          | third :: rest₂ =>
              if isTriple lead second third then
                (⟨(lead.toNat % 16) * 4096 + tailBits second * 64 + tailBits third,
                  [lead, second, third]⟩, rest₂)
              else
                match rest₂ with
                | [] => (stray lead, rest)
                | fourth :: rest₃ =>
                    if isQuadruple lead second third fourth then
                      (⟨(lead.toNat % 8) * 262144 + tailBits second * 4096 +
                          tailBits third * 64 + tailBits fourth,
                        [lead, second, third, fourth]⟩, rest₃)
                    else (stray lead, rest)

theorem first_append (lead : UInt8) (rest : Bytes) :
    (first lead rest).1.bytes ++ (first lead rest).2 = lead :: rest := by
  unfold first
  repeat' split
  all_goals simp [stray]

theorem first_length_pos (lead : UInt8) (rest : Bytes) :
    0 < (first lead rest).1.bytes.length := by
  unfold first
  repeat' split
  all_goals simp [stray]

theorem first_rest_length (lead : UInt8) (rest : Bytes) :
    (first lead rest).2.length < (lead :: rest).length := by
  have whole := congrArg List.length (first_append lead rest)
  have positive := first_length_pos lead rest
  rw [List.length_append] at whole
  omega

/-- The glyphs of a text. -/
def ofBytes : Bytes → List Glyph
  | [] => []
  | lead :: rest => (first lead rest).1 :: ofBytes (first lead rest).2
termination_by text => text.length
decreasing_by exact first_rest_length lead rest

/-- The bytes of a run of glyphs. -/
def toBytes (glyphs : List Glyph) : Bytes :=
  glyphs.flatMap bytes

theorem toBytes_ofBytes (text : Bytes) : toBytes (ofBytes text) = text := by
  fun_induction ofBytes text with
  | case1 => rfl
  | case2 lead rest ih =>
      have whole := first_append lead rest
      simp only [toBytes, List.flatMap_cons] at ih ⊢
      rw [ih, whole]

/-- Whether a glyph is a byte outside any well-formed character. -/
def isStray (glyph : Glyph) : Bool :=
  glyph.code = replacement && glyph.bytes.length = 1

/-- Whether a text is well-formed UTF-8. -/
def isValidText (text : Bytes) : Bool :=
  (ofBytes text).all fun glyph => !glyph.isStray

/-- The UTF-8 bytes of a code point. -/
def encode (code : Nat) : Bytes :=
  if code < 0x80 then [code.toUInt8]
  else if code < 0x800 then [(0xC0 + code / 64).toUInt8, (0x80 + code % 64).toUInt8]
  else if code < 0x10000 then
    [(0xE0 + code / 4096).toUInt8, (0x80 + code / 64 % 64).toUInt8, (0x80 + code % 64).toUInt8]
  else
    [(0xF0 + code / 262144).toUInt8, (0x80 + code / 4096 % 64).toUInt8,
      (0x80 + code / 64 % 64).toUInt8, (0x80 + code % 64).toUInt8]

end Glyph

end ClosureLisp
