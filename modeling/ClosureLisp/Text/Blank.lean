import ClosureLisp.Text.Glyph

/-!
# Blanks

The white space of the language and of its command line: the code points with the
property White_Space. `trim` drops blanks at both ends of a text.
-/

namespace ClosureLisp

/-- Whether a code point is white space. -/
def isBlank (code : Nat) : Bool :=
  (0x09 ≤ code && code ≤ 0x0D) || code = 0x20 || code = 0x85 || code = 0xA0 ||
    code = 0x1680 || (0x2000 ≤ code && code ≤ 0x200A) || code = 0x2028 || code = 0x2029 ||
    code = 0x202F || code = 0x205F || code = 0x3000

namespace Glyph

/-- A text without the blanks at its two ends. -/
def trim (text : Bytes) : Bytes :=
  let leading := (ofBytes text).dropWhile fun glyph => isBlank glyph.code
  toBytes (leading.reverse.dropWhile fun glyph => isBlank glyph.code).reverse

end Glyph

end ClosureLisp
