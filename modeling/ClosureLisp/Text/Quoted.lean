import ClosureLisp.Text.Glyph
import ClosureLisp.Text.Printable

/-!
# Quoted text

Tokens and messages show a text between double quotes. Printable characters stand for
themselves, the quote and the backslash are escaped, control characters have their
letter or two hexadecimal digits, other code points four or eight digits, and a byte
outside any well-formed character two digits.
-/

namespace ClosureLisp.Quoted

/-- The letter that names a control character after a backslash. -/
def controlLetter? (code : Nat) : Option Char :=
  match code with
  | 7 => some 'a'
  | 8 => some 'b'
  | 9 => some 't'
  | 10 => some 'n'
  | 11 => some 'v'
  | 12 => some 'f'
  | 13 => some 'r'
  | _ => none

/-- One glyph as it stands between quotes. -/
def escape (glyph : Glyph) : Bytes :=
  if glyph.isStray then utf8 "\\x" ++ Bytes.hex glyph.bytes
  else if glyph.code = 0x22 || glyph.code = 0x5C then utf8 "\\" ++ glyph.bytes
  else if Printable.contains glyph.code then glyph.bytes
  else
    match controlLetter? glyph.code with
    | some letter => utf8 "\\" ++ [Bytes.ascii letter]
    | none =>
        if glyph.code < 0x80 then utf8 "\\x" ++ Bytes.hexNat 2 glyph.code
        else if glyph.code < 0x10000 then utf8 "\\u" ++ Bytes.hexNat 4 glyph.code
        else utf8 "\\U" ++ Bytes.hexNat 8 glyph.code

/-- A text between double quotes. -/
def quote (text : Bytes) : Bytes :=
  utf8 "\"" ++ (Glyph.ofBytes text).flatMap escape ++ utf8 "\""

end ClosureLisp.Quoted
