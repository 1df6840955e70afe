import ClosureLisp.Text.Glyph
import ClosureLisp.Toml.Number

/-!
# TOML strings

The four kinds of strings: on one line or on several, with escapes or literal. A string is
first cut out of the text and then decoded. A newline right behind the opening of a string
on several lines does not count, and a backslash at the end of a line joins it with the
next text.
-/

namespace ClosureLisp.Toml

/-- The double quote. -/
def quote : UInt8 := Bytes.ascii '"'

/-- The single quote. -/
def apostrophe : UInt8 := 39

/-- The backslash. -/
def backslash : UInt8 := Bytes.ascii '\\'

/-- Whether a byte is a blank or a tab. -/
def isSpace (byte : UInt8) : Bool :=
  byte == 32 || byte == 9

/-- Whether a byte is part of a line end. -/
def isLineEnd (byte : UInt8) : Bool :=
  byte == 10 || byte == 13

/-- The character whose code is written with a number of hexadecimal digits. -/
def codeEscape? (count : Nat) (text : Bytes) : Option (Bytes × Nat) :=
  let digits := text.take count
  let code := numberOf 16 digits
  if digits.length = count ∧ digits.all isHexDigit ∧
      (code < 0xD800 ∨ 0xDFFF < code ∧ code ≤ 0x10FFFF) then
    some (Glyph.encode code, count + 1)
  else none

/-- What the text behind a backslash stands for, and how many bytes of it count. -/
def escape? : Bytes → Option (Bytes × Nat)
  | [] => none
  | mark :: rest =>
      match Char.ofNat mark.toNat with
      | 'b' => some ([8], 1)
      | 't' => some ([9], 1)
      | 'n' => some ([10], 1)
      | 'f' => some ([12], 1)
      | 'r' => some ([13], 1)
      | 'e' => some ([27], 1)
      | '"' => some ([quote], 1)
      | '\\' => some ([backslash], 1)
      | 'x' => codeEscape? 2 rest
      | 'u' => codeEscape? 4 rest
      | 'U' => codeEscape? 8 rest
      | _ => none

/-- A text with its escapes replaced. -/
def unescape : Bytes → Option Bytes
  | [] => some []
  | byte :: rest =>
      if byte ≠ backslash then (unescape rest).map (byte :: ·)
      else
        match escape? rest with
        | none => none
        | some (bytes, count) => (unescape (rest.drop count)).map (bytes ++ ·)
termination_by text => text.length
decreasing_by all_goals simp only [List.length_cons, List.length_drop]; omega

/-- The text up to a closing quote on the same line; behind a backslash, if escapes count, a
byte is passed over. -/
def lineContent (closing : UInt8) (escapes : Bool) : Bytes → Parsed Bytes
  | [] => none
  | byte :: rest =>
      if byte = closing then some ([], rest)
      else if isLineEnd byte then none
      else if escapes ∧ byte = backslash then
        match rest with
        | [] => none
        | taken :: rest =>
            (lineContent closing escapes rest).map fun (content, rest) =>
              (byte :: taken :: content, rest)
      else
        (lineContent closing escapes rest).map fun (content, rest) => (byte :: content, rest)

/-- The number of quotes that may stand directly in front of the three closing ones. -/
def spareQuotes : Nat := 2

/-- The text up to three closing quotes, with the quotes in front of them that still belong to
it: at most `spare`, which is one more than usual directly behind an escaped backslash. The
count says how many quotes are directly in front. -/
def blockContent (closing : UInt8) (escapes : Bool) :
    (spare quotes : Nat) → Bytes → Parsed Bytes
  | spare, quotes, [] =>
      if 3 ≤ quotes ∧ quotes ≤ spare + 3 then some (Bytes.repeated (quotes - 3) closing, [])
      else none
  | spare, quotes, byte :: rest =>
      if byte = closing then blockContent closing escapes spare (quotes + 1) rest
      else if 3 ≤ quotes then
        if quotes ≤ spare + 3 then some (Bytes.repeated (quotes - 3) closing, byte :: rest)
        else none
      else
        let before := Bytes.repeated quotes closing
        if escapes ∧ byte = backslash then
          match rest with
          | [] => none
          | taken :: rest =>
              let spare := if taken = backslash then spareQuotes + 1 else spareQuotes
              (blockContent closing escapes spare 0 rest).map fun (content, rest) =>
                (before ++ byte :: taken :: content, rest)
        else
          (blockContent closing escapes spareQuotes 0 rest).map fun (content, rest) =>
            (before ++ byte :: content, rest)

/-- A text without a newline at its start. -/
def dropFirstLineEnd : Bytes → Bytes
  | 10 :: rest => rest
  | 13 :: 10 :: rest => rest
  | text => text

/-- Drops the white space from a backslash at the end of a line up to the next text. -/
def joinLines : Bytes → Bytes
  | [] => []
  | byte :: rest =>
      if byte ≠ backslash then byte :: joinLines rest
      else if rest.head? = some backslash then byte :: backslash :: joinLines (rest.drop 1)
      else
        let white := rest.takeWhile fun byte => isSpace byte || isLineEnd byte
        if white.contains 10 then joinLines (rest.drop white.length)
        else byte :: joinLines rest
termination_by text => text.length
decreasing_by all_goals simp only [List.length_cons, List.length_drop]; omega

/-- A string on one line with escapes, behind its opening quote. -/
def readBasic (text : Bytes) : Parsed Bytes :=
  match lineContent quote true text with
  | none => none
  | some (content, rest) => (unescape content).map (·, rest)

/-- A literal string on one line, behind its opening quote. -/
def readLiteral (text : Bytes) : Parsed Bytes :=
  lineContent apostrophe false text

/-- A string on several lines with escapes, behind its opening quotes. -/
def readBasicBlock (text : Bytes) : Parsed Bytes :=
  match blockContent quote true spareQuotes 0 text with
  | none => none
  | some (content, rest) => (unescape (joinLines (dropFirstLineEnd content))).map (·, rest)

/-- A literal string on several lines, behind its opening quotes. -/
def readLiteralBlock (text : Bytes) : Parsed Bytes :=
  (blockContent apostrophe false spareQuotes 0 text).map fun (content, rest) =>
    (dropFirstLineEnd content, rest)

/-- A string of any kind, if the text starts with one. -/
def readString (text : Bytes) : Parsed Bytes :=
  match text with
  | 34 :: 34 :: 34 :: rest => readBasicBlock rest
  | 34 :: rest => readBasic rest
  | 39 :: 39 :: 39 :: rest => readLiteralBlock rest
  | 39 :: rest => readLiteral rest
  | _ => none

end ClosureLisp.Toml
