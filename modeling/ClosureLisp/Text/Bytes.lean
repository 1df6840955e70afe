/-!
# Bytes

Source texts, names, messages and binary data are finite sequences of bytes. A
text need not be valid UTF-8, so bytes, not characters, are the common currency;
`utf8` turns a fixed text of the library into bytes. The module also holds the
number formats used in messages and listings and the big-endian words of the
binary formats.
-/

namespace ClosureLisp

/-- Raw text or data: a finite sequence of bytes. -/
abbrev Bytes := List UInt8

/-- The UTF-8 bytes of a fixed text. -/
def utf8 (text : String) : Bytes :=
  text.toUTF8.data.toList

namespace Bytes

/-- The byte of an ASCII character. -/
def ascii (char : Char) : UInt8 :=
  char.toNat.toUInt8

/-- The bytes of a list of ASCII characters. -/
def ofAscii (chars : List Char) : Bytes :=
  chars.map ascii

/-- A natural number in decimal digits. -/
def decimalNat (number : Nat) : Bytes :=
  ofAscii (Nat.toDigits 10 number)

/-- An integer in decimal digits, with a minus sign in front of a negative one. -/
def decimal : Int → Bytes
  | .ofNat number => decimalNat number
  | .negSucc number => ascii '-' :: decimalNat (number + 1)

/-- `count` copies of a byte. -/
def repeated (count : Nat) (byte : UInt8) : Bytes :=
  List.replicate count byte

/-- Fills a text with a byte on its left up to a width. -/
def padLeft (width : Nat) (byte : UInt8) (text : Bytes) : Bytes :=
  repeated (width - text.length) byte ++ text

/-- Fills a text with blanks on its right up to a width. -/
def padRight (width : Nat) (text : Bytes) : Bytes :=
  text ++ repeated (width - text.length) (ascii ' ')

/-- An integer filled with zeros up to a width, its sign first and counted in the width. -/
def zeroPadded (width : Nat) : Int → Bytes
  | .ofNat number => padLeft width (ascii '0') (decimalNat number)
  | .negSucc number =>
      ascii '-' :: padLeft (width - 1) (ascii '0') (decimalNat (number + 1))

/-- One lower-case hexadecimal digit. -/
def hexDigit (number : Nat) : UInt8 :=
  if number < 10 then (48 + number).toUInt8 else (87 + number).toUInt8

/-- One upper-case hexadecimal digit. -/
def upperHexDigit (number : Nat) : UInt8 :=
  if number < 10 then (48 + number).toUInt8 else (55 + number).toUInt8

/-- A byte as two lower-case hexadecimal digits. -/
def hexByte (byte : UInt8) : Bytes :=
  [hexDigit (byte.toNat / 16), hexDigit (byte.toNat % 16)]

/-- A byte as two upper-case hexadecimal digits. -/
def upperHexByte (byte : UInt8) : Bytes :=
  [upperHexDigit (byte.toNat / 16), upperHexDigit (byte.toNat % 16)]

/-- The lower-case hexadecimal form of data, two digits a byte. -/
def hex (data : Bytes) : Bytes :=
  data.flatMap hexByte

/-- A number in lower-case hexadecimal, cut to the given number of digits. -/
def hexNat : (digits : Nat) → (number : Nat) → Bytes
  | 0, _ => []
  | digits + 1, number => hexNat digits (number / 16) ++ [hexDigit (number % 16)]

/-- A sixteen-bit word, most significant byte first. -/
def word16 (word : UInt16) : Bytes :=
  [(word >>> 8).toUInt8, word.toUInt8]

/-- A thirty-two-bit word, most significant byte first. -/
def word32 (word : UInt32) : Bytes :=
  [(word >>> 24).toUInt8, (word >>> 16).toUInt8, (word >>> 8).toUInt8, word.toUInt8]

/-- A sixty-four-bit word, most significant byte first. -/
def word64 (word : UInt64) : Bytes :=
  word32 (word >>> 32).toUInt32 ++ word32 word.toUInt32

/-- The word whose four bytes, most significant first, are given. -/
def toWord32 (first second third fourth : UInt8) : UInt32 :=
  (first.toUInt32 <<< 24) ||| (second.toUInt32 <<< 16) ||| (third.toUInt32 <<< 8) |||
    fourth.toUInt32

/-- Texts joined with a separator between neighbours. -/
def join (separator : Bytes) : List Bytes → Bytes
  | [] => []
  | [text] => text
  | text :: next :: rest => text ++ separator ++ join separator (next :: rest)

/-- A list of texts in brackets, blanks between them. -/
def bracketed (texts : List Bytes) : Bytes :=
  ascii '[' :: join [ascii ' '] texts ++ [ascii ']']

/-- The parts of a text between occurrences of a byte; there is always at least one. -/
def splitOn (separator : UInt8) : Bytes → List Bytes
  | [] => [[]]
  | byte :: rest =>
      match splitOn separator rest with
      | [] => [[]]
      | part :: parts =>
          if byte = separator then [] :: part :: parts else (byte :: part) :: parts

/-- What is left of a text after a leading part, if it starts with it. -/
def dropLeading? : (leading text : Bytes) → Option Bytes
  | [], text => some text
  | _ :: _, [] => none
  | first :: leading, byte :: text =>
      if first = byte then dropLeading? leading text else none

/-- Whether a text ends with the given part. -/
def endsWith (text part : Bytes) : Bool :=
  (dropLeading? part.reverse text.reverse).isSome

/-- The byte-wise dictionary order: a proper leading part comes first. -/
def lexLE : Bytes → Bytes → Bool
  | [], _ => true
  | _ :: _, [] => false
  | left :: lefts, right :: rights =>
      if left < right then true else if right < left then false else lexLE lefts rights

end Bytes

end ClosureLisp
