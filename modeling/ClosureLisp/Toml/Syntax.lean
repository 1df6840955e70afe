import ClosureLisp.Toml.Text

/-!
# Reading TOML

A document is a row of statements, one a line, with comments and blank lines between them.
The text has to be UTF-8 without control characters other than tabs and line ends.
-/

namespace ClosureLisp.Toml

/-- A text without the blanks at its start. -/
def skipSpaces (text : Bytes) : Bytes :=
  text.dropWhile isSpace

/-- A text without the white space and the comments at its start; the flag says that a comment
goes on. -/
def skipLines : (inComment : Bool) → Bytes → Bytes
  | _, [] => []
  | true, byte :: rest => skipLines (!isLineEnd byte) rest
  | false, byte :: rest =>
      if isSpace byte || isLineEnd byte then skipLines false rest
      else if byte = Bytes.ascii '#' then skipLines true rest
      else byte :: rest

/-- Whether a byte can stand in a key without quotes. -/
def isBareByte (byte : UInt8) : Bool :=
  isDigit byte || (97 ≤ byte && byte ≤ 122) || (65 ≤ byte && byte ≤ 90) ||
    isOneOf ['_', '-'] byte

/-- One part of a dotted key. -/
def readKeyPart (text : Bytes) : Parsed Key :=
  match text with
  | 34 :: rest => readBasic rest
  | 39 :: rest => readLiteral rest
  | text =>
      let (name, rest) := spanOf isBareByte text
      if name.isEmpty then none else some (name, rest)

/-- A dotted key up to a closing byte. -/
def readKey (closing : UInt8) : (fuel : Nat) → Bytes → Parsed KeyPath
  | 0, _ => none
  | fuel + 1, text =>
      match readKeyPart (skipSpaces text) with
      | none => none
      | some (part, rest) =>
          match skipSpaces rest with
          | [] => none
          | byte :: rest =>
              if byte = closing then some ([part], rest)
              else if byte = Bytes.ascii '.' then
                (readKey closing fuel rest).map fun (parts, rest) => (part :: parts, rest)
              else none

/-- A truth value. -/
def readBoolean (text : Bytes) : Parsed Literal :=
  match Bytes.dropLeading? (utf8 "true") text with
  | some rest => some (.boolean true, rest)
  | none => (Bytes.dropLeading? (utf8 "false") text).map (.boolean false, ·)

/-- A value that holds no other values. -/
def readScalar (text : Bytes) : Parsed Literal :=
  match text with
  | [] => none
  | byte :: rest =>
      if byte = quote || byte = apostrophe then
        (readString text).map fun (content, rest) => (.text content, rest)
      else if isDigit byte then readUnsigned text
      else if isOneOf ['+', '-'] byte then readSigned byte rest
      else if isOneOf ['i', 'n'] byte then readSpecial text
      else readBoolean text

mutual

/-- A value. -/
def readValue : (fuel : Nat) → Bytes → Parsed Literal
  | 0, _ => none
  | fuel + 1, text =>
      match skipSpaces text with
      | 91 :: rest => (readItems fuel rest).map fun (items, rest) => (.array items, rest)
      | 123 :: rest =>
          (readEntries fuel rest).map fun (entries, rest) => (.table entries, rest)
      | text => readScalar text

/-- The items of an array, behind its opening bracket or a comma. -/
def readItems : (fuel : Nat) → Bytes → Parsed (List Literal)
  | 0, _ => none
  | fuel + 1, text =>
      match skipLines false text with
      | 93 :: rest => some ([], rest)
      | text =>
          match readValue fuel text with
          | none => none
          | some (item, rest) =>
              match skipLines false rest with
              | 44 :: rest => (readItems fuel rest).map fun (items, rest) => (item :: items, rest)
              | 93 :: rest => some ([item], rest)
              | _ => none

/-- The entries of a table between braces, behind its opening brace or a comma. -/
def readEntries : (fuel : Nat) → Bytes → Parsed (List (KeyPath × Literal))
  | 0, _ => none
  | fuel + 1, text =>
      match skipLines false text with
      | 125 :: rest => some ([], rest)
      | text =>
          match readKey (Bytes.ascii '=') fuel text with
          | none => none
          | some (path, rest) =>
              match readValue fuel rest with
              | none => none
              | some (value, rest) =>
                  match skipLines false rest with
                  | 44 :: rest =>
                      (readEntries fuel rest).map fun (entries, rest) =>
                        ((path, value) :: entries, rest)
                  | 125 :: rest => some ([(path, value)], rest)
                  | _ => none

end

/-- Whether nothing but blanks and a comment stands before the end of a line. -/
def endsLine (text : Bytes) : Bool :=
  match skipSpaces text with
  | [] => true
  | byte :: _ => isLineEnd byte || byte = Bytes.ascii '#'

/-- A header that adds a table to an array of tables, behind its brackets. -/
def readAddTable (text : Bytes) : Parsed Statement :=
  match readKey (Bytes.ascii ']') text.length text with
  | some (path, 93 :: rest) => some (.addTable path, rest)
  | _ => none

/-- A header that opens a table, behind its bracket. -/
def readOpenTable (text : Bytes) : Parsed Statement :=
  (readKey (Bytes.ascii ']') text.length text).map fun (path, rest) => (.openTable path, rest)

/-- An assignment. -/
def readAssignment (text : Bytes) : Parsed Statement :=
  match readKey (Bytes.ascii '=') text.length text with
  | none => none
  | some (path, rest) =>
      (readValue (2 * rest.length + 2) rest).map fun (value, rest) => (.assign path value, rest)

/-- A statement. -/
def readStatement (text : Bytes) : Parsed Statement :=
  match text with
  | 91 :: 91 :: rest => readAddTable rest
  | 91 :: rest => readOpenTable rest
  | text => readAssignment text

/-- All statements of a text. -/
def readStatements : (fuel : Nat) → Bytes → Option (List Statement)
  | 0, _ => none
  | fuel + 1, text =>
      match skipLines false text with
      | [] => some []
      | text =>
          match readStatement text with
          | none => none
          | some (statement, rest) =>
              if endsLine rest then (readStatements fuel rest).map (statement :: ·) else none

/-- Whether a text has no control characters other than tabs and line ends, and no carriage
return without a line feed behind it. -/
def hasPlainControls : Bytes → Bool
  | [] => true
  | 13 :: rest => rest.head? = some 10 && hasPlainControls rest
  | byte :: rest => (32 ≤ byte && byte ≠ 127 || byte = 9 || byte = 10) && hasPlainControls rest

/-- A text without a byte-order mark. -/
def dropMark (text : Bytes) : Bytes :=
  match text with
  | 0xEF :: 0xBB :: 0xBF :: rest => rest
  | 0xFF :: 0xFE :: rest => rest
  | 0xFE :: 0xFF :: rest => rest
  | text => text

/-- The statements of a document, if it is well-formed. -/
def statements? (text : Bytes) : Option (List Statement) :=
  let text := dropMark text
  if Glyph.isValidText text && hasPlainControls text then readStatements (text.length + 1) text
  else none

end ClosureLisp.Toml
