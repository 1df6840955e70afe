import ClosureLisp.Toml.Literal
import ClosureLisp.Word

/-!
# TOML numbers, dates and times

How far a number, a date or a time reaches in a text, and whether what was found is one.
Integers are kept and have to fit sixty-four bits; a number with a fraction has to be
smaller than the largest double; dates have to exist in the calendar.
-/

namespace ClosureLisp.Toml

/-- Whether a byte is one of some characters. -/
def isOneOf (chars : List Char) (byte : UInt8) : Bool :=
  chars.any fun char => Bytes.ascii char == byte

/-- Whether a byte is a decimal digit. -/
def isDigit (byte : UInt8) : Bool :=
  48 ≤ byte && byte ≤ 57

/-- Whether a byte is a hexadecimal digit. -/
def isHexDigit (byte : UInt8) : Bool :=
  isDigit byte || (97 ≤ byte && byte ≤ 102) || (65 ≤ byte && byte ≤ 70)

/-- The value of a hexadecimal digit. -/
def digitValue (byte : UInt8) : Nat :=
  if isDigit byte then byte.toNat - 48
  else if 97 ≤ byte then byte.toNat - 87
  else byte.toNat - 55

/-- The number with the given digits in a base. -/
def numberOf (base : Nat) (digits : Bytes) : Nat :=
  digits.foldl (fun number digit => base * number + digitValue digit) 0

/-- The underscore, which may stand between digits. -/
def underscore : UInt8 := Bytes.ascii '_'

/-- Whether every underscore has a digit on both sides; the flag says whether a digit is in
front. -/
def underscoresOk : (digitBefore : Bool) → Bytes → Bool
  | digitBefore, [] => digitBefore
  | digitBefore, byte :: rest =>
      (byte != underscore || digitBefore) && underscoresOk (isHexDigit byte) rest

/-- A text without underscores. -/
def withoutUnderscores (text : Bytes) : Bytes :=
  text.filter (· != underscore)

/-- A number without its sign. -/
def unsigned (text : Bytes) : Bytes :=
  match text with
  | [] => []
  | byte :: rest => if isOneOf ['+', '-'] byte then rest else text

/-- Whether a number starts with a zero that it does not need. -/
def hasLeadingZero (text : Bytes) : Bool :=
  (unsigned text).length > 1 && (unsigned text).head? == some 48

/-- The integer with the given sign and size, if it fits sixty-four bits. -/
def integer? (negative : Bool) (size : Nat) : Option Literal :=
  (Word.signed? negative size).map .integer

/-- The integer that decimal digits, perhaps with a sign and underscores, describe. -/
def decimalInteger? (text : Bytes) : Option Literal :=
  if !underscoresOk false text || hasLeadingZero text then none
  else integer? (text.head? == some 45) (numberOf 10 (withoutUnderscores (unsigned text)))

/-- The integer that digits of another base describe. -/
def basedInteger? (base : Nat) (digits : Bytes) : Option Literal :=
  if underscoresOk false digits then integer? false (numberOf base (withoutUnderscores digits))
  else none

/-! ## Fractions -/

/-- A decimal fraction: its digits as one number and the power of ten behind it. -/
structure Fraction where
  digits : Nat
  exponent : Int

/-- The exponent that follows the mantissa of a fraction, if it is well-formed. -/
def exponent? (text : Bytes) : Option Int :=
  match text with
  | [] => some 0
  | mark :: rest =>
      let digits := unsigned rest
      if !isOneOf ['e', 'E'] mark || digits.isEmpty || !digits.all isDigit then none
      else
        let size : Int := numberOf 10 digits
        some (if rest.head? == some 45 then -size else size)

/-- The fraction that a text without underscores describes. -/
def fraction? (text : Bytes) : Option Fraction :=
  let body := unsigned text
  let whole := body.takeWhile isDigit
  let rest := body.drop whole.length
  if whole.isEmpty then none
  else
    match rest with
    | 46 :: rest =>
        let part := rest.takeWhile isDigit
        if part.isEmpty then none
        else
          (exponent? (rest.drop part.length)).map fun exponent =>
            ⟨numberOf 10 (whole ++ part), exponent - part.length⟩
    | rest => (exponent? rest).map fun exponent => ⟨numberOf 10 whole, exponent⟩

/-- Whether a fraction rounds to a finite double: it lies below the middle between the largest
double and the next power of two. -/
def Fraction.isFinite (fraction : Fraction) : Bool :=
  let limit := Nat.pow 2 1024 - Nat.pow 2 970
  if fraction.digits = 0 then true
  else if 400 < fraction.exponent then false
  else if 0 ≤ fraction.exponent then
    fraction.digits * Nat.pow 10 fraction.exponent.toNat < limit
  else if (-fraction.exponent).toNat > (Nat.toDigits 10 fraction.digits).length then true
  else fraction.digits < limit * Nat.pow 10 (-fraction.exponent).toNat

/-- The parts of a number between its point and its exponent mark. -/
def fractionParts : Bytes → List Bytes
  | [] => [[]]
  | byte :: rest =>
      match fractionParts rest with
      | [] => [[byte]]
      | part :: parts =>
          if isOneOf ['.', 'e', 'E'] byte then [] :: part :: parts else (byte :: part) :: parts

/-- Whether a text is a number with a fraction or an exponent. -/
def isFraction (text : Bytes) : Bool :=
  let parts := (fractionParts text).filter fun part => !part.isEmpty
  parts.all (underscoresOk false) && !parts.head?.any hasLeadingZero &&
    (fraction? (withoutUnderscores text)).any Fraction.isFinite

/-! ## Dates and times -/

/-- Two digits and the rest. -/
def twoDigits? : Bytes → Option (Nat × Bytes)
  | first :: second :: rest =>
      if isDigit first && isDigit second then some (numberOf 10 [first, second], rest) else none
  | _ => none

/-- The number of days of a month. -/
def daysIn (year month : Nat) : Nat :=
  if month = 2 then
    if year % 4 = 0 ∧ (year % 100 ≠ 0 ∨ year % 400 = 0) then 29 else 28
  else if month = 4 ∨ month = 6 ∨ month = 9 ∨ month = 11 then 30
  else 31

/-- What follows a date at the start of a text. -/
def afterDate? (text : Bytes) : Option Bytes := do
  let (century, text) ← twoDigits? text
  let (years, text) ← twoDigits? text
  let text ← Bytes.dropLeading? (utf8 "-") text
  let (month, text) ← twoDigits? text
  let text ← Bytes.dropLeading? (utf8 "-") text
  let (day, text) ← twoDigits? text
  if 1 ≤ month ∧ month ≤ 12 ∧ 1 ≤ day ∧ day ≤ daysIn (100 * century + years) month then
    some text
  else none

/-- What follows the seconds and their fraction, if there are any, at the start of a text. -/
def afterSeconds? (text : Bytes) : Option Bytes :=
  match text with
  | 58 :: text => do
      let (second, text) ← twoDigits? text
      if 60 ≤ second then none
      else
        match text with
        | 46 :: text =>
            if text.head?.any isDigit then some (text.dropWhile isDigit) else none
        | text => some text
  | text => some text

/-- What follows a time at the start of a text. -/
def afterTime? (text : Bytes) : Option Bytes := do
  let (hour, text) ← twoDigits? text
  let text ← Bytes.dropLeading? (utf8 ":") text
  let (minute, text) ← twoDigits? text
  if hour < 24 ∧ minute < 60 then afterSeconds? text else none

/-- Whether a text is empty or an offset from universal time. -/
def isOffset (text : Bytes) : Bool :=
  match text with
  | [] => true
  | mark :: rest =>
      if isOneOf ['Z', 'z'] mark then rest.isEmpty
      else
        isOneOf ['+', '-'] mark &&
          (do
            let (hours, rest) ← twoDigits? rest
            let rest ← Bytes.dropLeading? (utf8 ":") rest
            let (minutes, rest) ← twoDigits? rest
            some (rest.isEmpty && hours ≤ 24 && minutes ≤ 60)).getD false

/-- Whether a text is a date, a time, or both with or without an offset. -/
def isMoment (text : Bytes) : Bool :=
  match afterDate? text with
  | some [] => true
  | some (mark :: rest) => isOneOf ['T', 't', ' '] mark && (afterTime? rest).any isOffset
  | none => afterTime? text == some []

/-! ## Reading -/

/-- A value and the text behind it. -/
abbrev Parsed (α : Type) := Option (α × Bytes)

/-- The longest leading part of such bytes, and the rest. -/
def spanOf (isPart : UInt8 → Bool) (text : Bytes) : Bytes × Bytes :=
  (text.takeWhile isPart, text.dropWhile isPart)

/-- A number with a fraction that starts with the given bytes. -/
def readFraction (start text : Bytes) : Parsed Literal :=
  let (tail, rest) :=
    spanOf (fun byte => isDigit byte || isOneOf ['_', '.', '-', '+', 'e', 'E'] byte) text
  if isFraction (start ++ tail) then some (.float, rest) else none

/-- A decimal number that starts with the given bytes. -/
def readDecimal (start text : Bytes) : Parsed Literal :=
  let (digits, rest) := spanOf (fun byte => isDigit byte || byte == underscore) text
  if rest.head?.any (isOneOf ['.', 'e', 'E']) then readFraction (start ++ digits) rest
  else (decimalInteger? (start ++ digits)).map (·, rest)

/-- An integer of another base. Its first digit is checked, so that it is there. -/
def readBased (base : Nat) (isPart : UInt8 → Bool) (text : Bytes) : Parsed Literal :=
  if text.head?.any isPart then
    let (digits, rest) := spanOf (fun byte => isPart byte || byte == underscore) text
    (basedInteger? base digits).map (·, rest)
  else none

/-- A date or a time. A blank between the two may also be the end. -/
def readMoment (text : Bytes) : Parsed Literal :=
  let (found, rest) := spanOf
    (fun byte => isDigit byte || isOneOf ['-', ':', 'T', 't', ' ', '.', 'Z', 'z', '+'] byte) text
  let trimmed := (found.reverse.dropWhile (· == Bytes.ascii ' ')).reverse
  if isMoment trimmed then some (.moment, rest) else none

/-- An infinite number or no number, behind the given part of the text. -/
def readSpecial (text : Bytes) : Parsed Literal :=
  match Bytes.dropLeading? (utf8 "inf") text with
  | some rest => some (.float, rest)
  | none => (Bytes.dropLeading? (utf8 "nan") text).map (.float, ·)

/-- A number, a date or a time that starts with a digit. -/
def readUnsigned (text : Bytes) : Parsed Literal :=
  match text with
  | 48 :: 98 :: rest => readBased 2 (isOneOf ['0', '1']) rest
  | 48 :: 111 :: rest => readBased 8 (fun byte => 48 ≤ byte && byte ≤ 55) rest
  | 48 :: 120 :: rest => readBased 16 isHexDigit rest
  | text =>
      if (text.dropWhile isDigit).head?.any (isOneOf ['-', ':']) then readMoment text
      else readDecimal [] text

/-- A number that starts with a sign. -/
def readSigned (sign : UInt8) (text : Bytes) : Parsed Literal :=
  match readSpecial text with
  | some parsed => some parsed
  | none => if text.head?.any isDigit then readDecimal [sign] text else none

end ClosureLisp.Toml
