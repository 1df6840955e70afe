import ClosureLisp.Text.Quoted
import ClosureLisp.Word

/-!
# Flags

The options in front of a command. A flag is written with one or two dashes; its value
stands behind an equals sign or is the next argument, except that a switch takes a value
behind an equals sign only. Flags end at the first argument that is none, or behind two
dashes on their own.
-/

namespace ClosureLisp

/-- What kind of value a flag takes. -/
inductive FlagKind where
  | switch
  | number
  | text
  deriving DecidableEq, Repr

/-- A flag that can be given. -/
structure Flag where
  name : Bytes
  kind : FlagKind
  help : Bytes
  deriving DecidableEq, Repr

/-- The value of a flag. -/
inductive FlagValue where
  | switch (value : Bool)
  | number (value : Int)
  | text (value : Bytes)
  deriving DecidableEq, Repr

/-- Why arguments cannot be read as flags. -/
inductive FlagFault where
  | help
  | badSyntax (argument : Bytes)
  | undefined (name : Bytes)
  | missingValue (name : Bytes)
  | badSwitch (name value : Bytes)
  | badNumber (name value : Bytes)
  | numberOutOfRange (name value : Bytes)
  deriving DecidableEq, Repr

/-- The wording of a flag fault; a request for help has none. -/
def FlagFault.message? : FlagFault → Option Bytes
  | .help => none
  | .badSyntax argument => some (utf8 "bad flag syntax: " ++ argument)
  | .undefined name => some (utf8 "flag provided but not defined: -" ++ name)
  | .missingValue name => some (utf8 "flag needs an argument: -" ++ name)
  | .badSwitch name value =>
      some (utf8 "invalid boolean value " ++ Quoted.quote value ++ utf8 " for -" ++ name ++
        utf8 ": parse error")
  | .badNumber name value =>
      some (utf8 "invalid value " ++ Quoted.quote value ++ utf8 " for flag -" ++ name ++
        utf8 ": parse error")
  | .numberOutOfRange name value =>
      some (utf8 "invalid value " ++ Quoted.quote value ++ utf8 " for flag -" ++ name ++
        utf8 ": value out of range")

namespace Flag

/-! ## Values -/

/-- The truth value that a text spells. -/
def switchOf? (text : Bytes) : Option Bool :=
  if [utf8 "1", utf8 "t", utf8 "T", utf8 "true", utf8 "TRUE", utf8 "True"].contains text then
    some true
  else if
      [utf8 "0", utf8 "f", utf8 "F", utf8 "false", utf8 "FALSE", utf8 "False"].contains text then
    some false
  else none

/-- The value of a digit or letter, and a large number for any other byte. -/
def digitOf (byte : UInt8) : Nat :=
  if 48 ≤ byte ∧ byte ≤ 57 then byte.toNat - 48
  else if 97 ≤ byte ∧ byte ≤ 122 then byte.toNat - 87
  else if 65 ≤ byte ∧ byte ≤ 90 then byte.toNat - 55
  else 255

/-- A number that is read digit by digit. -/
inductive Magnitude where
  | small (value : Nat)
  | large
  | malformed
  deriving DecidableEq, Repr

/-- Reads digits of a base, passing over underscores, up to the first that is none or that
makes the number larger than sixty-four bits. -/
def magnitude (base : Nat) (value : Nat) : Bytes → Magnitude
  | [] => .small value
  | byte :: rest =>
      if byte = Bytes.ascii '_' then magnitude base value rest
      else if base ≤ digitOf byte then .malformed
      else
        let next := base * value + digitOf byte
        if Word.unsignedRange ≤ next then .large else magnitude base next rest

/-- Whether a byte is the given small letter or its capital. -/
def isLetter (letter : Char) (byte : UInt8) : Bool :=
  byte == Bytes.ascii letter || byte == Bytes.ascii letter.toUpper

/-- The base of an unsigned number and its digits. -/
def basedDigits (text : Bytes) : Nat × Bytes :=
  match text with
  | 48 :: mark :: digit :: rest =>
      if isLetter 'b' mark then (2, digit :: rest)
      else if isLetter 'o' mark then (8, digit :: rest)
      else if isLetter 'x' mark then (16, digit :: rest)
      else (8, mark :: digit :: rest)
  | 48 :: rest => (8, rest)
  | text => (10, text)

/-- Whether underscores stand between digits only; the flag says whether a digit, or the mark
of a base, is in front. -/
def underscoresBetween (isDigit : UInt8 → Bool) : (digitBefore : Bool) → Bytes → Bool
  | _, [] => true
  | digitBefore, byte :: rest =>
      if byte = Bytes.ascii '_' then
        digitBefore && rest.head?.any isDigit && underscoresBetween isDigit false rest
      else underscoresBetween isDigit (isDigit byte) rest

/-- Whether the underscores of an unsigned number are in place. -/
def underscoresOk (text : Bytes) : Bool :=
  let (base, digits) := basedDigits text
  let isDigit := fun (byte : UInt8) => digitOf byte < (if base = 16 then 16 else 10)
  underscoresBetween isDigit (text.head? == some 48) digits

/-- A text without its sign, and whether the sign is a minus. -/
def splitSign (text : Bytes) : Bool × Bytes :=
  match text with
  | 43 :: rest => (false, rest)
  | 45 :: rest => (true, rest)
  | text => (false, text)

/-- The number that a text spells: decimal, or with the mark of another base in front. -/
def numberOf (name text : Bytes) : Except FlagFault Int :=
  let (negative, body) := splitSign text
  let (base, digits) := basedDigits body
  if body.isEmpty then .error (.badNumber name text)
  else
    match magnitude base 0 digits with
    | .malformed => .error (.badNumber name text)
    | .large => .error (.numberOutOfRange name text)
    | .small size =>
        if !underscoresOk body then .error (.badNumber name text)
        else
          match Word.signed? negative size with
          | some number => .ok number
          | none => .error (.numberOutOfRange name text)

/-- The value that a text gives to a flag. -/
def valueOf (flag : Flag) (text : Bytes) : Except FlagFault FlagValue :=
  match flag.kind with
  | .switch =>
      match switchOf? text with
      | some value => .ok (.switch value)
      | none => .error (.badSwitch flag.name text)
  | .number => (numberOf flag.name text).map .number
  | .text => .ok (.text text)

/-! ## Arguments -/

/-- What one argument is. -/
inductive Argument where
  | plain
  | terminator
  | malformed
  | named (name : Bytes) (value : Option Bytes)
  deriving DecidableEq, Repr

/-- A name and, behind the first equals sign, a value. -/
def splitValue : Bytes → Bytes × Option Bytes
  | [] => ([], none)
  | byte :: rest =>
      if byte = Bytes.ascii '=' then ([], some rest)
      else ((byte :: (splitValue rest).1), (splitValue rest).2)

/-- Reads one argument. -/
def classify (argument : Bytes) : Argument :=
  match argument with
  | 45 :: second :: rest =>
      if second = Bytes.ascii '-' ∧ rest.isEmpty then .terminator
      else
        let body := if second = Bytes.ascii '-' then rest else second :: rest
        match body with
        | [] => .malformed
        | first :: _ =>
            if first = Bytes.ascii '-' ∨ first = Bytes.ascii '=' then .malformed
            else .named (splitValue body).1 (splitValue body).2
  | _ => .plain

/-- The flags given, by name, and the arguments behind them. -/
abbrev Given := List (Bytes × FlagValue) × List Bytes

/-- Adds a flag in front of those found behind it. -/
def adding (flag : Flag) (value : Except FlagFault FlagValue) (rest : Except FlagFault Given) :
    Except FlagFault Given :=
  match value with
  | .error fault => .error fault
  | .ok value => rest.map fun (given, others) => ((flag.name, value) :: given, others)

/-- Reads the flags in front of a list of arguments. -/
def parse (flags : List Flag) : List Bytes → Except FlagFault Given
  | [] => .ok ([], [])
  | argument :: rest =>
      match classify argument with
      | .plain => .ok ([], argument :: rest)
      | .terminator => .ok ([], rest)
      | .malformed => .error (.badSyntax argument)
      | .named name value =>
          match flags.find? fun flag => flag.name = name with
          | none => .error (if name = utf8 "help" ∨ name = utf8 "h" then .help else .undefined name)
          | some flag =>
              match value, flag.kind with
              | some text, _ => adding flag (flag.valueOf text) (parse flags rest)
              | none, .switch => adding flag (.ok (.switch true)) (parse flags rest)
              | none, _ =>
                  match rest with
                  | [] => .error (.missingValue name)
                  | text :: rest => adding flag (flag.valueOf text) (parse flags rest)

/-- The last value given to a switch. -/
def switch (name : String) (given : List (Bytes × FlagValue)) : Bool :=
  (given.filterMap fun
    | (other, .switch value) => if other = utf8 name then some value else none
    | _ => none).getLast?.getD false

/-- The last value given to a flag that takes a number. -/
def number (name : String) (given : List (Bytes × FlagValue)) : Int :=
  (given.filterMap fun
    | (other, .number value) => if other = utf8 name then some value else none
    | _ => none).getLast?.getD 0

/-- The last value given to a flag that takes a text. -/
def text (name : String) (given : List (Bytes × FlagValue)) : Bytes :=
  (given.filterMap fun
    | (other, .text value) => if other = utf8 name then some value else none
    | _ => none).getLast?.getD []

/-! ## Help -/

/-- The line that describes a flag, with its help below. -/
def describe (flag : Flag) : Bytes :=
  utf8 "  -" ++ flag.name ++
    (match flag.kind with
      | .switch => []
      | .number => utf8 " int"
      | .text => utf8 " string") ++
    utf8 "\n    \t" ++ flag.help ++ utf8 "\n"

end Flag

end ClosureLisp
