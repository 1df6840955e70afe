import ClosureLisp.Cbor.Item
import ClosureLisp.Word

/-!
# Reading CBOR

A reader takes one item off the front of its input. Heads of any length and items of
indefinite length are accepted. Items may nest at most `nestingLimit` deep, and arrays and
maps may hold at most `sizeLimit` elements or pairs. `Item.decode?` reads an input that is
one item and nothing else.
-/

namespace ClosureLisp.Cbor

/-- Takes a value off the front of an input, if there is one. -/
abbrev Reader (α : Type) := Bytes → Option (α × Bytes)

/-- How deep arrays, maps and chains of tags may nest. -/
def nestingLimit : Nat := 32

/-- How many elements an array and how many pairs a map may have. -/
def sizeLimit : Nat := 131072

/-- The byte that ends an item of indefinite length. -/
def breakByte : UInt8 := 0xff

/-- The first bytes of an input, if it has so many, and the rest. -/
def takeBytes : (count : Nat) → Reader Bytes
  | 0, input => some ([], input)
  | _ + 1, [] => none
  | count + 1, byte :: input =>
      (takeBytes count input).map fun (taken, rest) => (byte :: taken, rest)

/-- The number with the given bytes, most significant first. -/
def bigEndian (bytes : Bytes) : Nat :=
  bytes.foldl (fun number byte => 256 * number + byte.toNat) 0

/-- The argument of a head: a number, or the mark of an indefinite length. -/
inductive Argument where
  | number (value : Nat) (bits : Bytes)
  | indefinite
  deriving DecidableEq, Repr

/-- The argument of a head whose first byte has the given low bits. -/
def readArgument (low : Nat) : Reader Argument := fun input =>
  let wide := fun (count : Nat) =>
    (takeBytes count input).map fun (bits, rest) => (.number (bigEndian bits) bits, rest)
  if low < 24 then some (.number low [], input)
  else
    match low with
    | 24 => wide 1
    | 25 => wide 2
    | 26 => wide 4
    | 27 => wide 8
    | 31 => some (.indefinite, input)
    | _ => none

/-- Reads the head of an item. -/
def readHead : Reader (Major × Argument)
  | [] => none
  | byte :: input =>
      (readArgument (byte.toNat % 32) input).map fun (argument, rest) =>
        ((Major.ofByte byte, argument), rest)

/-- Reads a number of values in a row. -/
def readCount {α : Type} (read : Reader α) : (count : Nat) → Reader (List α)
  | 0, input => some ([], input)
  | count + 1, input =>
      match read input with
      | none => none
      | some (value, rest) =>
          (readCount read count rest).map fun (values, rest) => (value :: values, rest)

/-- Reads values up to the break byte, at most as many as the fuel allows. -/
def readUntilBreak {α : Type} (read : Reader α) : (fuel : Nat) → Reader (List α)
  | 0, _ => none
  | fuel + 1, input =>
      if input.head? = some breakByte then some ([], input.tail)
      else
        match read input with
        | none => none
        | some (value, rest) =>
            (readUntilBreak read fuel rest).map fun (values, rest) => (value :: values, rest)

/-- Reads a string of definite length and the given kind. -/
def readString (major : Major) : Reader Bytes := fun input =>
  match readHead input with
  | some ((found, .number length _), rest) =>
      if found = major ∧ length < Word.signedRange then takeBytes length rest else none
  | _ => none

/-- Reads the chunks of a string behind its head. -/
def readChunks (major : Major) (argument : Argument) : Reader (List Bytes) := fun input =>
  match argument with
  | .number length _ =>
      if length < Word.signedRange then
        (takeBytes length input).map fun (chunk, rest) => ([chunk], rest)
      else none
  | .indefinite => readUntilBreak (readString major) (input.length + 1) input

/-- Reads the elements of an array, or the keys and values of a map, behind its head: for
each unit of the length a group of the given number of items. -/
def readElements (read : Reader Item) (group : Nat) (argument : Argument) : Reader (List Item) :=
  fun input =>
    match argument with
    | .number length _ => if length ≤ sizeLimit then readCount read (group * length) input else none
    | .indefinite =>
        match readUntilBreak read (input.length + 1) input with
        | none => none
        | some (items, rest) =>
            if items.length ≤ group * sizeLimit then some (items, rest) else none

/-- Neighbours in a list as pairs; an odd list has none. -/
def pairUp {α : Type} : List α → Option (List (α × α))
  | [] => some []
  | first :: second :: rest => (pairUp rest).map ((first, second) :: ·)
  | [_] => none

/-- The primitive item with the given argument: a float if it takes two bytes or more, else a
simple value, which is not written in two bytes if it fits in one. -/
def primitive : Argument → Option Item
  | .indefinite => none
  | .number value [] => some (.simple value)
  | .number value [_] => if value < 32 then none else some (.simple value)
  | .number _ bits => some (.float bits)

/-- Reads an item that carries no tag. Its elements, if it may have any, are read by `inner`. -/
def readUntagged (inner : Option (Reader Item)) : Reader Item := fun input =>
  match readHead input with
  | none => none
  | some ((major, argument), rest) =>
      match major, argument with
      | .unsigned, .number value _ => some (.unsigned value, rest)
      | .negative, .number value _ => some (.negative value, rest)
      | .bytes, argument =>
          (readChunks .bytes argument rest).map fun (chunks, rest) => (.bytes chunks.flatten, rest)
      | .text, argument =>
          (readChunks .text argument rest).map fun (chunks, rest) => (.text chunks, rest)
      | .array, argument =>
          match inner with
          | none => none
          | some read =>
              (readElements read 1 argument rest).map fun (items, rest) => (.array items, rest)
      | .map, argument =>
          match inner with
          | none => none
          | some read =>
              match readElements read 2 argument rest with
              | none => none
              | some (items, rest) => (pairUp items).map fun pairs => (.map pairs, rest)
      | .primitive, argument => (primitive argument).map fun item => (item, rest)
      | _, _ => none

/-- Whether an input starts with a tag. -/
def startsWithTag (input : Bytes) : Bool :=
  match input with
  | [] => false
  | byte :: _ => Major.ofByte byte == .tag

/-- Reads an item. The first tag of a chain is free, each further one is a level of nesting
and is read, like the elements, by `inner`. -/
def readWith (inner : Option (Reader Item)) : Reader Item := fun input =>
  if startsWithTag input then
    match readHead input with
    | some ((_, .number number _), rest) =>
        let content := if startsWithTag rest then inner.bind (· rest) else readUntagged inner rest
        content.map fun (item, rest) => (.tag number item, rest)
    | _ => none
  else readUntagged inner input

/-- Reads an item that nests at most the given number of levels deep. -/
def readItem : (levels : Nat) → Reader Item
  | 0 => readWith none
  | levels + 1 => readWith (some (readItem levels))

/-- The item whose bytes, in any encoding, are the whole input. -/
def Item.decode? (input : Bytes) : Option Item :=
  match readItem nestingLimit input with
  | some (item, []) => some item
  | _ => none

end ClosureLisp.Cbor
