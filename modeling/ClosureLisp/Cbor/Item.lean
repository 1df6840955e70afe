import ClosureLisp.Text.Glyph

/-!
# CBOR items

The data items of the concise binary object representation, and their canonical bytes:
every head in its shortest form and every length in front.
-/

namespace ClosureLisp.Cbor

/-- A data item. The number of a `negative` item `n` is `-1 - n`. A text keeps the chunks it
was written in, because each of them has to be well-formed text on its own. -/
inductive Item where
  | unsigned (value : Nat)
  | negative (value : Nat)
  | bytes (data : Bytes)
  | text (chunks : List Bytes)
  | array (items : List Item)
  | map (pairs : List (Item × Item))
  | tag (number : Nat) (content : Item)
  | simple (value : Nat)
  | float (bits : Bytes)
  deriving Repr, Inhabited

/-- The eight kinds of heads. -/
inductive Major where
  | unsigned
  | negative
  | bytes
  | text
  | array
  | map
  | tag
  | primitive
  deriving DecidableEq, Repr

namespace Major

/-- The number of a kind, which stands in the three high bits of a head. -/
def number : Major → Nat
  | .unsigned => 0
  | .negative => 1
  | .bytes => 2
  | .text => 3
  | .array => 4
  | .map => 5
  | .tag => 6
  | .primitive => 7

/-- The kind of the item that starts with a byte. -/
def ofByte (byte : UInt8) : Major :=
  match byte.toNat / 32 with
  | 0 => .unsigned
  | 1 => .negative
  | 2 => .bytes
  | 3 => .text
  | 4 => .array
  | 5 => .map
  | 6 => .tag
  | _ => .primitive

/-- The shortest head of a kind with an argument. -/
def head (major : Major) (argument : Nat) : Bytes :=
  let first := fun (low : Nat) => (32 * major.number + low).toUInt8
  if argument < 24 then [first argument]
  else if argument < 0x100 then [first 24, argument.toUInt8]
  else if argument < 0x10000 then first 25 :: Bytes.word16 argument.toUInt16
  else if argument < 0x100000000 then first 26 :: Bytes.word32 argument.toUInt32
  else first 27 :: Bytes.word64 argument.toUInt64

end Major

namespace Item

/-- The item that stands for the absence of a value. -/
def null : Item :=
  .simple 22

/-- A text in one piece. -/
def string (text : Bytes) : Item :=
  .text [text]

/-- Whether an item stands for the absence of a value. -/
def isAbsent : Item → Bool
  | .simple value => value == 22 || value == 23
  | _ => false

mutual

/-- The canonical bytes of an item. -/
def encode : Item → Bytes
  | .unsigned value => Major.unsigned.head value
  | .negative value => Major.negative.head value
  | .bytes data => Major.bytes.head data.length ++ data
  | .text chunks => Major.text.head chunks.flatten.length ++ chunks.flatten
  | .array items => Major.array.head items.length ++ encodeAll items
  | .map pairs => Major.map.head pairs.length ++ encodePairs pairs
  | .tag number content => Major.tag.head number ++ encode content
  | .simple value => Major.primitive.head value
  | .float bits =>
      (if bits.length = 2 then 0xf9 else if bits.length = 4 then 0xfa else 0xfb) :: bits

/-- The canonical bytes of items in a row. -/
def encodeAll : List Item → Bytes
  | [] => []
  | item :: rest => encode item ++ encodeAll rest

/-- The canonical bytes of keys and values in a row. -/
def encodePairs : List (Item × Item) → Bytes
  | [] => []
  | (key, value) :: rest => encode key ++ (encode value ++ encodePairs rest)

end

end Item

end ClosureLisp.Cbor
