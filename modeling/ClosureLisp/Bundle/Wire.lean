import ClosureLisp.Bundle.Basic
import ClosureLisp.Cbor.Decode

/-!
# Bundles as bytes

A bundle is written as a map with the keys one to six in order; the capabilities are left
out if there are none, and code or names that are missing are null. Reading is more
generous: keys may come in any order and in any form, the first of several equal ones
counts, unknown ones are passed over, and a missing field is empty or zero.
-/

namespace ClosureLisp

namespace Cbor.Item

/-- The tag that marks data as CBOR and has no other meaning. -/
def selfDescription : Nat := 55799

/-- Whether a tag may stand in front of an item: dates are texts, times are numbers, and large
numbers are byte strings. -/
def tagFits (number : Nat) (content : Item) : Bool :=
  match number, content with
  | 0, .text _ => true
  | 0, _ => false
  | 1, .unsigned _ => true
  | 1, .negative _ => true
  | 1, .float _ => true
  | 1, _ => false
  | 2, .bytes _ => true
  | 2, _ => false
  | 3, .bytes _ => true
  | 3, _ => false
  | _, _ => true

/-- An item without its tags, if they fit. The tags of large numbers stay. -/
def untagged? : Item → Option Item
  | .tag number content =>
      if number = selfDescription then untagged? content
      else if !tagFits number content then none
      else if number = 2 ∨ number = 3 then some (.tag number content)
      else untagged? content
  | item => some item

/-- A small number. An absent item counts as zero and a simple value as its number. -/
def toByte? (item : Item) : Option UInt8 :=
  let small := fun (value : Nat) => if value < 256 then some value.toUInt8 else none
  match untagged? item with
  | some (.unsigned value) => small value
  | some (.simple 20) => none
  | some (.simple 21) => none
  | some (.simple 22) => some 0
  | some (.simple 23) => some 0
  | some (.simple value) => small value
  | some (.tag 2 (.bytes data)) => small (bigEndian data)
  | _ => none

/-- A digest: a string of bytes or an array of small numbers, cut or filled to its width. -/
def toDigest? (item : Item) : Option Digest :=
  match untagged? item with
  | some (.bytes data) => some (Digest.ofBytes data)
  | some (.tag _ (.bytes data)) => some (Digest.ofBytes data)
  | some (.array items) => ((items.take 32).mapM toByte?).map Digest.ofBytes
  | some item => if item.isAbsent then some Digest.zero else none
  | none => none

/-- Code: a string of bytes or an array of small numbers; it may be absent. -/
def toCode? (item : Item) : Option (Option Code) :=
  match untagged? item with
  | some (.bytes data) => some (some data.toArray)
  | some (.tag _ (.bytes data)) => some (some data.toArray)
  | some (.array items) => (items.mapM toByte?).map fun bytes => some bytes.toArray
  | some item => if item.isAbsent then some none else none
  | none => none

/-- A text whose every chunk is well-formed. -/
def wellFormedText? (chunks : List Bytes) : Option Bytes :=
  if chunks.all Glyph.isValidText then some chunks.flatten else none

/-- A name. An absent item counts as the empty one. -/
def toName? (item : Item) : Option Name :=
  match untagged? item with
  | some (.text chunks) => wellFormedText? chunks
  | some item => if item.isAbsent then some [] else none
  | none => none

/-- A list of names; it may be absent. -/
def toNames? (item : Item) : Option (Option (List Name)) :=
  match untagged? item with
  | some (.array items) => (items.mapM toName?).map some
  | some item => if item.isAbsent then some none else none
  | none => none

end Cbor.Item

namespace Bundle

/-- The fields of a bundle in the order in which they are written. -/
inductive Field where
  | version
  | sourceDigest
  | codeDigest
  | code
  | globals
  | capabilities
  deriving DecidableEq, Repr

namespace Field

/-- The fields in order. -/
def all : List Field :=
  [.version, .sourceDigest, .codeDigest, .code, .globals, .capabilities]

/-- The key of a field. -/
def number : Field → Nat
  | .version => 1
  | .sourceDigest => 2
  | .codeDigest => 3
  | .code => 4
  | .globals => 5
  | .capabilities => 6

/-- The field with a given key. -/
def ofNumber? (number : Nat) : Option Field :=
  all.find? fun field => field.number = number

/-- The field whose key is a given text. -/
def ofText? (text : Bytes) : Option Field :=
  all.find? fun field => Bytes.decimalNat field.number = text

/-- The field that a key selects, if any; some items are no keys. The numbers behind the range
of negative keys wrap around. -/
def ofKey? : Cbor.Item → Option (Option Field)
  | .unsigned value => some (ofNumber? value)
  | .negative value =>
      some (if value < Word.signedRange then none else ofNumber? (Word.unsignedRange - 1 - value))
  | .text chunks => (Cbor.Item.wellFormedText? chunks).map ofText?
  | _ => none

end Field

/-- A bundle without any field. -/
def blank : Bundle :=
  ⟨0, Digest.zero, Digest.zero, none, none, []⟩

/-- A list of names as an item. -/
def namesItem (names : List Name) : Cbor.Item :=
  .array (names.map Cbor.Item.string)

/-- A field with its key, as it is written. -/
def entry (field : Field) (item : Cbor.Item) : Cbor.Item × Cbor.Item :=
  (.unsigned field.number, item)

/-- The field that holds the capabilities, if there are any. -/
def capabilityEntries (capabilities : List Name) : List (Cbor.Item × Cbor.Item) :=
  if capabilities.isEmpty then [] else [entry .capabilities (namesItem capabilities)]

/-- A bundle as an item. -/
def toItem (bundle : Bundle) : Cbor.Item :=
  .map ([entry .version (.unsigned bundle.version.toNat),
    entry .sourceDigest (.bytes bundle.sourceDigest.toBytes),
    entry .codeDigest (.bytes bundle.codeDigest.toBytes),
    entry .code ((bundle.storedCode.map fun code => .bytes code.toList).getD .null),
    entry .globals ((bundle.storedGlobals.map namesItem).getD .null)] ++
    capabilityEntries bundle.capabilities)

/-- The bytes of a bundle. -/
def encode (bundle : Bundle) : Bytes :=
  bundle.toItem.encode

/-- Sets a field to what an item says. -/
def withField? (bundle : Bundle) (item : Cbor.Item) : Field → Option Bundle
  | .version => item.toByte?.map fun version => { bundle with version := version }
  | .sourceDigest => item.toDigest?.map fun digest => { bundle with sourceDigest := digest }
  | .codeDigest => item.toDigest?.map fun digest => { bundle with codeDigest := digest }
  | .code => item.toCode?.map fun code => { bundle with storedCode := code }
  | .globals => item.toNames?.map fun names => { bundle with storedGlobals := names }
  | .capabilities => item.toNames?.map fun names => { bundle with capabilities := names.getD [] }

/-- Sets the fields of a map in order, passing over those that were set before. -/
def withFields? (bundle : Bundle) (seen : List Field) :
    List (Cbor.Item × Cbor.Item) → Option Bundle
  | [] => some bundle
  | (key, item) :: rest =>
      match Field.ofKey? key with
      | none => none
      | some none => bundle.withFields? seen rest
      | some (some field) =>
          if seen.contains field then bundle.withFields? seen rest
          else (bundle.withField? item field).bind fun bundle =>
            bundle.withFields? (field :: seen) rest

/-- The bundle that an item describes. -/
def ofItem? (item : Cbor.Item) : Option Bundle :=
  match item.untagged? with
  | some (.map pairs) => blank.withFields? [] pairs
  | some item => if item.isAbsent then some blank else none
  | none => none

/-- Why bytes are no bundle that is safe to run. -/
inductive LoadFault where
  | unreadable
  | rejected (fault : BundleFault)
  deriving DecidableEq, Repr

/-- The bundle with the given bytes, if it is safe to run. Items are read in the given way. -/
def decodeWith (read? : Bytes → Option Cbor.Item) (data : Bytes) : Except LoadFault Bundle :=
  match (read? data).bind ofItem? with
  | none => .error .unreadable
  | some bundle =>
      match bundle.verify with
      | .error fault => .error (.rejected fault)
      | .ok () => .ok bundle

/-- The bundle with the given bytes, if it is safe to run. -/
def decode (data : Bytes) : Except LoadFault Bundle :=
  decodeWith Cbor.Item.decode? data

end Bundle

end ClosureLisp
