import ClosureLisp.Bundle.Wire
import ClosureLisp.Proofs.Serialization

/-!
# Bundles read back from their bytes

A reader of canonical bytes yields the item they were written from, unless they nest too deeply
or hold too many elements, and then it refuses them. So the bytes of a bundle describe the bundle
if its names are text and not too many, and are no bundle otherwise. Nothing more is needed of the
way in which items are written and read than what `Cbor.Codec` says.
-/

namespace ClosureLisp.Cbor

/-! ## Heads -/

namespace Major

variable (major : Major) {low : Nat}

theorem toNat_first (fits : low < 32) :
    (32 * major.number + low).toUInt8.toNat = 32 * major.number + low := by
  refine UInt8.toNat_ofNat_of_lt' ?_
  cases major <;> simp only [number, UInt8.size] <;> omega

/-- The first byte of a head tells the kind. -/
theorem ofByte_first (fits : low < 32) :
    ofByte (32 * major.number + low).toUInt8 = major := by
  have quotient : (32 * major.number + low) / 32 = major.number := by omega
  rw [ofByte, toNat_first major fits, quotient]
  cases major <;> rfl

end Major

theorem takeBytes_append (data rest : Bytes) :
    takeBytes data.length (data ++ rest) = some (data, rest) := by
  induction data with
  | nil => rfl
  | cons byte data ih => rw [List.length_cons, List.cons_append, takeBytes, ih, Option.map_some]

theorem readHead_first (major : Major) {low : Nat} (fits : low < 32) (input : Bytes) :
    readHead ((32 * major.number + low).toUInt8 :: input) =
      (readArgument low input).map fun (argument, rest) => ((major, argument), rest) := by
  have remainder : (32 * major.number + low) % 32 = low := by omega
  rw [readHead, Major.ofByte_first major fits, Major.toNat_first major fits, remainder]

/-- The low bits of a head that announce the given number of further bytes. -/
def Announces (low count : Nat) : Prop :=
  (low, count) ∈ [(24, 1), (25, 2), (26, 4), (27, 8)]

theorem readArgument_append {low : Nat} {bits : Bytes} (announced : Announces low bits.length)
    (rest : Bytes) :
    readArgument low (bits ++ rest) = some (.number (bigEndian bits) bits, rest) := by
  have wide : readArgument low (bits ++ rest) =
      (takeBytes bits.length (bits ++ rest)).map fun taken =>
        (.number (bigEndian taken.1) taken.1, taken.2) := by
    simp only [Announces, List.mem_cons, List.not_mem_nil, or_false, Prod.mk.injEq] at announced
    rcases announced with ⟨rfl, length⟩ | ⟨rfl, length⟩ | ⟨rfl, length⟩ | ⟨rfl, length⟩ <;>
      rw [length] <;> rfl
  rw [wide, takeBytes_append, Option.map_some]

theorem readHead_wide (major : Major) (low : Nat) (bits : Bytes)
    (announced : Announces low bits.length) (rest : Bytes) :
    readHead ((32 * major.number + low).toUInt8 :: bits ++ rest) =
      some ((major, .number (bigEndian bits) bits), rest) := by
  have fits : low < 32 := by
    simp only [Announces, List.mem_cons, List.not_mem_nil, or_false, Prod.mk.injEq] at announced
    omega
  rw [List.cons_append, readHead_first major fits, readArgument_append announced, Option.map_some]

theorem readArgument_of_lt {low : Nat} (small : low < 24) (input : Bytes) :
    readArgument low input = some (.number low [], input) :=
  if_pos small

/-- A head is read back. -/
theorem readHead_head (major : Major) {argument : Nat} (fits : argument < Word.unsignedRange)
    (rest : Bytes) :
    ∃ bits, readHead (major.head argument ++ rest) =
      some ((major, .number argument bits), rest) := by
  unfold Major.head
  dsimp only
  split
  · next small =>
      refine ⟨[], ?_⟩
      rw [List.cons_append, readHead_first major (by omega), readArgument_of_lt small]
      rfl
  · split
    · next small =>
        have value : bigEndian [argument.toUInt8] = argument := by
          have kept : argument.toUInt8.toNat = argument := UInt8.toNat_ofNat_of_lt' small
          simp [bigEndian, kept]
        have read := readHead_wide major 24 [argument.toUInt8] (.head _) rest
        rw [value] at read
        exact ⟨_, read⟩
    · split
      · next small =>
          have value : bigEndian (Bytes.word16 argument.toUInt16) = argument := by
            rw [bigEndian_word16]
            exact UInt16.toNat_ofNat_of_lt' small
          have read :=
            readHead_wide major 25 (Bytes.word16 argument.toUInt16) (.tail _ (.head _)) rest
          rw [value] at read
          exact ⟨_, read⟩
      · split
        · next small =>
            have value : bigEndian (Bytes.word32 argument.toUInt32) = argument := by
              rw [bigEndian_word32]
              exact UInt32.toNat_ofNat_of_lt' small
            have read := readHead_wide major 26 (Bytes.word32 argument.toUInt32)
              (.tail _ (.tail _ (.head _))) rest
            rw [value] at read
            exact ⟨_, read⟩
        · have value : bigEndian (Bytes.word64 argument.toUInt64) = argument := by
            rw [bigEndian_word64]
            exact UInt64.toNat_ofNat_of_lt' fits
          have read := readHead_wide major 27 (Bytes.word64 argument.toUInt64)
            (.tail _ (.tail _ (.tail _ (.head _)))) rest
          rw [value] at read
          exact ⟨_, read⟩

theorem startsWithTag_head (major : Major) (argument : Nat) (rest : Bytes) :
    startsWithTag (major.head argument ++ rest) = (major == .tag) := by
  unfold Major.head
  dsimp only
  split
  · next small => rw [List.cons_append, startsWithTag, Major.ofByte_first major (by omega)]
  · split
    · rw [List.cons_append, startsWithTag, Major.ofByte_first major (by omega)]
    · split
      · rw [List.cons_append, startsWithTag, Major.ofByte_first major (by omega)]
      · split <;> rw [List.cons_append, startsWithTag, Major.ofByte_first major (by omega)]

/-! ## Items -/

/-- A result is there if and only if a condition holds, and then it is the given value. -/
def Decides {α : Type} (condition : Prop) (result : Option α) (value : α) : Prop :=
  (condition ∧ result = some value) ∨ (¬ condition ∧ result = none)

namespace Decides

variable {α β : Type} {condition other : Prop} {result : Option α} {value : α}

theorem of_eq_some (taken : result = some value) : Decides True result value :=
  .inl ⟨trivial, taken⟩

theorem map (decides : Decides condition result value) (f : α → β) :
    Decides condition (result.map f) (f value) := by
  rcases decides with ⟨held, rfl⟩ | ⟨broken, rfl⟩
  · exact .inl ⟨held, rfl⟩
  · exact .inr ⟨broken, rfl⟩

theorem congr (decides : Decides condition result value) (same : condition ↔ other) :
    Decides other result value := by
  rw [← same]
  exact decides

theorem bind (decides : Decides condition result value) {f : α → Option β} {final : β}
    (further : Decides other (f value) final) :
    Decides (condition ∧ other) (result.bind f) final := by
  rcases decides with ⟨held, rfl⟩ | ⟨broken, rfl⟩
  · exact further.congr (and_iff_right held).symm
  · exact .inr ⟨fun both => broken both.1, rfl⟩

/-- A result that is there is the value. -/
theorem eq_of_eq_some (decides : Decides condition result value) {found : α}
    (present : result = some found) : found = value := by
  rcases decides with ⟨-, taken⟩ | ⟨-, refused⟩
  · exact Option.some.inj (present.symm.trans taken)
  · rw [present] at refused
    cases refused

end Decides

/-- The items that bundles are written as, with all lengths in range. -/
inductive Item.Measured : Item → Prop where
  | unsigned {value : Nat} (fits : value < Word.unsignedRange) : Measured (.unsigned value)
  | bytes {data : Bytes} (fits : data.length < Word.signedRange) : Measured (.bytes data)
  | string {text : Bytes} (fits : text.length < Word.signedRange) : Measured (.string text)
  | null : Measured .null
  | array {items : List Item} (fits : items.length < Word.unsignedRange)
      (each : ∀ item ∈ items, Measured item) : Measured (.array items)
  | map {pairs : List (Item × Item)} (fits : pairs.length < Word.unsignedRange)
      (keys : ∀ pair ∈ pairs, Measured pair.1) (values : ∀ pair ∈ pairs, Measured pair.2) :
      Measured (.map pairs)

/-- The elements of a map in a row. -/
def spread (pairs : List (Item × Item)) : List Item :=
  pairs.flatMap fun pair => [pair.1, pair.2]

/-- Items that are not too large themselves and whose elements, if there may be any, are within
further bounds. -/
def Item.WithinWith (inner : Option (Item → Prop)) : Item → Prop
  | .array items =>
      ∃ within, inner = some within ∧ items.length ≤ sizeLimit ∧ ∀ item ∈ items, within item
  | .map pairs =>
      ∃ within, inner = some within ∧ pairs.length ≤ sizeLimit ∧
        ∀ item ∈ spread pairs, within item
  | _ => True

/-- Items that nest at most the given number of levels deep, without a large array or map. -/
def Item.Within : (levels : Nat) → Item → Prop
  | 0 => WithinWith none
  | levels + 1 => WithinWith (some (Within levels))

/-- A reader takes canonical items within bounds off the front of an input and refuses others. -/
def Reads (read : Reader Item) (within : Item → Prop) : Prop :=
  ∀ item : Item, item.Measured → ∀ rest,
    Decides (within item) (read (item.encode ++ rest)) (item, rest)

section Reading

variable {read : Reader Item} {within : Item → Prop}

theorem Reads.readCount (reads : Reads read within) {items : List Item}
    (measured : ∀ item ∈ items, item.Measured) (rest : Bytes) :
    Decides (∀ item ∈ items, within item)
      (Cbor.readCount read items.length (Item.encodeAll items ++ rest)) (items, rest) := by
  induction items with
  | nil => exact .inl ⟨fun _ listed => absurd listed List.not_mem_nil, rfl⟩
  | cons item items ih =>
      obtain ⟨first, others⟩ := List.forall_mem_cons.mp measured
      rw [List.length_cons, Item.encodeAll, List.append_assoc, Cbor.readCount,
        List.forall_mem_cons]
      rcases reads item first (Item.encodeAll items ++ rest) with ⟨held, taken⟩ | ⟨broken, refused⟩
      · rw [taken]
        refine ((ih others).map fun taken => (item :: taken.1, taken.2)).congr ?_
        exact (and_iff_right held).symm
      · rw [refused]
        exact .inr ⟨fun both => broken both.1, rfl⟩

theorem Reads.readElements (reads : Reads read within) {items : List Item} {group length : Nat}
    (counted : items.length = group * length) (measured : ∀ item ∈ items, item.Measured)
    (bits rest : Bytes) :
    Decides (length ≤ sizeLimit ∧ ∀ item ∈ items, within item)
      (Cbor.readElements read group (.number length bits) (Item.encodeAll items ++ rest))
      (items, rest) := by
  have decided := reads.readCount measured rest
  rw [counted] at decided
  simp only [Cbor.readElements]
  split
  · next few => exact decided.congr (and_iff_right few).symm
  · next many => exact .inr ⟨fun both => many both.1, rfl⟩

theorem encodePairs_eq (pairs : List (Item × Item)) :
    Item.encodePairs pairs = Item.encodeAll (spread pairs) := by
  induction pairs with
  | nil => rfl
  | cons pair pairs ih =>
      rw [Item.encodePairs, ih]
      rfl

theorem pairUp_spread (pairs : List (Item × Item)) : pairUp (spread pairs) = some pairs := by
  induction pairs with
  | nil => rfl
  | cons pair pairs ih =>
      change (pairUp (spread pairs)).map ((pair.1, pair.2) :: ·) = _
      rw [ih]
      rfl

theorem length_spread (pairs : List (Item × Item)) : (spread pairs).length = 2 * pairs.length := by
  induction pairs with
  | nil => rfl
  | cons pair pairs ih =>
      change (spread pairs).length + 1 + 1 = _
      rw [ih, List.length_cons]
      omega

theorem forall_mem_spread {pairs : List (Item × Item)} {holds : Item → Prop} :
    (∀ item ∈ spread pairs, holds item) ↔ ∀ pair ∈ pairs, holds pair.1 ∧ holds pair.2 := by
  simp only [spread, List.forall_mem_flatMap, List.forall_mem_cons, List.not_mem_nil,
    false_implies, implies_true, and_true]

theorem Item.within_array {levels : Nat} {items : List Item} :
    (Item.array items).Within (levels + 1) ↔
      items.length ≤ sizeLimit ∧ ∀ item ∈ items, item.Within levels := by
  simp only [Within, WithinWith, Option.some.injEq, exists_eq_left']

theorem Item.within_map {levels : Nat} {pairs : List (Item × Item)} :
    (Item.map pairs).Within (levels + 1) ↔
      pairs.length ≤ sizeLimit ∧ ∀ pair ∈ pairs, pair.1.Within levels ∧ pair.2.Within levels := by
  simp only [Within, WithinWith, Option.some.injEq, exists_eq_left', forall_mem_spread]

theorem Item.within_unsigned (levels value : Nat) : (Item.unsigned value).Within levels := by
  cases levels <;> exact trivial

theorem Item.within_bytes (levels : Nat) (data : Bytes) : (Item.bytes data).Within levels := by
  cases levels <;> exact trivial

theorem Item.within_string (levels : Nat) (text : Bytes) : (Item.string text).Within levels := by
  cases levels <;> exact trivial

theorem Item.within_null (levels : Nat) : Item.null.Within levels := by
  cases levels <;> exact trivial

theorem readChunks_append {major : Major} {data bits : Bytes}
    (fits : data.length < Word.signedRange) (rest : Bytes) :
    readChunks major (.number data.length bits) (data ++ rest) = some ([data], rest) := by
  simp only [readChunks, if_pos fits, takeBytes_append, Option.map_some]

theorem signedRange_lt_unsignedRange : Word.signedRange < Word.unsignedRange := by
  decide

variable {inner : Option (Reader Item)} {innerWithin : Option (Item → Prop)}

theorem decides_array (agrees : Option.Rel Reads inner innerWithin) {items : List Item}
    (fits : items.length < Word.unsignedRange) (measured : ∀ item ∈ items, item.Measured)
    (rest : Bytes) :
    Decides ((Item.array items).WithinWith innerWithin)
      (readUntagged inner ((Item.array items).encode ++ rest)) (.array items, rest) := by
  obtain ⟨bits, head⟩ := readHead_head .array fits (Item.encodeAll items ++ rest)
  simp only [readUntagged, Item.encode, List.append_assoc, head, Item.WithinWith]
  cases agrees with
  | none =>
      refine .inr ⟨?_, rfl⟩
      rintro ⟨_, absent, -⟩
      cases absent
  | @some read within reads =>
      have decided := reads.readElements (Nat.one_mul _).symm measured bits rest
      refine (decided.map fun taken => (Item.array taken.1, taken.2)).congr ?_
      simp only [Option.some.injEq, exists_eq_left']

theorem decides_map (agrees : Option.Rel Reads inner innerWithin) {pairs : List (Item × Item)}
    (fits : pairs.length < Word.unsignedRange) (measured : ∀ item ∈ spread pairs, item.Measured)
    (rest : Bytes) :
    Decides ((Item.map pairs).WithinWith innerWithin)
      (readUntagged inner ((Item.map pairs).encode ++ rest)) (.map pairs, rest) := by
  obtain ⟨bits, head⟩ := readHead_head .map fits (Item.encodeAll (spread pairs) ++ rest)
  simp only [readUntagged, Item.encode, encodePairs_eq, List.append_assoc, head, Item.WithinWith]
  cases agrees with
  | none =>
      refine .inr ⟨?_, rfl⟩
      rintro ⟨_, absent, -⟩
      cases absent
  | @some read within reads =>
      have decided := reads.readElements (length_spread pairs) measured bits rest
      simp only [Option.some.injEq, exists_eq_left']
      rcases decided with ⟨held, taken⟩ | ⟨broken, refused⟩
      · rw [taken]
        exact .inl ⟨held, congrArg (Option.map fun pairs => (Item.map pairs, rest))
          (pairUp_spread pairs)⟩
      · rw [refused]
        exact .inr ⟨broken, rfl⟩

theorem reads_readUntagged (agrees : Option.Rel Reads inner innerWithin) :
    Reads (readUntagged inner) (Item.WithinWith innerWithin) := by
  intro item measured rest
  cases measured with
  | unsigned fits =>
      obtain ⟨bits, head⟩ := readHead_head .unsigned fits rest
      refine .of_eq_some ?_
      simp only [readUntagged, Item.encode, head]
  | @bytes data fits =>
      obtain ⟨bits, head⟩ :=
        readHead_head .bytes (Nat.lt_trans fits signedRange_lt_unsignedRange) (data ++ rest)
      refine .of_eq_some ?_
      simp only [readUntagged, Item.encode, List.append_assoc, head, readChunks_append fits rest,
        Option.map_some, List.flatten_singleton]
  | @string text fits =>
      obtain ⟨bits, head⟩ :=
        readHead_head .text (Nat.lt_trans fits signedRange_lt_unsignedRange) (text ++ rest)
      refine .of_eq_some ?_
      simp only [readUntagged, Item.string, Item.encode, List.flatten_singleton,
        List.append_assoc, head, readChunks_append fits rest, Option.map_some]
  | null => exact .of_eq_some rfl
  | array fits each => exact decides_array agrees fits each rest
  | map fits keys values =>
      have each := forall_mem_spread.mpr fun pair listed => ⟨keys pair listed, values pair listed⟩
      exact decides_map agrees fits each rest

theorem not_startsWithTag {item : Item} (measured : item.Measured) (rest : Bytes) :
    startsWithTag (item.encode ++ rest) = false := by
  cases measured with
  | unsigned fits => exact startsWithTag_head .unsigned _ _
  | bytes fits =>
      rw [Item.encode, List.append_assoc]
      exact startsWithTag_head .bytes _ _
  | string fits =>
      rw [Item.string, Item.encode, List.append_assoc]
      exact startsWithTag_head .text _ _
  | null => rfl
  | array fits each =>
      rw [Item.encode, List.append_assoc]
      exact startsWithTag_head .array _ _
  | map fits keys values =>
      rw [Item.encode, List.append_assoc]
      exact startsWithTag_head .map _ _

theorem reads_readWith (agrees : Option.Rel Reads inner innerWithin) :
    Reads (readWith inner) (Item.WithinWith innerWithin) := by
  intro item measured rest
  have untagged := reads_readUntagged agrees item measured rest
  rw [readWith, not_startsWithTag measured rest]
  exact untagged

/-- Canonical items that nest no deeper than a reader allows are read back, and others are
refused. -/
theorem reads_readItem (levels : Nat) : Reads (readItem levels) (Item.Within levels) := by
  induction levels with
  | zero => exact reads_readWith .none
  | succ levels ih => exact reads_readWith (.some ih)

theorem decides_decode? {item : Item} (measured : item.Measured) :
    Decides (item.Within nestingLimit) (Item.decode? item.encode) item := by
  have decided := reads_readItem nestingLimit item measured []
  rw [List.append_nil] at decided
  unfold Item.decode?
  rcases decided with ⟨held, taken⟩ | ⟨broken, refused⟩
  · rw [taken]
    exact .inl ⟨held, rfl⟩
  · rw [refused]
    exact .inr ⟨broken, rfl⟩

end Reading

/-! ## Codecs -/

/-- A way to write items and to read them back. Items whose numbers and lengths are in range are
read back from their bytes unless they nest too deeply or hold too many elements, and then their
bytes are refused. -/
structure Codec where
  encode : Item → Bytes
  decode? : Bytes → Option Item
  reads {item : Item} (measured : item.Measured) :
    Decides (item.Within nestingLimit) (decode? (encode item)) item

/-- Items in their canonical bytes. -/
def Codec.canonical : Codec :=
  ⟨Item.encode, Item.decode?, decides_decode?⟩

end ClosureLisp.Cbor

namespace ClosureLisp.Bundle

open Cbor (Item)

/-! ## Bundles -/

/-- All lengths in a bundle are in range. -/
structure Measured (bundle : Bundle) : Prop where
  code : bundle.code.size < Word.signedRange
  globals : bundle.globals.length < Word.unsignedRange
  names : ∀ name ∈ bundle.globals, name.length < Word.signedRange
  capabilities : bundle.capabilities.length < Word.unsignedRange
  capabilityNames : ∀ name ∈ bundle.capabilities, name.length < Word.signedRange

theorem measured_namesItem {names : List Name} (count : names.length < Word.unsignedRange)
    (each : ∀ name ∈ names, name.length < Word.signedRange) : (namesItem names).Measured := by
  refine .array (by rw [List.length_map]; exact count) fun item listed => ?_
  obtain ⟨name, member, rfl⟩ := List.mem_map.mp listed
  exact .string (each name member)

theorem measured_entry (field : Field) {item : Item} (measured : item.Measured) :
    (entry field item).1.Measured ∧ (entry field item).2.Measured := by
  refine ⟨.unsigned ?_, measured⟩
  cases field <;> decide

theorem length_capabilityEntries (capabilities : List Name) :
    (capabilityEntries capabilities).length ≤ 1 := by
  unfold capabilityEntries
  split <;> simp

theorem measured_toItem {bundle : Bundle} (measured : bundle.Measured) :
    bundle.toItem.Measured := by
  have digest : ∀ digest : Digest, digest.toBytes.length < Word.signedRange := by
    intro digest
    rw [Digest.toBytes, Vector.length_toList]
    decide
  have version : bundle.version.toNat < Word.unsignedRange :=
    Nat.lt_trans bundle.version.toNat_lt (by decide)
  have code : ((bundle.storedCode.map fun code => Item.bytes code.toList).getD .null).Measured := by
    have fits := measured.code
    unfold Bundle.code at fits
    cases held : bundle.storedCode with
    | none => exact .null
    | some code =>
        rw [held] at fits
        exact .bytes (by rw [Array.length_toList]; exact fits)
  have globals : ((bundle.storedGlobals.map namesItem).getD .null).Measured := by
    have fits := measured.globals
    have names := measured.names
    unfold Bundle.globals at fits names
    cases held : bundle.storedGlobals with
    | none => exact .null
    | some globals =>
        rw [held] at fits names
        exact measured_namesItem fits names
  have capabilities : ∀ pair ∈ capabilityEntries bundle.capabilities,
      pair.1.Measured ∧ pair.2.Measured := by
    unfold capabilityEntries
    split
    · exact fun _ listed => absurd listed List.not_mem_nil
    · intro pair listed
      rw [List.mem_singleton.mp listed]
      exact measured_entry .capabilities
        (measured_namesItem measured.capabilities measured.capabilityNames)
  have each : ∀ pair ∈ [entry .version (.unsigned bundle.version.toNat),
      entry .sourceDigest (.bytes bundle.sourceDigest.toBytes),
      entry .codeDigest (.bytes bundle.codeDigest.toBytes),
      entry .code ((bundle.storedCode.map fun code => .bytes code.toList).getD .null),
      entry .globals ((bundle.storedGlobals.map namesItem).getD .null)] ++
        capabilityEntries bundle.capabilities, pair.1.Measured ∧ pair.2.Measured := by
    rw [List.forall_mem_append]
    refine ⟨?_, capabilities⟩
    simp only [List.forall_mem_cons]
    exact ⟨measured_entry _ (.unsigned version), measured_entry _ (.bytes (digest _)),
      measured_entry _ (.bytes (digest _)), measured_entry _ code, measured_entry _ globals,
      fun _ listed => absurd listed List.not_mem_nil⟩
  refine .map ?_ (fun pair listed => (each pair listed).1) fun pair listed => (each pair listed).2
  rw [List.length_append]
  exact Nat.lt_of_le_of_lt (Nat.add_le_add_left (length_capabilityEntries _) 5) (by decide)

/-- What an array of names needs to be read back: there are not too many, and each is text. -/
def Legible (names : List Name) : Prop :=
  names.length ≤ Cbor.sizeLimit ∧ ∀ name ∈ names, Glyph.isValidText name

instance (names : List Name) : Decidable (Legible names) :=
  inferInstanceAs (Decidable (_ ∧ _))

theorem toName?_string (name : Name) :
    Item.toName? (.string name) = if Glyph.isValidText name then some name else none := by
  simp [Item.toName?, Item.string, Item.untagged?, Item.wellFormedText?]

/-- Names are read back if each is text. -/
theorem decides_mapM_toName? (names : List Name) :
    Cbor.Decides (∀ name ∈ names, Glyph.isValidText name)
      ((names.map Item.string).mapM Item.toName?) names := by
  induction names with
  | nil => exact .inl ⟨fun _ listed => absurd listed List.not_mem_nil, rfl⟩
  | cons name names ih =>
      rw [List.map_cons, List.mapM_cons, toName?_string, List.forall_mem_cons]
      split
      · next text =>
          have further : Cbor.Decides True (some (name :: names)) (name :: names) :=
            .of_eq_some rfl
          change Cbor.Decides _ (Option.bind _ fun names => some (name :: names)) _
          refine (ih.bind further).congr ?_
          rw [and_iff_left trivial, and_iff_right text]
      · next broken => exact .inr ⟨fun both => broken both.1, rfl⟩

theorem decides_toNames? (names : List Name) :
    Cbor.Decides (∀ name ∈ names, Glyph.isValidText name) (namesItem names).toNames?
      (some names) :=
  (decides_mapM_toName? names).map some

/-- The item of a stored table gives the table back if each name is text. -/
theorem decides_toNames?_stored (stored : Option (List Name)) :
    Cbor.Decides (∀ name ∈ stored.getD [], Glyph.isValidText name)
      ((stored.map namesItem).getD .null).toNames? stored := by
  cases stored with
  | none => exact .inl ⟨fun _ listed => absurd listed List.not_mem_nil, rfl⟩
  | some names => exact decides_toNames? names

/-- The item of stored code gives the code back. -/
theorem toCode?_stored (stored : Option Code) :
    ((stored.map fun code => Item.bytes code.toList).getD .null).toCode? = some stored := by
  cases stored <;> rfl

theorem toByte?_unsigned (byte : UInt8) : Item.toByte? (.unsigned byte.toNat) = some byte := by
  have small : byte.toNat < 256 := byte.toNat_lt
  simp [Item.toByte?, Item.untagged?, small]

theorem toDigest?_bytes (digest : Digest) :
    Item.toDigest? (.bytes digest.toBytes) = some digest := by
  refine congrArg some (Vector.ext fun index inside => ?_)
  simp [Digest.ofBytes, Digest.toBytes]

theorem withFields?_entry {bundle : Bundle} {seen : List Field} {field : Field}
    (unseen : seen.contains field = false) (item : Item) (rest : List (Item × Item)) :
    bundle.withFields? seen (entry field item :: rest) =
      (bundle.withField? item field).bind fun bundle =>
        bundle.withFields? (field :: seen) rest := by
  have key : Field.ofKey? (.unsigned field.number) = some (some field) := by
    cases field <;> rfl
  rw [entry, withFields?, key]
  simp only [unseen]
  rfl

/-- Capabilities that are not written are none. -/
theorem decides_capabilityEntries {bundle : Bundle} {seen : List Field}
    (unseen : seen.contains .capabilities = false) (blank : bundle.capabilities = [])
    (capabilities : List Name) :
    Cbor.Decides (∀ name ∈ capabilities, Glyph.isValidText name)
      (bundle.withFields? seen (capabilityEntries capabilities))
      { bundle with capabilities := capabilities } := by
  unfold capabilityEntries
  split
  · next empty =>
      rw [List.isEmpty_iff.mp empty, ← blank]
      exact .inl ⟨fun name listed => absurd (blank ▸ listed) List.not_mem_nil, rfl⟩
  · rw [withFields?_entry unseen, withField?]
    have decided := (decides_toNames? capabilities).map fun names =>
      { bundle with capabilities := names.getD [] }
    exact (decided.bind (.of_eq_some rfl)).congr (and_iff_left trivial)

/-- The item of a bundle describes the bundle if all names are text. -/
theorem decides_ofItem? (bundle : Bundle) :
    Cbor.Decides ((∀ name ∈ bundle.globals, Glyph.isValidText name) ∧
        ∀ name ∈ bundle.capabilities, Glyph.isValidText name)
      (ofItem? bundle.toItem) bundle := by
  change Cbor.Decides _ (blank.withFields? [] (entry .version _ :: entry .sourceDigest _ ::
    entry .codeDigest _ :: entry .code _ :: entry .globals _ ::
    capabilityEntries bundle.capabilities)) _
  rw [withFields?_entry rfl, withField?, toByte?_unsigned, Option.map_some, Option.bind_some,
    withFields?_entry rfl, withField?, toDigest?_bytes, Option.map_some, Option.bind_some,
    withFields?_entry rfl, withField?, toDigest?_bytes, Option.map_some, Option.bind_some,
    withFields?_entry rfl, withField?, toCode?_stored, Option.map_some, Option.bind_some,
    withFields?_entry rfl, withField?]
  refine ((decides_toNames?_stored bundle.storedGlobals).map _).bind ?_
  exact decides_capabilityEntries rfl rfl bundle.capabilities

theorem within_namesItem {levels : Nat} (names : List Name) :
    (namesItem names).Within (levels + 1) ↔ names.length ≤ Cbor.sizeLimit := by
  rw [namesItem, Item.within_array, List.length_map, List.forall_mem_map]
  exact and_iff_left fun name _ => Item.within_string levels name

theorem within_entry {levels : Nat} (field : Field) (item : Item) :
    (entry field item).1.Within levels ∧ (entry field item).2.Within levels ↔
      item.Within levels :=
  and_iff_right (Item.within_unsigned levels _)

theorem within_capabilityEntries {levels : Nat} (capabilities : List Name) :
    (∀ pair ∈ capabilityEntries capabilities,
      pair.1.Within (levels + 1) ∧ pair.2.Within (levels + 1)) ↔
        capabilities.length ≤ Cbor.sizeLimit := by
  unfold capabilityEntries
  split
  · next empty =>
      rw [List.isEmpty_iff.mp empty]
      exact iff_of_true (fun _ listed => absurd listed List.not_mem_nil) (Nat.zero_le _)
  · rw [List.forall_mem_singleton, within_entry, within_namesItem]

theorem within_storedGlobals {levels : Nat} (bundle : Bundle) :
    ((bundle.storedGlobals.map namesItem).getD .null).Within (levels + 1) ↔
      bundle.globals.length ≤ Cbor.sizeLimit := by
  unfold Bundle.globals
  cases bundle.storedGlobals with
  | none => exact iff_of_true (Item.within_null _) (Nat.zero_le _)
  | some names => exact within_namesItem names

theorem within_storedCode (levels : Nat) (stored : Option Code) :
    ((stored.map fun code => Item.bytes code.toList).getD .null).Within levels := by
  cases stored with
  | none => exact Item.within_null levels
  | some code => exact Item.within_bytes levels _

/-- The item of a bundle is within the bounds of the reader unless there are too many names. -/
theorem within_toItem (bundle : Bundle) {levels : Nat} :
    bundle.toItem.Within (levels + 2) ↔
      bundle.globals.length ≤ Cbor.sizeLimit ∧ bundle.capabilities.length ≤ Cbor.sizeLimit := by
  have few : 5 + (capabilityEntries bundle.capabilities).length ≤ Cbor.sizeLimit :=
    Nat.le_trans (Nat.add_le_add_left (length_capabilityEntries _) 5) (by decide)
  rw [toItem, Item.within_map, List.length_append]
  refine (and_iff_right few).trans ?_
  rw [List.forall_mem_append, within_capabilityEntries]
  simp only [List.forall_mem_cons, within_entry, Item.within_unsigned, Item.within_bytes,
    within_storedCode, within_storedGlobals, List.not_mem_nil, false_implies, implies_true,
    and_true, true_and]

section Codecs

variable (codec : Cbor.Codec) {bundle : Bundle} (measured : bundle.Measured)

include measured

/-- What is written of a bundle can be read back if the names can. -/
theorem decides_read :
    Cbor.Decides (Legible bundle.globals ∧ Legible bundle.capabilities)
      ((codec.decode? (codec.encode bundle.toItem)).bind ofItem?) bundle := by
  have decoded := codec.reads (measured_toItem measured)
  refine (decoded.bind (decides_ofItem? bundle)).congr ?_
  rw [Cbor.nestingLimit, within_toItem]
  exact and_and_and_comm

/-- The bytes of a bundle whose names can be read back describe the bundle. -/
theorem decodeWith_of_legible (verified : bundle.verify = .ok ())
    (globals : Legible bundle.globals) (capabilities : Legible bundle.capabilities) :
    decodeWith codec.decode? (codec.encode bundle.toItem) = .ok bundle := by
  rcases decides_read codec measured with ⟨-, read⟩ | ⟨broken, -⟩
  · simp only [decodeWith, read, verified]
  · exact absurd ⟨globals, capabilities⟩ broken

/-- The bytes of a bundle are no bundle if some name cannot be read back. -/
theorem decodeWith_of_not_legible (illegible : ¬ Legible bundle.globals) :
    decodeWith codec.decode? (codec.encode bundle.toItem) = .error .unreadable := by
  rcases decides_read codec measured with ⟨legible, -⟩ | ⟨-, refused⟩
  · exact absurd legible.1 illegible
  · simp only [decodeWith, refused]

/-- What is read back from the bytes of a bundle is the bundle. -/
theorem eq_of_decodeWith {found : Bundle}
    (decoded : decodeWith codec.decode? (codec.encode bundle.toItem) = .ok found) :
    found = bundle := by
  unfold decodeWith at decoded
  split at decoded
  · cases decoded
  · next whole =>
      rw [(decides_read codec measured).eq_of_eq_some whole] at decoded
      split at decoded
      · cases decoded
      · cases decoded
        rfl

end Codecs

/-- A bundle that is read back from its bytes has its code, its globals and its capabilities. -/
theorem decode_encode {bundle found : Bundle} (measured : bundle.Measured)
    (decoded : decode bundle.encode = .ok found) :
    found.code = bundle.code ∧ found.globals = bundle.globals ∧
      found.capabilities = bundle.capabilities := by
  rw [eq_of_decodeWith .canonical measured decoded]
  exact ⟨rfl, rfl, rfl⟩

end ClosureLisp.Bundle
