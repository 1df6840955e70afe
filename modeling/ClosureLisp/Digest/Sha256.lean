import ClosureLisp.Text.Bytes

/-!
# SHA-256

The 256-bit digest of data. The message is padded to blocks of sixteen words; each block
runs through sixty-four rounds, in which a window of sixteen words slides over the message
schedule, and is added to the chaining state.
-/

namespace ClosureLisp

/-- A digest of thirty-two bytes. -/
abbrev Digest := Vector UInt8 32

namespace Digest

/-- The digest with the given bytes, cut or filled with zeros to its width. -/
def ofBytes (data : Bytes) : Digest :=
  let stored := data.toArray
  Vector.ofFn fun index => stored.getD index 0

/-- The bytes of a digest. -/
def toBytes (digest : Digest) : Bytes :=
  digest.toList

/-- The digest whose bytes are all zero. -/
def zero : Digest :=
  ofBytes []

end Digest

namespace Sha256

/-- The eight words of the chaining state. -/
structure State where
  a : UInt32
  b : UInt32
  c : UInt32
  d : UInt32
  e : UInt32
  f : UInt32
  g : UInt32
  h : UInt32
  deriving DecidableEq, Repr

/-- The state before the first block. -/
def State.initial : State :=
  ⟨0x6a09e667, 0xbb67ae85, 0x3c6ef372, 0xa54ff53a,
   0x510e527f, 0x9b05688c, 0x1f83d9ab, 0x5be0cd19⟩

/-- The sum of two states, word by word. -/
def State.add (left right : State) : State :=
  ⟨left.a + right.a, left.b + right.b, left.c + right.c, left.d + right.d,
    left.e + right.e, left.f + right.f, left.g + right.g, left.h + right.h⟩

/-- The words of a state in order. -/
def State.words (state : State) : List UInt32 :=
  [state.a, state.b, state.c, state.d, state.e, state.f, state.g, state.h]

/-- The constants of the sixty-four rounds. -/
def roundConstants : List UInt32 :=
  [0x428a2f98, 0x71374491, 0xb5c0fbcf, 0xe9b5dba5, 0x3956c25b, 0x59f111f1,
   0x923f82a4, 0xab1c5ed5, 0xd807aa98, 0x12835b01, 0x243185be, 0x550c7dc3,
   0x72be5d74, 0x80deb1fe, 0x9bdc06a7, 0xc19bf174, 0xe49b69c1, 0xefbe4786,
   0x0fc19dc6, 0x240ca1cc, 0x2de92c6f, 0x4a7484aa, 0x5cb0a9dc, 0x76f988da,
   0x983e5152, 0xa831c66d, 0xb00327c8, 0xbf597fc7, 0xc6e00bf3, 0xd5a79147,
   0x06ca6351, 0x14292967, 0x27b70a85, 0x2e1b2138, 0x4d2c6dfc, 0x53380d13,
   0x650a7354, 0x766a0abb, 0x81c2c92e, 0x92722c85, 0xa2bfe8a1, 0xa81a664b,
   0xc24b8b70, 0xc76c51a3, 0xd192e819, 0xd6990624, 0xf40e3585, 0x106aa070,
   0x19a4c116, 0x1e376c08, 0x2748774c, 0x34b0bcb5, 0x391c0cb3, 0x4ed8aa4a,
   0x5b9cca4f, 0x682e6ff3, 0x748f82ee, 0x78a5636f, 0x84c87814, 0x8cc70208,
   0x90befffa, 0xa4506ceb, 0xbef9a3f7, 0xc67178f2]

/-- A word rotated to the right. -/
def rotateRight (word : UInt32) (count : UInt32) : UInt32 :=
  (word >>> count) ||| (word <<< (32 - count))

/-- The word that enters the schedule when the given window leaves it. -/
def nextWord (window : List UInt32) : UInt32 :=
  let early := window.getD 1 0
  let late := window.getD 14 0
  let small := rotateRight early 7 ^^^ rotateRight early 18 ^^^ (early >>> 3)
  let large := rotateRight late 17 ^^^ rotateRight late 19 ^^^ (late >>> 10)
  window.getD 0 0 + small + window.getD 9 0 + large

/-- One round with a constant and a word of the schedule. -/
def round (state : State) (constant word : UInt32) : State :=
  let mixed := rotateRight state.e 6 ^^^ rotateRight state.e 11 ^^^ rotateRight state.e 25
  let choice := (state.e &&& state.f) ^^^ (~~~state.e &&& state.g)
  let first := state.h + mixed + choice + constant + word
  let spread := rotateRight state.a 2 ^^^ rotateRight state.a 13 ^^^ rotateRight state.a 22
  let majority := (state.a &&& state.b) ^^^ (state.a &&& state.c) ^^^ (state.b &&& state.c)
  ⟨first + (spread + majority), state.a, state.b, state.c, state.d + first, state.e, state.f,
    state.g⟩

/-- The rounds of one block, whose schedule continues the given window. -/
def rounds (state : State) (window : List UInt32) : List UInt32 → State
  | [] => state
  | constant :: rest =>
      rounds (round state constant (window.getD 0 0)) (window.drop 1 ++ [nextWord window]) rest

/-- Adds one block of sixteen words to a state. -/
def absorb (state : State) (block : List UInt32) : State :=
  state.add (rounds state block roundConstants)

/-- Adds a number of blocks to a state. -/
def absorbAll : (count : Nat) → List UInt32 → State → State
  | 0, _, state => state
  | count + 1, words, state => absorbAll count (words.drop 16) (absorb state (words.take 16))

/-- The big-endian words of data; an incomplete word at the end is dropped. -/
def wordsOf : Bytes → List UInt32
  | first :: second :: third :: fourth :: rest =>
      Bytes.toWord32 first second third fourth :: wordsOf rest
  | _ => []

/-- The padding behind data of a given length: a set bit, zeros up to eight bytes before the
end of a block, and the length in bits. -/
def padding (length : Nat) : Bytes :=
  0x80 :: Bytes.repeated ((119 - length % 64) % 64) 0 ++ Bytes.word64 (8 * length).toUInt64

/-- The digest of data. -/
def digest (data : Bytes) : Digest :=
  let words := wordsOf (data ++ padding data.length)
  Digest.ofBytes ((absorbAll (words.length / 16) words .initial).words.flatMap Bytes.word32)

end Sha256

end ClosureLisp
