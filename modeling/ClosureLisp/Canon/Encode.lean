import ClosureLisp.Canon.Basic
import ClosureLisp.Digest.Sha256

/-!
# Serialized canonical forms

A canonical form as bytes: a tag for the kind of node, then its fields, numbers and lengths
as big-endian words and sub-trees in line. The bytes start with the version of the format,
and their digest is the identity of a program.
-/

namespace ClosureLisp.Canon

/-- The version of the serialized format. -/
def formatVersion : UInt8 := 1

/-- A number of things as a four-byte word. -/
def encodeCount (count : Nat) : Bytes :=
  Bytes.word32 count.toUInt32

/-- A name behind its length. -/
def encodeName (name : Name) : Bytes :=
  encodeCount name.length ++ name

mutual

/-- The bytes of a canonical form, without the version. -/
def encodeNode : Canon → Bytes
  | .int value => 0x01 :: Bytes.word32 value.toUInt32
  | .bool value => [0x02, if value then 1 else 0]
  | .bound depth slot => 0x03 :: (Bytes.word16 depth ++ Bytes.word16 slot)
  | .free name => 0x04 :: encodeName name
  | .ifThen test consequent => 0x10 :: (encodeNode test ++ (encodeNode consequent ++ [0]))
  | .ifElse test consequent alternative =>
      0x10 :: (encodeNode test ++ (encodeNode consequent ++ 1 :: encodeNode alternative))
  | .lambda arity body => 0x11 :: (encodeCount arity ++ encodeNode body)
  | .call callee arguments =>
      0x12 :: (encodeNode callee ++ (encodeCount arguments.length ++ encodeNodes arguments))
  | .define name value => 0x20 :: (encodeName name ++ encodeNode value)
  | .program forms => 0x21 :: (encodeCount forms.length ++ encodeNodes forms)

/-- The bytes of canonical forms in a row. -/
def encodeNodes : List Canon → Bytes
  | [] => []
  | node :: rest => encodeNode node ++ encodeNodes rest

end

/-- The serialized form: the version and the node. -/
def encode (node : Canon) : Bytes :=
  formatVersion :: encodeNode node

/-- The identity of a program: the digest of its serialized canonical form. -/
def programDigest (exprs : List Expr) : Digest :=
  Sha256.digest (ofProgram exprs).encode

end ClosureLisp.Canon
