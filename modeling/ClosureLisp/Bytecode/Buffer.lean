import ClosureLisp.Bytecode.Decode
import ClosureLisp.Bytecode.Record

/-!
# Code buffers

A growing instruction stream kept in a block of storage. Only the used part of the block
is the stream; the rest is spare room. Truncation moves the end of the used part to any
place in the block, so moving it forward brings bytes of the spare room back. `code` is
the view of a buffer as a stream.
-/

namespace ClosureLisp

/-- A growing instruction stream in a block of storage. -/
structure CodeBuffer where
  block : Array UInt8
  used : Nat
  used_le : used ≤ block.size

namespace CodeBuffer

/-- The room of a fresh buffer, in bytes. -/
def initialRoom : Nat := 64

/-- An empty buffer. -/
def empty : CodeBuffer :=
  ⟨Array.replicate initialRoom 0, 0, Nat.zero_le _⟩

/-- The stream in a buffer. -/
def code (buffer : CodeBuffer) : Code :=
  buffer.block.extract 0 buffer.used

theorem size_code (buffer : CodeBuffer) : buffer.code.size = buffer.used := by
  simp [code, Nat.min_eq_left buffer.used_le]

/-- The sizes of storage blocks up to thirty-two kibibytes. -/
def blockSizes : List Nat :=
  [64, 80, 96, 112, 128, 144, 160, 176, 192, 208, 224, 240, 256, 288, 320, 352, 384, 416, 448,
    480, 512, 576, 640, 704, 768, 896, 1024, 1152, 1280, 1408, 1536, 1792, 2048, 2304, 2688,
    3072, 3200, 3456, 4096, 4864, 5120, 5376, 6144, 6528, 6784, 6912, 8192, 9472, 9728, 10240,
    10880, 12288, 13568, 14336, 16384, 18432, 19072, 20480, 21760, 24576, 27264, 28672, 32768]

/-- The room of the smallest block that holds the given number of bytes: larger blocks are
whole pages. -/
def blockRoom (needed : Nat) : Nat :=
  (blockSizes.find? fun size => needed ≤ size).getD ((needed + 8191) / 8192 * 8192)

/-- The room after growing: doubled while small, then a quarter more, and never less than needed. -/
def grownRoom (room needed : Nat) : Nat :=
  blockRoom (max needed (if room < 256 then 2 * room else room + (room + 768) / 4))

/-- A block with bytes written over it from an offset on. -/
def overwrite (block : Array UInt8) (offset : Nat) : Bytes → Array UInt8
  | [] => block
  | byte :: rest => overwrite (block.setIfInBounds offset byte) (offset + 1) rest

theorem size_overwrite (block : Array UInt8) (offset : Nat) (bytes : Bytes) :
    (overwrite block offset bytes).size = block.size := by
  induction bytes generalizing block offset with
  | nil => rfl
  | cons byte rest ih => rw [overwrite, ih, Array.size_setIfInBounds]

/-- Appends bytes to the stream, in the spare room if they fit and else in a larger block. -/
def append (buffer : CodeBuffer) (bytes : Bytes) : CodeBuffer :=
  let needed := buffer.used + bytes.length
  if fits : needed ≤ buffer.block.size then
    ⟨overwrite buffer.block buffer.used bytes, needed, by rw [size_overwrite]; exact fits⟩
  else
    let spare := grownRoom buffer.block.size needed - needed
    ⟨buffer.code ++ bytes.toArray ++ Array.replicate spare 0, needed, by
      simp [size_code, needed]⟩

/-- Appends one instruction. -/
def emit (buffer : CodeBuffer) (instr : Instr) : CodeBuffer :=
  buffer.append instr.encode

/-- Appends a run of instructions. -/
def emitAll (buffer : CodeBuffer) (instrs : List Instr) : CodeBuffer :=
  instrs.foldl emit buffer

/-- Appends the instruction of a record. A record that is none leaves the stream as it is, but
its opcode byte may stand in the spare room. -/
def emitRecord (buffer : CodeBuffer) (record : InstrRecord) :
    Except EncodeFault Instr × CodeBuffer :=
  match record.instr with
  | .ok instr => (.ok instr, buffer.emit instr)
  | .error fault =>
      (.error fault,
        ⟨overwrite buffer.block buffer.used [record.opcode], buffer.used, by
          rw [size_overwrite]; exact buffer.used_le⟩)

/-- Appends a jump whose target is still open and yields the place of the target. -/
def emitJump (buffer : CodeBuffer) (opcode : UInt8) : Except EncodeFault Nat × CodeBuffer :=
  match Opcode.ofByte? opcode with
  | some .jump => (.ok (buffer.used + 1), buffer.emit (.jump (-1)))
  | some .jumpIf => (.ok (buffer.used + 1), buffer.emit (.jumpIf (-1)))
  | _ => (.error (.notJump opcode), buffer)

/-- Writes a target, cut to thirty-two bits, over four bytes inside the stream. -/
def patch? (buffer : CodeBuffer) (site target : Int) : Option CodeBuffer :=
  if 0 ≤ site ∧ site + 4 ≤ buffer.used then
    some ⟨overwrite buffer.block site.toNat (Instr.operand (Int32.ofInt target)), buffer.used, by
      rw [size_overwrite]; exact buffer.used_le⟩
  else none

/-- Moves the end of the stream to an offset inside the block. -/
def truncate? (buffer : CodeBuffer) (length : Int) : Option CodeBuffer :=
  if inside : 0 ≤ length ∧ length ≤ buffer.block.size then
    some ⟨buffer.block, length.toNat, by omega⟩
  else none

end CodeBuffer

end ClosureLisp
