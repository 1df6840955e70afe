import ClosureLisp.Bytecode.Decode

/-!
# Listings

A readable listing of an instruction stream, one instruction a line. A load of a global
that has a name is followed by that name.
-/

namespace ClosureLisp.Code

/-- The name behind a load of a global, where there is one. -/
def globalNote (globals : List Name) : Instr → Bytes
  | .getGlobal slot =>
      if 0 ≤ slot then
        match globals[slot.toInt.toNat]? with
        | some name => utf8 "  ; " ++ name
        | none => []
      else []
  | _ => []

/-- One line of a listing. -/
def listingLine (globals : List Name) (located : Located) : Bytes :=
  Bytes.zeroPadded 4 located.offset ++ utf8 "  " ++ located.instr.text ++
    globalNote globals located.instr ++ utf8 "\n"

/-- The listing of a stream, and the error that ends it early. -/
def listing (code : Code) (globals : List Name) : Bytes × Option DecodeError :=
  let decoded := code.decodeAll
  (decoded.1.flatMap (listingLine globals), decoded.2)

/-- The listing of a stream with an error as a last line. -/
def fullListing (code : Code) (globals : List Name) : Bytes :=
  match code.listing globals with
  | (lines, none) => lines
  | (lines, some error) => lines ++ utf8 "; error: " ++ error.message ++ utf8 "\n"

end ClosureLisp.Code
