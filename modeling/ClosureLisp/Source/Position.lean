import ClosureLisp.Text.Glyph

/-!
# Positions and spans

A position counts bytes from the start of a text, and lines and characters from one.
`Position.after` moves it past one glyph, which is the only way positions advance
while a text is read.
-/

namespace ClosureLisp

/-- A place in a source text. -/
structure Position where
  offset : Nat
  line : Nat
  column : Nat
  deriving DecidableEq, Repr, Inhabited

/-- A range of a source text. -/
structure Span where
  start : Position
  stop : Position
  deriving DecidableEq, Repr, Inhabited

namespace Position

/-- The first place of every text. -/
def origin : Position :=
  ⟨0, 1, 1⟩

/-- The place behind one glyph; a line feed starts a new line. -/
def after (place : Position) (glyph : Glyph) : Position :=
  if glyph.code = 10 then ⟨place.offset + glyph.bytes.length, place.line + 1, 1⟩
  else ⟨place.offset + glyph.bytes.length, place.line, place.column + 1⟩

/-- The place behind a run of glyphs. -/
def afterAll (place : Position) (glyphs : List Glyph) : Position :=
  glyphs.foldl after place

/-- The place as `line:column`. -/
def text (place : Position) : Bytes :=
  Bytes.decimalNat place.line ++ utf8 ":" ++ Bytes.decimalNat place.column

end Position

end ClosureLisp
