import ClosureLisp.Source.Token
import ClosureLisp.Text.Blank

/-!
# Lexing

A text is cut into tokens glyph by glyph. Blanks and comments separate tokens, a
parenthesis is a token by itself, and every other glyph starts a word that runs up to
the next delimiter. Lexing always reaches the end of the text, whose place is kept
because errors are reported there.
-/

namespace ClosureLisp

/-- The tokens of a text and the place of its end. -/
structure Lexed where
  tokens : List Token
  stop : Position
  deriving Repr

namespace Lexed

/-- Whether a glyph ends a word: a blank, a parenthesis or the start of a comment. -/
def isDelimiter (glyph : Glyph) : Bool :=
  glyph.code = 0x28 || glyph.code = 0x29 || glyph.code = 0x3B || isBlank glyph.code

/-- Whether a glyph belongs to the word it follows. -/
def inWord (glyph : Glyph) : Bool :=
  !isDelimiter glyph

/-- Whether a glyph belongs to the comment it follows. -/
def inComment (glyph : Glyph) : Bool :=
  glyph.code ≠ 10

/-- Whether a byte is a decimal digit. -/
def isDigit (byte : UInt8) : Bool :=
  48 ≤ byte && byte ≤ 57

/-- Whether a word is an integer: at most one sign, then at least one digit. -/
def isInteger : Bytes → Bool
  | [] => false
  | byte :: rest =>
      if byte = 43 || byte = 45 then !rest.isEmpty && rest.all isDigit
      else (byte :: rest).all isDigit

/-- The token a word makes. -/
def classify (word : Bytes) : Lexeme :=
  if word.head? = some 35 then
    if word = utf8 "#t" || word = utf8 "#true" then .bool true
    else if word = utf8 "#f" || word = utf8 "#false" then .bool false
    else .unknown word
  else if isInteger word then .integer word
  else .symbol word

/-- A lexed text with one more token in front. -/
def cons (token : Token) (lexed : Lexed) : Lexed :=
  ⟨token :: lexed.tokens, lexed.stop⟩

/-- Lexes glyphs that start at a given place. -/
def ofGlyphs (place : Position) : List Glyph → Lexed
  | [] => ⟨[], place⟩
  | glyph :: rest =>
      if glyph.code = 0x3B then
        ofGlyphs ((place.after glyph).afterAll (rest.takeWhile inComment))
          (rest.dropWhile inComment)
      else if isBlank glyph.code then ofGlyphs (place.after glyph) rest
      else if glyph.code = 0x28 then
        cons ⟨.leftParen, place⟩ (ofGlyphs (place.after glyph) rest)
      else if glyph.code = 0x29 then
        cons ⟨.rightParen, place⟩ (ofGlyphs (place.after glyph) rest)
      else
        let word := glyph :: rest.takeWhile inWord
        cons ⟨classify (Glyph.toBytes word), place⟩
          (ofGlyphs (place.afterAll word) (rest.dropWhile inWord))
termination_by glyphs => glyphs.length
decreasing_by
  · exact Nat.lt_succ_of_le (List.dropWhile_suffix inComment).length_le
  · exact Nat.lt_succ_self _
  · exact Nat.lt_succ_self _
  · exact Nat.lt_succ_self _
  · exact Nat.lt_succ_of_le (List.dropWhile_suffix inWord).length_le

/-- Lexes a text. -/
def ofBytes (text : Bytes) : Lexed :=
  ofGlyphs Position.origin (Glyph.ofBytes text)

/-- The tokens of a lexed text and its end. -/
def scans (lexed : Lexed) : List Scan :=
  lexed.tokens.map .found ++ [.stop lexed.stop]

/-- Gives out tokens up to and including the end of the text or the first unknown word. -/
def giveOut (stop : Position) : List Token → List Scan
  | [] => [.stop stop]
  | token :: rest =>
      if (Scan.found token).isLast then [.found token] else .found token :: giveOut stop rest

/-- What the lexer gives out of a text. -/
def givenOut (text : Bytes) : List Scan :=
  giveOut (ofBytes text).stop (ofBytes text).tokens

end Lexed

end ClosureLisp
