import ClosureLisp.Source.Position
import ClosureLisp.Text.Quoted

/-!
# Tokens

The lexical units of the language. A word that starts with `#` and is no boolean is
still a token, `unknown`, so that reading can go on behind it.
-/

namespace ClosureLisp

/-- The name of a variable, a parameter or a function. -/
abbrev Name := Bytes

/-- What a token says. -/
inductive Lexeme where
  | integer (digits : Bytes)
  | bool (value : Bool)
  | symbol (name : Name)
  | leftParen
  | rightParen
  | unknown (word : Bytes)
  deriving DecidableEq, Repr

namespace Lexeme

/-- The text a token is shown with. Both spellings of a boolean are shown alike. -/
def literal : Lexeme → Bytes
  | .integer digits => digits
  | .bool true => utf8 "#t"
  | .bool false => utf8 "#f"
  | .symbol name => name
  | .leftParen => utf8 "("
  | .rightParen => utf8 ")"
  | .unknown word => utf8 "unknown literal " ++ word

/-- The name of a token's class. -/
def className : Lexeme → Bytes
  | .integer _ => utf8 "INTEGER"
  | .bool _ => utf8 "BOOL"
  | .symbol _ => utf8 "SYMBOL"
  | .leftParen => utf8 "("
  | .rightParen => utf8 ")"
  | .unknown _ => utf8 "ERROR"

end Lexeme

/-- The class name of the end of the input. -/
def endClassName : Bytes :=
  utf8 "EOF"

/-- A token and the place where it starts. -/
structure Token where
  lexeme : Lexeme
  place : Position
  deriving DecidableEq, Repr

namespace Token

/-- The span of a token that is an expression by itself: as long as its literal. -/
def span (token : Token) : Span :=
  let length := token.lexeme.literal.length
  ⟨token.place, ⟨token.place.offset + length, token.place.line, token.place.column + length⟩⟩

end Token

/-- What the lexer gives out: a token, or the end of the text. -/
inductive Scan where
  | found (token : Token)
  | stop (place : Position)
  deriving DecidableEq, Repr

namespace Scan

/-- The place of what is given out. -/
def place : Scan → Position
  | .found token => token.place
  | .stop place => place

/-- The name of its class. -/
def className : Scan → Bytes
  | .found token => token.lexeme.className
  | .stop _ => endClassName

/-- The text it is shown with. -/
def literal : Scan → Bytes
  | .found token => token.lexeme.literal
  | .stop _ => []

/-- Class, literal and place in one line of text. -/
def text (scan : Scan) : Bytes :=
  scan.className ++ utf8 "(" ++ Quoted.quote scan.literal ++ utf8 ") at " ++ scan.place.text

/-- Whether nothing is given out behind it: it is the end of the text or an unknown word. -/
def isLast : Scan → Bool
  | .found ⟨.unknown _, _⟩ => true
  | .found _ => false
  | .stop _ => true

end Scan

end ClosureLisp
