import ClosureLisp.Source.Reader

/-!
# Parsing with a list of errors

The reader with two channels. A parsing function returns an expression or nothing and has a list
of errors beside it, to which it adds where it gives up; a caller that gets nothing returns
nothing and leaves the errors as they are. Only the list decides whether a text is refused, so
that nothing without an error would be taken for an empty program.
-/

namespace ClosureLisp

/-- What is returned from fewer than `bound` tokens plus one: a value or nothing, the errors so far
and the tokens behind. There are fewer of these if there is a value. -/
structure Parsing (α : Type) (bound : Nat) where
  value? : Option α
  errors : List SourceError
  rest : List Token
  shorter : value?.isSome = true → rest.length < bound

namespace Parsing

variable {α : Type} {bound : Nat}

theorem length_lt_cons (token : Token) (rest : List Token) :
    rest.length < (token :: rest).length :=
  Nat.lt_succ_self _

/-- A value, with no further errors. -/
def found (value : α) (errors : List SourceError) (rest : List Token)
    (shorter : rest.length < bound) : Parsing α bound :=
  ⟨some value, errors, rest, fun _ => shorter⟩

/-- Nothing, with no further errors. -/
def nothing (errors : List SourceError) (rest : List Token) : Parsing α bound :=
  ⟨none, errors, rest, nofun⟩

/-- Nothing, with one more error. -/
def refused (errors : List SourceError) (error : SourceError) (rest : List Token) :
    Parsing α bound :=
  nothing (errors ++ [error]) rest

end Parsing

namespace Parser

open Reader (fault integer? conditional?)
open Parsing (length_lt_cons)

/-- Parses names up to and including a closing parenthesis. -/
def parseNames (stop : Position) (form : SpecialForm) (errors : List SourceError) :
    (tokens : List Token) → Parsing (List Name) tokens.length
  | [] => .refused errors (fault stop (.parameterNotName form endClassName)) []
  | token :: rest =>
      match token.lexeme with
      | .rightParen => .found [] errors rest (length_lt_cons token rest)
      | .symbol name =>
          match parseNames stop form errors rest with
          | ⟨none, errors, left, _⟩ => .nothing errors left
          | ⟨some names, errors, left, shorter⟩ =>
              .found (name :: names) errors left (Nat.lt_succ_of_lt (shorter rfl))
      | other =>
          .refused errors (fault token.place (.parameterNotName form other.className))
            (token :: rest)

/-- Consumes a closing parenthesis and returns its place. -/
def expectClose (stop : Position) (form : SpecialForm) (errors : List SourceError) :
    (tokens : List Token) → Parsing Position tokens.length
  | [] => .refused errors (fault stop (.unterminated form)) []
  | token :: rest =>
      match token.lexeme with
      | .rightParen => .found token.place errors rest (length_lt_cons token rest)
      | _ => .refused errors (fault token.place (.tooManyOperands form)) (token :: rest)

mutual

/-- Parses one expression. -/
def parseExpr (stop : Position) (errors : List SourceError) (tokens : List Token) :
    Parsing Expr tokens.length :=
  match tokens with
  | [] => .refused errors (fault stop .unexpectedEnd) []
  | token :: rest =>
      match token.lexeme with
      | .integer digits =>
          match integer? digits with
          | none => .refused errors (fault token.place (.integerOutOfRange digits)) (token :: rest)
          | some value => .found (.int token.span value) errors rest (length_lt_cons token rest)
      | .bool value => .found (.bool token.span value) errors rest (length_lt_cons token rest)
      | .symbol name => .found (.var token.span name) errors rest (length_lt_cons token rest)
      | .leftParen =>
          match parseList stop token.place errors rest with
          | ⟨none, errors, left, _⟩ => .nothing errors left
          | ⟨some expr, errors, left, shorter⟩ =>
              .found expr errors left (Nat.lt_succ_of_lt (shorter rfl))
      | .rightParen => .refused errors (fault token.place .unexpectedClose) (token :: rest)
      | .unknown word =>
          .refused errors (fault token.place (.unknownLiteral (Lexeme.unknown word).literal))
            (token :: rest)
termination_by (tokens.length, 0)

/-- Parses expressions up to and including a closing parenthesis, whose place is kept. -/
def parseUntilClose (stop : Position) (errors : List SourceError) (tokens : List Token) :
    Parsing (List Expr × Position) tokens.length :=
  match tokens with
  | [] => .refused errors (fault stop .unexpectedEnd) []
  | token :: rest =>
      if token.lexeme = .rightParen then
        .found ([], token.place) errors rest (length_lt_cons token rest)
      else
        match parseExpr stop errors (token :: rest) with
        | ⟨none, errors, left, _⟩ => .nothing errors left
        | ⟨some expr, errors, left, shorter⟩ =>
            match parseUntilClose stop errors left with
            | ⟨none, errors, left, _⟩ => .nothing errors left
            | ⟨some (exprs, close), errors, left, shorter'⟩ =>
                .found (expr :: exprs, close) errors left
                  (Nat.lt_trans (shorter' rfl) (shorter rfl))
termination_by (tokens.length, 1)
decreasing_by
  · exact Prod.Lex.right _ Nat.zero_lt_one
  · exact Prod.Lex.left _ _ (shorter rfl)

/-- Parses a parenthesised form behind its opening parenthesis: a special form or a call. -/
def parseList (stop start : Position) (errors : List SourceError) (tokens : List Token) :
    Parsing Expr tokens.length :=
  match tokens with
  | [] => .refused errors (fault stop .unexpectedEnd) []
  | head :: rest =>
      if head.lexeme = .symbol (utf8 "if") then
        match parseUntilClose stop errors rest with
        | ⟨none, errors, left, _⟩ => .nothing errors left
        | ⟨some (parts, close), errors, left, shorter⟩ =>
            match conditional? ⟨start, close⟩ parts with
            | none => .refused errors (fault start (.ifOperands parts.length)) left
            | some expr => .found expr errors left (Nat.lt_succ_of_lt (shorter rfl))
      else if head.lexeme = .symbol (utf8 "define") then
        match parseDefine stop start errors rest with
        | ⟨none, errors, left, _⟩ => .nothing errors left
        | ⟨some expr, errors, left, shorter⟩ =>
            .found expr errors left (Nat.lt_succ_of_lt (shorter rfl))
      else if head.lexeme = .symbol (utf8 "lambda") then
        match parseLambda stop start errors rest with
        | ⟨none, errors, left, _⟩ => .nothing errors left
        | ⟨some expr, errors, left, shorter⟩ =>
            .found expr errors left (Nat.lt_succ_of_lt (shorter rfl))
      else if head.lexeme = .rightParen then
        .refused errors (fault head.place .emptyApplication) (head :: rest)
      else
        match parseExpr stop errors (head :: rest) with
        | ⟨none, errors, left, _⟩ => .nothing errors left
        | ⟨some callee, errors, left, shorter⟩ =>
            match parseUntilClose stop errors left with
            | ⟨none, errors, left, _⟩ => .nothing errors left
            | ⟨some (arguments, close), errors, left, shorter'⟩ =>
                .found (.call ⟨start, close⟩ callee arguments) errors left
                  (Nat.lt_trans (shorter' rfl) (shorter rfl))
termination_by (tokens.length, 1)
decreasing_by
  · exact Prod.Lex.left _ _ (Nat.lt_succ_self _)
  · exact Prod.Lex.left _ _ (Nat.lt_succ_self _)
  · exact Prod.Lex.left _ _ (Nat.lt_succ_self _)
  · exact Prod.Lex.right _ Nat.zero_lt_one
  · exact Prod.Lex.left _ _ (shorter rfl)

/-- Parses a define behind its keyword, with a name or with a signature in parentheses. -/
def parseDefine (stop start : Position) (errors : List SourceError) (tokens : List Token) :
    Parsing Expr tokens.length :=
  match tokens with
  | [] => .refused errors (fault stop .defineNeedsName) []
  | head :: rest =>
      match head.lexeme with
      | .leftParen =>
          match parseNames stop .define errors rest with
          | ⟨none, errors, left, _⟩ => .nothing errors left
          | ⟨some [], errors, left, _⟩ =>
              .refused errors (fault head.place .defineNeedsName) left
          | ⟨some (name :: parameters), errors, left, shorter⟩ =>
              match parseExpr stop errors left with
              | ⟨none, errors, left, _⟩ => .nothing errors left
              | ⟨some body, errors, left, shorter'⟩ =>
                  match expectClose stop .define errors left with
                  | ⟨none, errors, left, _⟩ => .nothing errors left
                  | ⟨some close, errors, left, shorter''⟩ =>
                      .found
                        (.define ⟨start, close⟩ name
                          (.lambda ⟨start, close⟩ (some name) parameters body))
                        errors left
                        (Nat.lt_succ_of_lt (Nat.lt_trans (shorter'' rfl)
                          (Nat.lt_trans (shorter' rfl) (shorter rfl))))
      | .symbol name =>
          match parseExpr stop errors rest with
          | ⟨none, errors, left, _⟩ => .nothing errors left
          | ⟨some value, errors, left, shorter⟩ =>
              match expectClose stop .define errors left with
              | ⟨none, errors, left, _⟩ => .nothing errors left
              | ⟨some close, errors, left, shorter'⟩ =>
                  .found (.define ⟨start, close⟩ name (value.named name)) errors left
                    (Nat.lt_succ_of_lt (Nat.lt_trans (shorter' rfl) (shorter rfl)))
      | _ => .refused errors (fault head.place .defineNeedsName) (head :: rest)
termination_by (tokens.length, 1)
decreasing_by
  · exact Prod.Lex.left _ _ (Nat.lt_succ_of_lt (shorter rfl))
  · exact Prod.Lex.left _ _ (Nat.lt_succ_self _)

/-- Parses a lambda behind its keyword. -/
def parseLambda (stop start : Position) (errors : List SourceError) (tokens : List Token) :
    Parsing Expr tokens.length :=
  match tokens with
  | [] => .refused errors (fault stop .lambdaNeedsParameters) []
  | head :: rest =>
      match head.lexeme with
      | .leftParen =>
          match parseNames stop .lambda errors rest with
          | ⟨none, errors, left, _⟩ => .nothing errors left
          | ⟨some parameters, errors, left, shorter⟩ =>
              match parseExpr stop errors left with
              | ⟨none, errors, left, _⟩ => .nothing errors left
              | ⟨some body, errors, left, shorter'⟩ =>
                  match expectClose stop .lambda errors left with
                  | ⟨none, errors, left, _⟩ => .nothing errors left
                  | ⟨some close, errors, left, shorter''⟩ =>
                      .found (.lambda ⟨start, close⟩ none parameters body) errors left
                        (Nat.lt_succ_of_lt (Nat.lt_trans (shorter'' rfl)
                          (Nat.lt_trans (shorter' rfl) (shorter rfl))))
      | _ => .refused errors (fault head.place .lambdaNeedsParameters) (head :: rest)
termination_by (tokens.length, 1)
decreasing_by exact Prod.Lex.left _ _ (Nat.lt_succ_of_lt (shorter rfl))

end

/-- Parses expressions up to the end of the tokens, until one gives nothing. -/
def parseProgram (stop : Position) (errors : List SourceError) (tokens : List Token) :
    Option (List Expr) × List SourceError :=
  match tokens with
  | [] => (some [], errors)
  | token :: rest =>
      match parseExpr stop errors (token :: rest) with
      | ⟨none, errors, _, _⟩ => (none, errors)
      | ⟨some expr, errors, left, _shorter⟩ =>
          match parseProgram stop errors left with
          | (none, errors) => (none, errors)
          | (some exprs, errors) => (some (expr :: exprs), errors)
termination_by tokens.length
decreasing_by exact _shorter rfl

/-- The top-level expressions of a text: the first error if there are any, and otherwise what was
returned. -/
def parse (text : Bytes) : Except SourceError (List Expr) :=
  let lexed := Lexed.ofBytes text
  match parseProgram lexed.stop [] lexed.tokens with
  | (_, error :: _) => .error error
  | (returned?, []) => .ok (returned?.getD [])

/-- Parses a given number of times, each time from where the last call stopped: what each call
returns, with all errors so far. -/
def parseTimes (stop : Position) (errors : List SourceError) :
    Nat → List Token → List (Option Expr × List SourceError)
  | 0, _ => []
  | count + 1, tokens =>
      let parsing := parseExpr stop errors tokens
      (parsing.value?, parsing.errors) :: parseTimes stop parsing.errors count parsing.rest

end Parser

end ClosureLisp
