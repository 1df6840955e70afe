import ClosureLisp.Source.Error
import ClosureLisp.Source.Expr
import ClosureLisp.Source.Lexer

/-!
# Reading expressions

Recursive descent over a list of tokens. A reading either yields a value with the
tokens behind it, of which there are fewer than before, or an error with the tokens at
which it stopped, so that a caller can go on from there. The end of the input is an
empty token list, and its place is passed along.
-/

namespace ClosureLisp

/-- The outcome of reading from fewer than `bound` tokens plus one. -/
inductive Reading (α : Type) (bound : Nat) where
  | done (value : α) (rest : List Token) (shorter : rest.length < bound)
  | failed (error : SourceError) (rest : List Token)

namespace Reader

/-- An error of reading at a place. -/
def fault (place : Position) (cause : ReadFault) : SourceError :=
  ⟨place, .malformed cause⟩

/-- The value of a run of decimal digits. -/
def digitsValue (digits : Bytes) : Nat :=
  digits.foldl (fun value digit => value * 10 + (digit.toNat - 48)) 0

/-- The mathematical value of an integer token. -/
def integerValue : Bytes → Int
  | [] => 0
  | byte :: rest =>
      if byte = 45 then -(digitsValue rest : Int)
      else if byte = 43 then digitsValue rest
      else digitsValue (byte :: rest)

/-- The value of an integer token, if it fits a signed word of thirty-two bits. -/
def integer? (digits : Bytes) : Option Int32 :=
  let value := integerValue digits
  if -2147483648 ≤ value ∧ value < 2147483648 then some (Int32.ofInt value) else none

/-- Reads names up to and including a closing parenthesis. -/
def readNames (stop : Position) (form : SpecialForm) :
    (tokens : List Token) → Reading (List Name) tokens.length
  | [] => .failed (fault stop (.parameterNotName form endClassName)) []
  | token :: rest =>
      match token.lexeme with
      | .rightParen => .done [] rest (Nat.lt_succ_self _)
      | .symbol name =>
          match readNames stop form rest with
          | .failed error left => .failed error left
          | .done names left shorter => .done (name :: names) left (Nat.lt_succ_of_lt shorter)
      | other =>
          .failed (fault token.place (.parameterNotName form other.className)) (token :: rest)

/-- Consumes a closing parenthesis and yields its place. -/
def readClose (stop : Position) (form : SpecialForm) :
    (tokens : List Token) → Reading Position tokens.length
  | [] => .failed (fault stop (.unterminated form)) []
  | token :: rest =>
      match token.lexeme with
      | .rightParen => .done token.place rest (Nat.lt_succ_self _)
      | _ => .failed (fault token.place (.tooManyOperands form)) (token :: rest)

/-- The conditional with the given operands. -/
def conditional? (span : Span) : List Expr → Option Expr
  | [test, consequent] => some (.ifThen span test consequent)
  | [test, consequent, alternative] => some (.ifElse span test consequent alternative)
  | _ => none

mutual

/-- Reads one expression. -/
def readExpr (stop : Position) (tokens : List Token) : Reading Expr tokens.length :=
  match tokens with
  | [] => .failed (fault stop .unexpectedEnd) []
  | token :: rest =>
      match token.lexeme with
      | .integer digits =>
          match integer? digits with
          | some value => .done (.int token.span value) rest (Nat.lt_succ_self _)
          | none => .failed (fault token.place (.integerOutOfRange digits)) (token :: rest)
      | .bool value => .done (.bool token.span value) rest (Nat.lt_succ_self _)
      | .symbol name => .done (.var token.span name) rest (Nat.lt_succ_self _)
      | .rightParen => .failed (fault token.place .unexpectedClose) (token :: rest)
      | .unknown word =>
          .failed (fault token.place (.unknownLiteral (Lexeme.unknown word).literal))
            (token :: rest)
      | .leftParen =>
          match readForm stop token.place rest with
          | .failed error left => .failed error left
          | .done expr left shorter => .done expr left (Nat.lt_succ_of_lt shorter)
termination_by (tokens.length, 0)

/-- Reads expressions up to and including a closing parenthesis, whose place is kept. -/
def readOperands (stop : Position) (tokens : List Token) :
    Reading (List Expr × Position) tokens.length :=
  match tokens with
  | [] => .failed (fault stop .unexpectedEnd) []
  | token :: rest =>
      if token.lexeme = .rightParen then .done ([], token.place) rest (Nat.lt_succ_self _)
      else
        match readExpr stop (token :: rest) with
        | .failed error left => .failed error left
        | .done expr left shorter =>
            match readOperands stop left with
            | .failed error left => .failed error left
            | .done (exprs, close) left shorter' =>
                .done (expr :: exprs, close) left (Nat.lt_trans shorter' shorter)
termination_by (tokens.length, 1)

/-- Reads a parenthesised form behind its opening parenthesis: a special form or a call. -/
def readForm (stop start : Position) (tokens : List Token) : Reading Expr tokens.length :=
  match tokens with
  | [] => .failed (fault stop .unexpectedEnd) []
  | head :: rest =>
      if head.lexeme = .symbol (utf8 "if") then
        match readOperands stop rest with
        | .failed error left => .failed error left
        | .done (operands, close) left shorter =>
            match conditional? ⟨start, close⟩ operands with
            | some expr => .done expr left (Nat.lt_succ_of_lt shorter)
            | none => .failed (fault start (.ifOperands operands.length)) left
      else if head.lexeme = .symbol (utf8 "define") then
        match readDefine stop start rest with
        | .failed error left => .failed error left
        | .done expr left shorter => .done expr left (Nat.lt_succ_of_lt shorter)
      else if head.lexeme = .symbol (utf8 "lambda") then
        match readLambda stop start rest with
        | .failed error left => .failed error left
        | .done expr left shorter => .done expr left (Nat.lt_succ_of_lt shorter)
      else if head.lexeme = .rightParen then
        .failed (fault head.place .emptyApplication) (head :: rest)
      else
        match readExpr stop (head :: rest) with
        | .failed error left => .failed error left
        | .done callee left shorter =>
            match readOperands stop left with
            | .failed error left => .failed error left
            | .done (arguments, close) left shorter' =>
                .done (.call ⟨start, close⟩ callee arguments) left (Nat.lt_trans shorter' shorter)
termination_by (tokens.length, 1)

/-- Reads a define behind its keyword, with a name or with a signature in parentheses. -/
def readDefine (stop start : Position) (tokens : List Token) : Reading Expr tokens.length :=
  match tokens with
  | [] => .failed (fault stop .defineNeedsName) []
  | head :: rest =>
      match head.lexeme with
      | .leftParen =>
          match readNames stop .define rest with
          | .failed error left => .failed error left
          | .done [] left _ => .failed (fault head.place .defineNeedsName) left
          | .done (name :: parameters) left shorter =>
              match readExpr stop left with
              | .failed error left => .failed error left
              | .done body left shorter' =>
                  match readClose stop .define left with
                  | .failed error left => .failed error left
                  | .done close left shorter'' =>
                      .done
                        (.define ⟨start, close⟩ name
                          (.lambda ⟨start, close⟩ (some name) parameters body))
                        left
                        (Nat.lt_succ_of_lt (Nat.lt_trans shorter'' (Nat.lt_trans shorter' shorter)))
      | .symbol name =>
          match readExpr stop rest with
          | .failed error left => .failed error left
          | .done value left shorter =>
              match readClose stop .define left with
              | .failed error left => .failed error left
              | .done close left shorter' =>
                  .done (.define ⟨start, close⟩ name (value.named name)) left
                    (Nat.lt_succ_of_lt (Nat.lt_trans shorter' shorter))
      | _ => .failed (fault head.place .defineNeedsName) (head :: rest)
termination_by (tokens.length, 1)

/-- Reads a lambda behind its keyword. -/
def readLambda (stop start : Position) (tokens : List Token) : Reading Expr tokens.length :=
  match tokens with
  | [] => .failed (fault stop .lambdaNeedsParameters) []
  | head :: rest =>
      match head.lexeme with
      | .leftParen =>
          match readNames stop .lambda rest with
          | .failed error left => .failed error left
          | .done parameters left shorter =>
              match readExpr stop left with
              | .failed error left => .failed error left
              | .done body left shorter' =>
                  match readClose stop .lambda left with
                  | .failed error left => .failed error left
                  | .done close left shorter'' =>
                      .done (.lambda ⟨start, close⟩ none parameters body) left
                        (Nat.lt_succ_of_lt (Nat.lt_trans shorter'' (Nat.lt_trans shorter' shorter)))
      | _ => .failed (fault head.place .lambdaNeedsParameters) (head :: rest)
termination_by (tokens.length, 1)

end

/-- Reads expressions up to the end of the tokens; the first error ends the reading. -/
def readAll (stop : Position) (tokens : List Token) : Except SourceError (List Expr) :=
  match tokens with
  | [] => .ok []
  | token :: rest =>
      match readExpr stop (token :: rest) with
      | .failed error _ => .error error
      | .done expr left _ =>
          match readAll stop left with
          | .error error => .error error
          | .ok exprs => .ok (expr :: exprs)
termination_by tokens.length
decreasing_by assumption

/-- The top-level expressions of a text. -/
def parse (text : Bytes) : Except SourceError (List Expr) :=
  let lexed := Lexed.ofBytes text
  readAll lexed.stop lexed.tokens

end Reader

end ClosureLisp
