import ClosureLisp.Source.Parser

/-!
# Errors beside what is returned

The parser with its list of errors and the reader with one outcome do the same
(`Parser.parseExpr_eq`): where the reader yields an expression the parser returns it and leaves the
list as it was, and where the reader fails the parser returns nothing and has added the error of
the reader and no other. Each parsing function is compared with its reading function, from an
arbitrary list of errors, by induction on the number of tokens.
-/

namespace ClosureLisp

namespace Parsing

variable {α : Type} {bound : Nat}

/-- What a parsing function returns if it goes the way of a reading. -/
def ofReading (errors : List SourceError) : Reading α bound → Parsing α bound
  | .done value rest shorter => .found value errors rest shorter
  | .failed error rest => .refused errors error rest

end Parsing

namespace Parser

open Reader

theorem parseNames_eq (stop : Position) (form : SpecialForm) (errors : List SourceError)
    (tokens : List Token) :
    parseNames stop form errors tokens = .ofReading errors (readNames stop form tokens) := by
  induction tokens with
  | nil => rfl
  | cons token rest ih =>
      rw [parseNames, readNames, ih]
      cases token.lexeme with
      | symbol name => cases readNames stop form rest <;> rfl
      | _ => rfl

theorem expectClose_eq (stop : Position) (form : SpecialForm) (errors : List SourceError)
    (tokens : List Token) :
    expectClose stop form errors tokens = .ofReading errors (readClose stop form tokens) := by
  cases tokens with
  | nil => rfl
  | cons token rest =>
      rw [expectClose, readClose]
      cases token.lexeme <;> rfl

/-- Parsing and reading an expression do the same on all tokens of which there are fewer than a
bound. -/
def AgreesBelow (bound : Nat) : Prop :=
  ∀ (stop : Position) (errors : List SourceError) (tokens : List Token), tokens.length < bound →
    parseExpr stop errors tokens = .ofReading errors (readExpr stop tokens)

section Agreeing

variable {bound : Nat} (below : AgreesBelow bound) (stop start : Position)
  (errors : List SourceError)

include below

theorem parseUntilClose_eq {tokens : List Token} (short : tokens.length < bound) :
    parseUntilClose stop errors tokens = .ofReading errors (readOperands stop tokens) := by
  induction tokens using WellFounded.induction (measure List.length).wf with
  | h tokens ih =>
      cases tokens with
      | nil => rw [parseUntilClose, readOperands]; rfl
      | cons token rest =>
          rw [parseUntilClose, readOperands]
          split
          · rfl
          · rw [below stop errors _ short]
            cases readExpr stop (token :: rest) with
            | failed error left => rfl
            | done expr left shorter =>
                have later := ih left shorter (Nat.lt_trans shorter short)
                simp only [Parsing.ofReading, Parsing.found, later]
                cases readOperands stop left <;> rfl

theorem parseDefine_eq {tokens : List Token} (short : tokens.length < bound) :
    parseDefine stop start errors tokens = .ofReading errors (readDefine stop start tokens) := by
  cases tokens with
  | nil => rw [parseDefine, readDefine]; rfl
  | cons head rest =>
      have inside : rest.length < bound := Nat.lt_of_succ_lt short
      rw [parseDefine, readDefine]
      cases head.lexeme with
      | leftParen =>
          simp only [parseNames_eq]
          cases readNames stop .define rest with
          | failed error left => rfl
          | done names left shorter =>
              cases names with
              | nil => rfl
              | cons name parameters =>
                  simp only [Parsing.ofReading, Parsing.found,
                    below stop errors left (Nat.lt_trans shorter inside)]
                  cases readExpr stop left with
                  | failed error last => rfl
                  | done body last shorter' =>
                      simp only [Parsing.ofReading, Parsing.found, expectClose_eq]
                      cases readClose stop .define last <;> rfl
      | symbol name =>
          simp only [below stop errors rest inside]
          cases readExpr stop rest with
          | failed error left => rfl
          | done value left shorter =>
              simp only [Parsing.ofReading, Parsing.found, expectClose_eq]
              cases readClose stop .define left <;> rfl
      | _ => rfl

theorem parseLambda_eq {tokens : List Token} (short : tokens.length < bound) :
    parseLambda stop start errors tokens = .ofReading errors (readLambda stop start tokens) := by
  cases tokens with
  | nil => rw [parseLambda, readLambda]; rfl
  | cons head rest =>
      have inside : rest.length < bound := Nat.lt_of_succ_lt short
      rw [parseLambda, readLambda]
      cases head.lexeme with
      | leftParen =>
          simp only [parseNames_eq]
          cases readNames stop .lambda rest with
          | failed error left => rfl
          | done parameters left shorter =>
              simp only [Parsing.ofReading, Parsing.found,
                below stop errors left (Nat.lt_trans shorter inside)]
              cases readExpr stop left with
              | failed error last => rfl
              | done body last shorter' =>
                  simp only [Parsing.ofReading, Parsing.found, expectClose_eq]
                  cases readClose stop .lambda last <;> rfl
      | _ => rfl

theorem parseList_eq {tokens : List Token} (short : tokens.length < bound) :
    parseList stop start errors tokens = .ofReading errors (readForm stop start tokens) := by
  cases tokens with
  | nil => rw [parseList, readForm]; rfl
  | cons head rest =>
      have inside : rest.length < bound := Nat.lt_of_succ_lt short
      rw [parseList, readForm]
      split
      · rw [parseUntilClose_eq below stop errors inside]
        cases readOperands stop rest with
        | failed error left => rfl
        | done read left shorter =>
            simp only [Parsing.ofReading, Parsing.found]
            cases conditional? ⟨start, read.2⟩ read.1 <;> rfl
      · split
        · rw [parseDefine_eq below stop start errors inside]
          cases readDefine stop start rest <;> rfl
        · split
          · rw [parseLambda_eq below stop start errors inside]
            cases readLambda stop start rest <;> rfl
          · split
            · rfl
            · rw [below stop errors _ short]
              cases readExpr stop (head :: rest) with
              | failed error left => rfl
              | done callee left shorter =>
                  simp only [Parsing.ofReading, Parsing.found,
                    parseUntilClose_eq below stop errors (Nat.lt_trans shorter short)]
                  cases readOperands stop left <;> rfl

end Agreeing

theorem agreesBelow (bound : Nat) : AgreesBelow bound := by
  induction bound with
  | zero => exact fun _ _ _ short => absurd short (Nat.not_lt_zero _)
  | succ bound ih =>
      intro stop errors tokens short
      cases tokens with
      | nil => rw [parseExpr, readExpr]; rfl
      | cons token rest =>
          rw [parseExpr, readExpr]
          cases token.lexeme with
          | integer digits =>
              simp only
              cases integer? digits <;> rfl
          | leftParen =>
              simp only [parseList_eq ih stop token.place errors (Nat.lt_of_succ_lt_succ short)]
              cases readForm stop token.place rest <;> rfl
          | _ => rfl

/-- The parser returns what the reader yields, and where the reader fails it returns nothing and
adds its error to the list. -/
theorem parseExpr_eq (stop : Position) (errors : List SourceError) (tokens : List Token) :
    parseExpr stop errors tokens = .ofReading errors (readExpr stop tokens) :=
  agreesBelow _ stop errors tokens (Nat.lt_succ_self _)

theorem parseProgram_eq (stop : Position) (errors : List SourceError) (tokens : List Token) :
    parseProgram stop errors tokens =
      match readAll stop tokens with
      | .ok exprs => (some exprs, errors)
      | .error error => (none, errors ++ [error]) := by
  induction tokens using WellFounded.induction (measure List.length).wf with
  | h tokens ih =>
      cases tokens with
      | nil => rw [parseProgram, readAll]
      | cons token rest =>
          rw [parseProgram, readAll, parseExpr_eq]
          cases readExpr stop (token :: rest) with
          | failed error left => rfl
          | done expr left shorter =>
              simp only [Parsing.ofReading, Parsing.found, ih left shorter]
              cases readAll stop left <;> rfl

/-- Both ways give the same expressions or the same first error of a text. -/
theorem parse_eq (text : Bytes) : parse text = Reader.parse text := by
  rw [parse, Reader.parse, parseProgram_eq]
  cases readAll (Lexed.ofBytes text).stop (Lexed.ofBytes text).tokens <;> rfl

end Parser

end ClosureLisp
