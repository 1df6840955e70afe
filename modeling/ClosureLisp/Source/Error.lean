import ClosureLisp.Source.Token

/-!
# Errors in a source text

What can be wrong with a program before it runs, as causes. `SourceError` adds the
place, and its `message` is the only place where the wording stands.
-/

namespace ClosureLisp

/-- The forms that have a fixed shape. -/
inductive SpecialForm where
  | define
  | lambda
  deriving DecidableEq, Repr

/-- The keyword of a form. -/
def SpecialForm.keyword : SpecialForm → Bytes
  | .define => utf8 "define"
  | .lambda => utf8 "lambda"

/-- Why tokens do not form an expression. -/
inductive ReadFault where
  | unexpectedClose
  | unexpectedEnd
  | unknownLiteral (literal : Bytes)
  | integerOutOfRange (digits : Bytes)
  | emptyApplication
  | unterminated (form : SpecialForm)
  | tooManyOperands (form : SpecialForm)
  | ifOperands (count : Nat)
  | defineNeedsName
  | lambdaNeedsParameters
  | parameterNotName (form : SpecialForm) (className : Bytes)
  deriving DecidableEq, Repr

/-- The wording of a read fault. -/
def ReadFault.detail : ReadFault → Bytes
  | .unexpectedClose => utf8 "unexpected )"
  | .unexpectedEnd => utf8 "unexpected end of input"
  | .unknownLiteral literal => literal
  | .integerOutOfRange digits => utf8 "integer " ++ digits ++ utf8 " out of range"
  | .emptyApplication => utf8 "empty application"
  | .unterminated form => utf8 "unterminated " ++ form.keyword
  | .tooManyOperands form => utf8 "too many operands in " ++ form.keyword
  | .ifOperands count => utf8 "if takes 2 or 3 operands, got " ++ Bytes.decimalNat count
  | .defineNeedsName => utf8 "define needs a name"
  | .lambdaNeedsParameters => utf8 "lambda needs a parameter list"
  | .parameterNotName form className =>
      form.keyword ++ utf8 " parameter must be a name, got " ++ className

/-- Why a text is not a program. -/
inductive SourceFault where
  | malformed (fault : ReadFault)
  | undefined (name : Name)
  | redefined (name : Name)
  | nestedDefine (name : Name)
  | repeatedParameters (parameters : List Name)
  | repeatedParameter (name : Name)
  deriving DecidableEq, Repr

/-- The five kinds of source faults. -/
inductive SourceFault.Kind where
  | malformed
  | undefined
  | redefined
  | nestedDefine
  | repeatedParameter
  deriving DecidableEq, Repr

namespace SourceFault

/-- The kind of a source fault. -/
def kind : SourceFault → Kind
  | .malformed _ => .malformed
  | .undefined _ => .undefined
  | .redefined _ => .redefined
  | .nestedDefine _ => .nestedDefine
  | .repeatedParameters _ => .repeatedParameter
  | .repeatedParameter _ => .repeatedParameter

/-- The general part of the wording. -/
def Kind.summary : Kind → Bytes
  | .malformed => utf8 "syntax error"
  | .undefined => utf8 "undefined identifier"
  | .redefined => utf8 "global already defined"
  | .nestedDefine => utf8 "define is only allowed at top level"
  | .repeatedParameter => utf8 "duplicate parameter"

/-- The particular part of the wording. -/
def detail : SourceFault → Bytes
  | .malformed fault => fault.detail
  | .undefined name => name
  | .redefined name => name
  | .nestedDefine name => name
  | .repeatedParameters parameters => Bytes.bracketed parameters
  | .repeatedParameter name => name

end SourceFault

/-- A source fault and its place. -/
structure SourceError where
  place : Position
  fault : SourceFault
  deriving DecidableEq, Repr

namespace SourceError

/-- The kind of a source error. -/
def kind (error : SourceError) : SourceFault.Kind :=
  error.fault.kind

/-- The full wording of a source error. -/
def message (error : SourceError) : Bytes :=
  error.place.text ++ utf8 ": " ++ error.kind.summary ++ utf8 ": " ++ error.fault.detail

end SourceError

end ClosureLisp
