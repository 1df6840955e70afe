import Mathlib.Data.Nat.Digits.Defs
import ClosureLisp.Source.Reader

/-!
# The language of expressions

`Derives` is the grammar: which sequences of lexemes are an expression, and of which shape. A shape
is a syntax tree without spans, in which an integer is a mathematical number. `Leads` compares
lexemes with tokens, which have places.
-/

namespace ClosureLisp

/-! ## Shapes -/

/-- A syntax tree without spans. -/
inductive Shape where
  | int (value : Int)
  | bool (value : Bool)
  | var (name : Name)
  | ifThen (test consequent : Shape)
  | ifElse (test consequent alternative : Shape)
  | define (name : Name) (value : Shape)
  | lambda (self : Option Name) (parameters : List Name) (body : Shape)
  | call (callee : Shape) (arguments : List Shape)

namespace Expr

mutual

/-- An expression without its spans. -/
@[simp]
def shape : Expr → Shape
  | .int _ value => .int value.toInt
  | .bool _ value => .bool value
  | .var _ name => .var name
  | .ifThen _ test consequent => .ifThen test.shape consequent.shape
  | .ifElse _ test consequent alternative =>
      .ifElse test.shape consequent.shape alternative.shape
  | .define _ name value => .define name value.shape
  | .lambda _ self parameters body => .lambda self parameters body.shape
  | .call _ callee arguments => .call callee.shape (shapes arguments)

/-- Expressions without their spans. -/
@[simp]
def shapes : List Expr → List Shape
  | [] => []
  | expr :: rest => expr.shape :: shapes rest

end

end Expr

namespace Shape

/-- Gives an anonymous lambda a name; all else stays as it is. -/
def named (name : Name) : Shape → Shape
  | .lambda none parameters body => .lambda (some name) parameters body
  | other => other

/-- A lambda has a name exactly where it is the direct value of a define, and then the name
defined. -/
inductive NamedByDefine : Shape → Prop where
  | int (value : Int) : NamedByDefine (.int value)
  | bool (value : Bool) : NamedByDefine (.bool value)
  | var (name : Name) : NamedByDefine (.var name)
  | ifThen {test consequent : Shape} (first : NamedByDefine test)
      (second : NamedByDefine consequent) : NamedByDefine (.ifThen test consequent)
  | ifElse {test consequent alternative : Shape} (first : NamedByDefine test)
      (second : NamedByDefine consequent) (third : NamedByDefine alternative) :
      NamedByDefine (.ifElse test consequent alternative)
  | define {name : Name} {value : Shape}
      (other : ∀ self parameters body, value ≠ .lambda self parameters body)
      (inner : NamedByDefine value) : NamedByDefine (.define name value)
  | defineLambda {name : Name} {parameters : List Name} {body : Shape}
      (inner : NamedByDefine body) :
      NamedByDefine (.define name (.lambda (some name) parameters body))
  | lambda {parameters : List Name} {body : Shape} (inner : NamedByDefine body) :
      NamedByDefine (.lambda none parameters body)
  | call {callee : Shape} {arguments : List Shape} (first : NamedByDefine callee)
      (others : ∀ argument ∈ arguments, NamedByDefine argument) :
      NamedByDefine (.call callee arguments)

theorem NamedByDefine.define_named {value : Shape} (inner : value.NamedByDefine) (name : Name) :
    NamedByDefine (.define name (value.named name)) := by
  cases inner with
  | lambda body => exact .defineLambda body
  | int value => exact .define nofun (.int value)
  | bool value => exact .define nofun (.bool value)
  | var name => exact .define nofun (.var name)
  | ifThen first second => exact .define nofun (.ifThen first second)
  | ifElse first second third => exact .define nofun (.ifElse first second third)
  | define other inner => exact .define nofun (.define other inner)
  | defineLambda inner => exact .define nofun (.defineLambda inner)
  | call first others => exact .define nofun (.call first others)

end Shape

theorem Expr.shape_named (name : Name) (expr : Expr) :
    (expr.named name).shape = expr.shape.named name := by
  cases expr with
  | lambda span self parameters body => cases self <;> simp [Expr.named, shape, Shape.named]
  | _ => simp [Expr.named, shape, Shape.named]

/-! ## The grammar -/

/-- The number that a run of decimal digits denotes. -/
def digitsNumber (digits : Bytes) : Nat :=
  Nat.ofDigits 10 (digits.reverse.map fun digit => digit.toNat - 48)

/-- The number that an integer token denotes: at most one sign in front of decimal digits. -/
def numeralNumber : Bytes → Int
  | [] => 0
  | byte :: rest =>
      if byte = 45 then -(digitsNumber rest : Int)
      else if byte = 43 then digitsNumber rest
      else digitsNumber (byte :: rest)

/-- The symbols that start a special form. -/
def Lexeme.IsKeyword (lexeme : Lexeme) : Prop :=
  lexeme = .symbol (utf8 "if") ∨ lexeme = .symbol (utf8 "define") ∨
    lexeme = .symbol (utf8 "lambda")

mutual

/-- The lexemes that are an expression, and its shape. -/
inductive Derives : List Lexeme → Shape → Prop where
  | integer {digits : Bytes} (low : -2147483648 ≤ numeralNumber digits)
      (high : numeralNumber digits < 2147483648) :
      Derives [.integer digits] (.int (numeralNumber digits))
  | bool (value : Bool) : Derives [.bool value] (.bool value)
  | symbol (name : Name) : Derives [.symbol name] (.var name)
  | ifThen {inner : List Lexeme} {test consequent : Shape}
      (operands : DerivesAll inner [test, consequent]) :
      Derives (.leftParen :: .symbol (utf8 "if") :: (inner ++ [.rightParen]))
        (.ifThen test consequent)
  | ifElse {inner : List Lexeme} {test consequent alternative : Shape}
      (operands : DerivesAll inner [test, consequent, alternative]) :
      Derives (.leftParen :: .symbol (utf8 "if") :: (inner ++ [.rightParen]))
        (.ifElse test consequent alternative)
  | define (name : Name) {inner : List Lexeme} {value : Shape} (derived : Derives inner value) :
      Derives (.leftParen :: .symbol (utf8 "define") :: .symbol name :: (inner ++ [.rightParen]))
        (.define name (value.named name))
  | defineFunction (name : Name) (parameters : List Name) {inner : List Lexeme} {body : Shape}
      (derived : Derives inner body) :
      Derives
        (.leftParen :: .symbol (utf8 "define") :: .leftParen :: .symbol name ::
          (parameters.map .symbol ++ .rightParen :: (inner ++ [.rightParen])))
        (.define name (.lambda (some name) parameters body))
  | lambda (parameters : List Name) {inner : List Lexeme} {body : Shape}
      (derived : Derives inner body) :
      Derives
        (.leftParen :: .symbol (utf8 "lambda") :: .leftParen ::
          (parameters.map .symbol ++ .rightParen :: (inner ++ [.rightParen])))
        (.lambda none parameters body)
  | call {first rest : List Lexeme} {callee : Shape} {arguments : List Shape}
      (head : Derives first callee) (tail : DerivesAll rest arguments)
      (plain : ∀ lexeme ∈ first.head?, ¬ lexeme.IsKeyword) :
      Derives (.leftParen :: (first ++ (rest ++ [.rightParen]))) (.call callee arguments)

/-- The lexemes that are a sequence of expressions, and their shapes. -/
inductive DerivesAll : List Lexeme → List Shape → Prop where
  | nil : DerivesAll [] []
  | cons {first rest : List Lexeme} {shape : Shape} {shapes : List Shape}
      (head : Derives first shape) (tail : DerivesAll rest shapes) :
      DerivesAll (first ++ rest) (shape :: shapes)

end

/-- An expression starts with an atom or an opening parenthesis. -/
theorem Derives.exists_cons {lexemes : List Lexeme} {shape : Shape}
    (derived : Derives lexemes shape) :
    ∃ first rest, lexemes = first :: rest ∧ first ≠ .rightParen := by
  cases derived <;> exact ⟨_, _, rfl, nofun⟩

mutual

theorem Derives.not_mem_unknown {lexemes : List Lexeme} {shape : Shape} (word : Bytes) :
    Derives lexemes shape → .unknown word ∉ lexemes
  | .integer _ _ | .bool _ | .symbol _ => by simp
  | .ifThen operands | .ifElse operands => by
      have inner := operands.not_mem_unknown word
      simp [inner]
  | .define _ derived | .defineFunction _ _ derived | .lambda _ derived => by
      have inner := derived.not_mem_unknown word
      simp [inner]
  | .call head tail _ => by
      have first := head.not_mem_unknown word
      have rest := tail.not_mem_unknown word
      simp [first, rest]

theorem DerivesAll.not_mem_unknown {lexemes : List Lexeme} {shapes : List Shape} (word : Bytes) :
    DerivesAll lexemes shapes → .unknown word ∉ lexemes
  | .nil => List.not_mem_nil
  | .cons head tail => by
      have first := head.not_mem_unknown word
      have rest := tail.not_mem_unknown word
      simp [first, rest]

end

mutual

theorem Derives.namedByDefine {lexemes : List Lexeme} {shape : Shape} :
    Derives lexemes shape → shape.NamedByDefine
  | .integer _ _ => .int _
  | .bool value => .bool value
  | .symbol name => .var name
  | .ifThen operands => by
      have each := operands.namedByDefine
      simp only [List.forall_mem_cons] at each
      exact .ifThen each.1 each.2.1
  | .ifElse operands => by
      have each := operands.namedByDefine
      simp only [List.forall_mem_cons] at each
      exact .ifElse each.1 each.2.1 each.2.2.1
  | .define name derived => derived.namedByDefine.define_named name
  | .defineFunction _ _ derived => .defineLambda derived.namedByDefine
  | .lambda _ derived => .lambda derived.namedByDefine
  | .call head tail _ => .call head.namedByDefine tail.namedByDefine

theorem DerivesAll.namedByDefine {lexemes : List Lexeme} {shapes : List Shape} :
    DerivesAll lexemes shapes → ∀ shape ∈ shapes, shape.NamedByDefine
  | .nil => fun _ listed => absurd listed List.not_mem_nil
  | .cons head tail => List.forall_mem_cons.mpr ⟨head.namedByDefine, tail.namedByDefine⟩

end

/-! ## Tokens and lexemes -/

/-- Tokens start with the given lexemes and go on with the rest. -/
def Leads (lexemes : List Lexeme) (tokens rest : List Token) : Prop :=
  ∃ front, tokens = front ++ rest ∧ front.map Token.lexeme = lexemes

namespace Leads

variable {lexemes more : List Lexeme} {tokens middle rest : List Token}

theorem nil_iff : Leads [] tokens rest ↔ tokens = rest := by
  constructor
  · rintro ⟨front, rfl, none⟩
    rw [List.map_eq_nil_iff.mp none, List.nil_append]
  · rintro rfl
    exact ⟨[], rfl, rfl⟩

theorem cons_iff {lexeme : Lexeme} :
    Leads (lexeme :: lexemes) tokens rest ↔
      ∃ token behind, tokens = token :: behind ∧ token.lexeme = lexeme ∧
        Leads lexemes behind rest := by
  constructor
  · rintro ⟨front, rfl, spelled⟩
    obtain ⟨token, behind, rfl, first, others⟩ := List.map_eq_cons_iff.mp spelled
    exact ⟨token, behind ++ rest, rfl, first, behind, rfl, others⟩
  · rintro ⟨token, behind, rfl, rfl, front, rfl, rfl⟩
    exact ⟨token :: front, rfl, rfl⟩

theorem append_iff :
    Leads (lexemes ++ more) tokens rest ↔
      ∃ middle, Leads lexemes tokens middle ∧ Leads more middle rest := by
  constructor
  · rintro ⟨front, rfl, spelled⟩
    obtain ⟨first, second, rfl, left, right⟩ := List.map_eq_append_iff.mp spelled
    exact ⟨second ++ rest, ⟨first, List.append_assoc _ _ _, left⟩, second, rfl, right⟩
  · rintro ⟨middle, ⟨first, rfl, rfl⟩, second, rfl, rfl⟩
    exact ⟨first ++ second, (List.append_assoc _ _ _).symm, List.map_append⟩

theorem cons {token : Token} {lexeme : Lexeme} (first : token.lexeme = lexeme)
    (others : Leads lexemes tokens rest) : Leads (lexeme :: lexemes) (token :: tokens) rest :=
  cons_iff.mpr ⟨token, tokens, rfl, first, others⟩

theorem append (left : Leads lexemes tokens middle) (right : Leads more middle rest) :
    Leads (lexemes ++ more) tokens rest :=
  append_iff.mpr ⟨middle, left, right⟩

theorem single {token : Token} {lexeme : Lexeme} (first : token.lexeme = lexeme) :
    Leads [lexeme] (token :: rest) rest :=
  cons first (nil_iff.mpr rfl)

/-- The first lexeme is that of the first token. -/
theorem head_eq {token : Token} {lexeme : Lexeme} (leads : Leads lexemes (token :: tokens) rest)
    (starts : lexeme ∈ lexemes.head?) : token.lexeme = lexeme := by
  obtain ⟨others, rfl⟩ := List.head?_eq_some_iff.mp starts
  obtain ⟨first, behind, same, spelled, -⟩ := cons_iff.mp leads
  rw [(List.cons.inj same).1, spelled]

end Leads

end ClosureLisp
