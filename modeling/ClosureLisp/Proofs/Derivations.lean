import ClosureLisp.Proofs.Parsing

/-!
# Syntax trees and their tokens

The grammar says which lexemes are an expression. `Written` says this of tokens and gives the whole
syntax tree with its spans: an atom spans its own token, and every other form runs from its opening
parenthesis to its closing one. The reader yields an expression if and only if it is written in the
tokens passed (`Reader.readExpr_yields_iff`), so that what holds of the spans of a program is shown
by induction on the way in which it is written.
-/

namespace ClosureLisp

mutual

/-- The tokens in which an expression is written. -/
inductive Written : List Token → Expr → Prop where
  | integer {token : Token} {digits : Bytes} {value : Int32}
      (integer : token.lexeme = .integer digits) (denoted : Reader.integer? digits = some value) :
      Written [token] (.int token.span value)
  | bool {token : Token} {value : Bool} (bool : token.lexeme = .bool value) :
      Written [token] (.bool token.span value)
  | symbol {token : Token} {name : Name} (symbol : token.lexeme = .symbol name) :
      Written [token] (.var token.span name)
  | conditional {opening keyword closing : Token} {inner : List Token} {operands : List Expr}
      {expr : Expr} (opens : opening.lexeme = .leftParen)
      (keyed : keyword.lexeme = .symbol (utf8 "if")) (written : WrittenAll inner operands)
      (closes : closing.lexeme = .rightParen)
      (made : Reader.conditional? ⟨opening.place, closing.place⟩ operands = some expr) :
      Written (opening :: keyword :: (inner ++ [closing])) expr
  | define {opening keyword symbol closing : Token} {inner : List Token} {name : Name}
      {value : Expr} (opens : opening.lexeme = .leftParen)
      (keyed : keyword.lexeme = .symbol (utf8 "define")) (named : symbol.lexeme = .symbol name)
      (written : Written inner value) (closes : closing.lexeme = .rightParen) :
      Written (opening :: keyword :: symbol :: (inner ++ [closing]))
        (.define ⟨opening.place, closing.place⟩ name (value.named name))
  | defineFunction {opening keyword signature ending closing : Token} {symbols inner : List Token}
      {name : Name} {parameters : List Name} {body : Expr} (opens : opening.lexeme = .leftParen)
      (keyed : keyword.lexeme = .symbol (utf8 "define")) (signed : signature.lexeme = .leftParen)
      (named : symbols.map Token.lexeme = (name :: parameters).map .symbol)
      (ended : ending.lexeme = .rightParen) (written : Written inner body)
      (closes : closing.lexeme = .rightParen) :
      Written (opening :: keyword :: signature :: (symbols ++ ending :: (inner ++ [closing])))
        (.define ⟨opening.place, closing.place⟩ name
          (.lambda ⟨opening.place, closing.place⟩ (some name) parameters body))
  | lambda {opening keyword signature ending closing : Token} {symbols inner : List Token}
      {parameters : List Name} {body : Expr} (opens : opening.lexeme = .leftParen)
      (keyed : keyword.lexeme = .symbol (utf8 "lambda")) (signed : signature.lexeme = .leftParen)
      (named : symbols.map Token.lexeme = parameters.map .symbol)
      (ended : ending.lexeme = .rightParen) (written : Written inner body)
      (closes : closing.lexeme = .rightParen) :
      Written (opening :: keyword :: signature :: (symbols ++ ending :: (inner ++ [closing])))
        (.lambda ⟨opening.place, closing.place⟩ none parameters body)
  | call {opening closing : Token} {first rest : List Token} {callee : Expr}
      {arguments : List Expr} (opens : opening.lexeme = .leftParen)
      (plain : ∀ token ∈ first.head?, ¬ token.lexeme.IsKeyword) (head : Written first callee)
      (tail : WrittenAll rest arguments) (closes : closing.lexeme = .rightParen) :
      Written (opening :: (first ++ (rest ++ [closing])))
        (.call ⟨opening.place, closing.place⟩ callee arguments)

/-- The tokens in which expressions are written one after the other. -/
inductive WrittenAll : List Token → List Expr → Prop where
  | nil : WrittenAll [] []
  | cons {first rest : List Token} {expr : Expr} {exprs : List Expr} (head : Written first expr)
      (tail : WrittenAll rest exprs) : WrittenAll (first ++ rest) (expr :: exprs)

end

/-- An expression starts with an atom or an opening parenthesis. -/
theorem Written.exists_cons {tokens : List Token} {expr : Expr} (written : Written tokens expr) :
    ∃ token rest, tokens = token :: rest ∧ token.lexeme ≠ .rightParen := by
  cases written with
  | integer integer => exact ⟨_, _, rfl, by rw [integer]; exact nofun⟩
  | bool bool => exact ⟨_, _, rfl, by rw [bool]; exact nofun⟩
  | symbol symbol => exact ⟨_, _, rfl, by rw [symbol]; exact nofun⟩
  | conditional opens | define opens | defineFunction opens | lambda opens | call opens =>
      exact ⟨_, _, rfl, by rw [opens]; exact nofun⟩

theorem WrittenAll.append {tokens more : List Token} {exprs others : List Expr}
    (first : WrittenAll tokens exprs) (second : WrittenAll more others) :
    WrittenAll (tokens ++ more) (exprs ++ others) := by
  induction exprs generalizing tokens with
  | nil =>
      cases first
      exact second
  | cons expr exprs ih =>
      cases first with
      | cons head tail =>
          rw [List.append_assoc]
          exact .cons head (ih tail)

/-! ## What is read is written -/

namespace Reading

variable {α : Type} {bound : Nat}

/-- What a reading yields is written in the tokens that it has passed. -/
def Passes (tokens : List Token) (holds : List Token → α → Prop) : Reading α bound → Prop
  | .done value rest _ => ∃ front, tokens = front ++ rest ∧ holds front value
  | .failed _ _ => True

theorem Passes.cases {tokens : List Token} {holds : List Token → α → Prop}
    {reading : Reading α bound} (passes : reading.Passes tokens holds) :
    (∃ error left, reading = .failed error left) ∨
      ∃ value rest shorter front, reading = .done value rest shorter ∧ tokens = front ++ rest ∧
        holds front value := by
  cases reading with
  | failed error left => exact .inl ⟨error, left, rfl⟩
  | done value rest shorter =>
      obtain ⟨front, parted, held⟩ := passes
      exact .inr ⟨value, rest, shorter, front, rfl, parted, held⟩

end Reading

namespace Reader

theorem readNames_passes (stop : Position) (form : SpecialForm) (tokens : List Token) :
    (readNames stop form tokens).Passes tokens fun front names =>
      ∃ symbols ending, front = symbols ++ [ending] ∧
        symbols.map Token.lexeme = names.map .symbol ∧ ending.lexeme = .rightParen := by
  induction tokens with
  | nil => exact True.intro
  | cons token rest ih =>
      rw [readNames]
      split
      · next close => exact ⟨[token], rfl, [], token, rfl, rfl, close⟩
      · next name symbol =>
          rcases ih.cases with ⟨error, left, read⟩ |
            ⟨names, left, shorter, _, read, rfl, symbols, ending, rfl, named, ended⟩ <;> rw [read]
          · exact True.intro
          · refine ⟨token :: (symbols ++ [ending]), rfl, token :: symbols, ending, rfl, ?_, ended⟩
            rw [List.map_cons, List.map_cons, symbol, named]
      · exact True.intro

theorem readClose_passes (stop : Position) (form : SpecialForm) (tokens : List Token) :
    (readClose stop form tokens).Passes tokens fun front close =>
      ∃ closing, front = [closing] ∧ closing.lexeme = .rightParen ∧ closing.place = close := by
  cases tokens with
  | nil => exact True.intro
  | cons token rest =>
      rw [readClose]
      split
      · next close => exact ⟨[token], rfl, token, rfl, close, rfl⟩
      · exact True.intro

/-- What is read of all tokens of which there are fewer than a bound is written in them. -/
def PassesBelow (bound : Nat) : Prop :=
  ∀ (stop : Position) (tokens : List Token), tokens.length < bound →
    (readExpr stop tokens).Passes tokens Written

section Passes

variable {bound : Nat} (below : PassesBelow bound) (stop : Position)

include below

theorem readOperands_passes {tokens : List Token} (short : tokens.length < bound) :
    (readOperands stop tokens).Passes tokens fun front read =>
      ∃ inner closing, front = inner ++ [closing] ∧ WrittenAll inner read.1 ∧
        closing.lexeme = .rightParen ∧ closing.place = read.2 := by
  induction tokens using WellFounded.induction (measure List.length).wf with
  | h tokens ih =>
      cases tokens with
      | nil =>
          rw [readOperands]
          exact True.intro
      | cons token rest =>
          rw [readOperands]
          split
          · next close => exact ⟨[token], rfl, [], token, rfl, .nil, close, rfl⟩
          · rcases (below stop _ short).cases with ⟨error, left, read⟩ |
              ⟨expr, left, shorter, first, read, parted, written⟩ <;> rw [read]
            · exact True.intro
            · rcases (ih left shorter (Nat.lt_trans shorter short)).cases with
                ⟨error, last, others⟩ |
                ⟨⟨exprs, close⟩, last, _, _, others, rfl, inner, closing, rfl, remaining,
                  closes⟩ <;>
                simp only [others]
              · exact True.intro
              · exact ⟨first ++ (inner ++ [closing]), parted.trans (List.append_assoc _ _ _).symm,
                  first ++ inner, closing, (List.append_assoc _ _ _).symm,
                  .cons written remaining, closes⟩

/-- The value or body at the end of a form: an expression and a closing parenthesis. -/
theorem readLast_passes (form : SpecialForm) {tokens : List Token} (short : tokens.length < bound) :
    (∃ error left, readExpr stop tokens = .failed error left) ∨
      ∃ expr left shorter, readExpr stop tokens = .done expr left shorter ∧
        ((∃ error last, readClose stop form left = .failed error last) ∨
          ∃ closing last shorter' inner,
            readClose stop form left = .done closing.place last shorter' ∧
              tokens = inner ++ [closing] ++ last ∧ Written inner expr ∧
              closing.lexeme = .rightParen) := by
  rcases (below stop tokens short).cases with ⟨error, left, read⟩ |
    ⟨expr, left, shorter, inner, read, rfl, written⟩
  · exact .inl ⟨error, left, read⟩
  · refine .inr ⟨expr, left, shorter, read, ?_⟩
    rcases (readClose_passes stop form left).cases with ⟨error, last, closed⟩ |
      ⟨close, last, shorter', _, closed, rfl, closing, rfl, closes, rfl⟩
    · exact .inl ⟨error, last, closed⟩
    · refine .inr ⟨closing, last, shorter', inner, closed, ?_, written, closes⟩
      rw [List.append_assoc]

variable {opening : Token} (opens : opening.lexeme = .leftParen)

include opens

theorem readDefine_signature_passes {keyword head : Token}
    (keyed : keyword.lexeme = .symbol (utf8 "define")) (signed : head.lexeme = .leftParen)
    {rest : List Token} (inside : rest.length < bound) :
    (readDefine stop opening.place (head :: rest)).Passes (head :: rest) fun front expr =>
      Written (opening :: keyword :: front) expr := by
  rw [readDefine, signed]
  rcases (readNames_passes stop .define rest).cases with ⟨error, left, read⟩ |
    ⟨names, left, shorter, _, read, rfl, symbols, ending, rfl, named, ended⟩ <;> simp only [read]
  · exact True.intro
  · cases names with
    | nil => exact True.intro
    | cons name parameters =>
        rcases readLast_passes below stop .define (Nat.lt_trans shorter inside) with
          ⟨error, last, body⟩ |
          ⟨body, last, _, read, ⟨error, final, closed⟩ |
            ⟨closing, final, _, inner, closed, rfl, written, closes⟩⟩
        · simp only [body]
          exact True.intro
        · simp only [read, closed]
          exact True.intro
        · simp only [read, closed]
          exact ⟨head :: (symbols ++ ending :: (inner ++ [closing])), by simp,
            .defineFunction opens keyed signed named ended written closes⟩

theorem readDefine_symbol_passes {keyword head : Token} {name : Name}
    (keyed : keyword.lexeme = .symbol (utf8 "define")) (symbol : head.lexeme = .symbol name)
    {rest : List Token} (inside : rest.length < bound) :
    (readDefine stop opening.place (head :: rest)).Passes (head :: rest) fun front expr =>
      Written (opening :: keyword :: front) expr := by
  rw [readDefine, symbol]
  rcases readLast_passes below stop .define inside with ⟨error, left, read⟩ |
    ⟨value, left, _, read, ⟨error, last, closed⟩ |
      ⟨closing, last, _, inner, closed, rfl, written, closes⟩⟩
  · simp only [read]
    exact True.intro
  · simp only [read, closed]
    exact True.intro
  · simp only [read, closed]
    exact ⟨head :: (inner ++ [closing]), by simp, .define opens keyed symbol written closes⟩

theorem readDefine_passes {keyword : Token} (keyed : keyword.lexeme = .symbol (utf8 "define"))
    {tokens : List Token} (short : tokens.length < bound) :
    (readDefine stop opening.place tokens).Passes tokens fun front expr =>
      Written (opening :: keyword :: front) expr := by
  cases tokens with
  | nil =>
      rw [readDefine]
      exact True.intro
  | cons head rest =>
      have inside : rest.length < bound := Nat.lt_of_succ_lt short
      cases lexeme : head.lexeme with
      | leftParen => exact readDefine_signature_passes below stop opens keyed lexeme inside
      | symbol name => exact readDefine_symbol_passes below stop opens keyed lexeme inside
      | _ =>
          rw [readDefine, lexeme]
          exact True.intro

theorem readLambda_passes {keyword : Token} (keyed : keyword.lexeme = .symbol (utf8 "lambda"))
    {tokens : List Token} (short : tokens.length < bound) :
    (readLambda stop opening.place tokens).Passes tokens fun front expr =>
      Written (opening :: keyword :: front) expr := by
  cases tokens with
  | nil =>
      rw [readLambda]
      exact True.intro
  | cons head rest =>
      have inside : rest.length < bound := Nat.lt_of_succ_lt short
      rw [readLambda]
      split
      · next signed =>
          rcases (readNames_passes stop .lambda rest).cases with ⟨error, left, read⟩ |
            ⟨parameters, left, shorter, _, read, rfl, symbols, ending, rfl, named, ended⟩ <;>
            rw [read]
          · exact True.intro
          · rcases readLast_passes below stop .lambda (Nat.lt_trans shorter inside) with
              ⟨error, last, body⟩ |
              ⟨body, last, _, read, ⟨error, final, closed⟩ |
                ⟨closing, final, _, inner, closed, rfl, written, closes⟩⟩
            · simp only [body]
              exact True.intro
            · simp only [read, closed]
              exact True.intro
            · simp only [read, closed]
              exact ⟨head :: (symbols ++ ending :: (inner ++ [closing])), by simp,
                .lambda opens keyed signed named ended written closes⟩
      · exact True.intro

theorem readForm_call_passes {head : Token} {rest : List Token}
    (plain : ¬ head.lexeme.IsKeyword) (other : head.lexeme ≠ .rightParen)
    (short : (head :: rest).length < bound) :
    (readForm stop opening.place (head :: rest)).Passes (head :: rest) fun front expr =>
      Written (opening :: front) expr := by
  rw [readForm, if_neg fun same => plain (.inl same), if_neg fun same => plain (.inr (.inl same)),
    if_neg fun same => plain (.inr (.inr same)), if_neg other]
  rcases (below stop _ short).cases with ⟨error, left, read⟩ |
    ⟨callee, left, shorter, first, read, parted, written⟩ <;> simp only [read]
  · exact True.intro
  · rcases (readOperands_passes below stop (Nat.lt_trans shorter short)).cases with
      ⟨error, last, others⟩ |
      ⟨⟨arguments, _⟩, last, _, _, others, rfl, inner, closing, rfl, remaining, closes, rfl⟩ <;>
      simp only [others]
    · exact True.intro
    · refine ⟨first ++ (inner ++ [closing]), parted.trans (List.append_assoc _ _ _).symm, ?_⟩
      refine .call opens (fun token starts keyword => ?_) written remaining closes
      obtain ⟨behind, rfl⟩ := List.head?_eq_some_iff.mp starts
      rw [← (List.cons.inj parted).1] at keyword
      exact plain keyword

theorem readForm_passes {tokens : List Token} (short : tokens.length < bound) :
    (readForm stop opening.place tokens).Passes tokens fun front expr =>
      Written (opening :: front) expr := by
  cases tokens with
  | nil =>
      rw [readForm]
      exact True.intro
  | cons head rest =>
      have inside : rest.length < bound := Nat.lt_of_succ_lt short
      rw [readForm]
      split
      · next keyed =>
          rcases (readOperands_passes below stop inside).cases with ⟨error, left, read⟩ |
            ⟨⟨operands, _⟩, left, _, _, read, rfl, inner, closing, rfl, written, closes, rfl⟩ <;>
            simp only [read]
          · exact True.intro
          · cases made : conditional? ⟨opening.place, closing.place⟩ operands with
            | none => exact True.intro
            | some expr =>
                exact ⟨head :: (inner ++ [closing]), rfl,
                  .conditional opens keyed written closes made⟩
      split
      · next keyed =>
          rcases (readDefine_passes below stop opens keyed inside).cases with
            ⟨error, left, read⟩ | ⟨expr, left, _, front, read, rfl, written⟩ <;> simp only [read]
          · exact True.intro
          · exact ⟨head :: front, rfl, written⟩
      split
      · next keyed =>
          rcases (readLambda_passes below stop opens keyed inside).cases with
            ⟨error, left, read⟩ | ⟨expr, left, _, front, read, rfl, written⟩ <;> simp only [read]
          · exact True.intro
          · exact ⟨head :: front, rfl, written⟩
      split
      · exact True.intro
      · next conditional define lambda other =>
          have plain : ¬ head.lexeme.IsKeyword := by
            rintro (same | same | same)
            · exact conditional same
            · exact define same
            · exact lambda same
          have passes := readForm_call_passes below stop opens plain other short
          rwa [readForm, if_neg conditional, if_neg define, if_neg lambda, if_neg other] at passes

end Passes

theorem passesBelow (bound : Nat) : PassesBelow bound := by
  induction bound with
  | zero => exact fun _ _ short => absurd short (Nat.not_lt_zero _)
  | succ bound below =>
      intro stop tokens short
      cases tokens with
      | nil =>
          rw [readExpr]
          exact True.intro
      | cons token rest =>
          rw [readExpr]
          split
          · next digits integer =>
              cases denoted : integer? digits with
              | none => exact True.intro
              | some value => exact ⟨[token], rfl, .integer integer denoted⟩
          · next value bool => exact ⟨[token], rfl, .bool bool⟩
          · next name symbol => exact ⟨[token], rfl, .symbol symbol⟩
          · exact True.intro
          · exact True.intro
          · next opens =>
              have passes := readForm_passes below stop opens (Nat.lt_of_succ_lt_succ short)
              rcases passes.cases with
                ⟨error, left, read⟩ | ⟨expr, left, _, front, read, rfl, written⟩ <;>
                simp only [read]
              · exact True.intro
              · exact ⟨token :: front, rfl, written⟩

/-! ## What is written is read -/

/-- Wherever tokens start with the given ones, the expression is read. -/
def ReadsBack (tokens : List Token) (expr : Expr) : Prop :=
  ∀ (stop : Position) (rest : List Token), (readExpr stop (tokens ++ rest)).Yields expr rest

/-- Wherever tokens start with the given ones and a closing parenthesis, the operands are read. -/
def ReadsBackAll (tokens : List Token) (exprs : List Expr) : Prop :=
  ∀ (stop : Position) {closing : Token} (rest : List Token), closing.lexeme = .rightParen →
    (readOperands stop (tokens ++ closing :: rest)).Yields (exprs, closing.place) rest

section ReadsBack

variable {opening keyword signature symbol ending closing : Token}
  {symbols inner first others : List Token} {name : Name} {parameters : List Name} {expr : Expr}
  {exprs : List Expr}

theorem readNames_readsBack {names : List Name} (stop : Position) (form : SpecialForm)
    (named : symbols.map Token.lexeme = names.map .symbol) (ended : ending.lexeme = .rightParen)
    (rest : List Token) : (readNames stop form (symbols ++ ending :: rest)).Yields names rest := by
  refine readNames_yields stop form ⟨symbols ++ [ending], ?_, ?_⟩
  · rw [List.append_assoc, List.singleton_append]
  · rw [List.map_append, named, List.map_singleton, ended]

theorem readClose_readsBack (stop : Position) (form : SpecialForm)
    (closes : closing.lexeme = .rightParen) (rest : List Token) :
    (readClose stop form (closing :: rest)).Yields closing.place rest := by
  rw [readClose, closes]
  exact ⟨_, rfl⟩

theorem readsBack_form (opens : opening.lexeme = .leftParen)
    (forms : ∀ (stop : Position) (rest : List Token),
      (readForm stop opening.place (inner ++ rest)).Yields expr rest) :
    ReadsBack (opening :: inner) expr := by
  intro stop rest
  obtain ⟨shorter, read⟩ := forms stop rest
  rw [List.cons_append, readExpr, opens]
  simp only [read]
  exact ⟨_, rfl⟩

theorem readsBack_conditional (opens : opening.lexeme = .leftParen)
    (keyed : keyword.lexeme = .symbol (utf8 "if")) (operands : ReadsBackAll inner exprs)
    (closes : closing.lexeme = .rightParen)
    (made : conditional? ⟨opening.place, closing.place⟩ exprs = some expr) :
    ReadsBack (opening :: keyword :: (inner ++ [closing])) expr := by
  refine readsBack_form opens fun stop rest => ?_
  obtain ⟨shorter, read⟩ := operands stop rest closes
  rw [List.cons_append, List.append_assoc, List.singleton_append, readForm, if_pos keyed]
  simp only [read, made]
  exact ⟨_, rfl⟩

theorem readsBack_define (opens : opening.lexeme = .leftParen)
    (keyed : keyword.lexeme = .symbol (utf8 "define")) (named : symbol.lexeme = .symbol name)
    (value : ReadsBack inner expr) (closes : closing.lexeme = .rightParen) :
    ReadsBack (opening :: keyword :: symbol :: (inner ++ [closing]))
      (.define ⟨opening.place, closing.place⟩ name (expr.named name)) := by
  refine readsBack_form opens fun stop rest => ?_
  obtain ⟨_, read⟩ := value stop (closing :: rest)
  obtain ⟨_, closed⟩ := readClose_readsBack stop .define closes rest
  rw [List.cons_append, List.cons_append, List.append_assoc, List.singleton_append, readForm,
    if_neg (by rw [keyed]; decide), if_pos keyed, readDefine, named]
  simp only [read, closed]
  exact ⟨_, rfl⟩

theorem readsBack_defineFunction (opens : opening.lexeme = .leftParen)
    (keyed : keyword.lexeme = .symbol (utf8 "define")) (signed : signature.lexeme = .leftParen)
    (named : symbols.map Token.lexeme = (name :: parameters).map .symbol)
    (ended : ending.lexeme = .rightParen) (body : ReadsBack inner expr)
    (closes : closing.lexeme = .rightParen) :
    ReadsBack (opening :: keyword :: signature :: (symbols ++ ending :: (inner ++ [closing])))
      (.define ⟨opening.place, closing.place⟩ name
        (.lambda ⟨opening.place, closing.place⟩ (some name) parameters expr)) := by
  refine readsBack_form opens fun stop rest => ?_
  obtain ⟨_, names⟩ :=
    readNames_readsBack stop .define named ended (inner ++ closing :: rest)
  obtain ⟨_, read⟩ := body stop (closing :: rest)
  obtain ⟨_, closed⟩ := readClose_readsBack stop .define closes rest
  rw [List.cons_append, List.cons_append, List.append_assoc, List.cons_append, List.append_assoc,
    List.singleton_append, readForm, if_neg (by rw [keyed]; decide), if_pos keyed, readDefine,
    signed]
  simp only [names, read, closed]
  exact ⟨_, rfl⟩

theorem readsBack_lambda (opens : opening.lexeme = .leftParen)
    (keyed : keyword.lexeme = .symbol (utf8 "lambda")) (signed : signature.lexeme = .leftParen)
    (named : symbols.map Token.lexeme = parameters.map .symbol)
    (ended : ending.lexeme = .rightParen) (body : ReadsBack inner expr)
    (closes : closing.lexeme = .rightParen) :
    ReadsBack (opening :: keyword :: signature :: (symbols ++ ending :: (inner ++ [closing])))
      (.lambda ⟨opening.place, closing.place⟩ none parameters expr) := by
  refine readsBack_form opens fun stop rest => ?_
  obtain ⟨_, names⟩ :=
    readNames_readsBack stop .lambda named ended (inner ++ closing :: rest)
  obtain ⟨_, read⟩ := body stop (closing :: rest)
  obtain ⟨_, closed⟩ := readClose_readsBack stop .lambda closes rest
  rw [List.cons_append, List.cons_append, List.append_assoc, List.cons_append, List.append_assoc,
    List.singleton_append, readForm, if_neg (by rw [keyed]; decide),
    if_neg (by rw [keyed]; decide), if_pos keyed, readLambda, signed]
  simp only [names, read, closed]
  exact ⟨_, rfl⟩

theorem readsBack_call (opens : opening.lexeme = .leftParen)
    (plain : ∀ token ∈ first.head?, ¬ token.lexeme.IsKeyword) (written : Written first expr)
    (head : ReadsBack first expr) (tail : ReadsBackAll others exprs)
    (closes : closing.lexeme = .rightParen) :
    ReadsBack (opening :: (first ++ (others ++ [closing])))
      (.call ⟨opening.place, closing.place⟩ expr exprs) := by
  refine readsBack_form opens fun stop rest => ?_
  obtain ⟨token, behind, rfl, open_⟩ := written.exists_cons
  have plain := plain token rfl
  obtain ⟨_, read⟩ : (readExpr stop (token :: (behind ++ (others ++ closing :: rest)))).Yields expr
      (others ++ closing :: rest) := head stop _
  obtain ⟨_, operands⟩ := tail stop rest closes
  rw [List.append_assoc, List.append_assoc, List.singleton_append, List.cons_append, readForm,
    if_neg fun same => plain (.inl same), if_neg fun same => plain (.inr (.inl same)),
    if_neg fun same => plain (.inr (.inr same)), if_neg open_]
  simp only [read, operands]
  exact ⟨_, rfl⟩

theorem readsBackAll_nil : ReadsBackAll [] [] := by
  intro stop closing rest closes
  rw [List.nil_append, readOperands, if_pos closes]
  exact ⟨_, rfl⟩

theorem readsBackAll_cons (written : Written first expr) (head : ReadsBack first expr)
    (tail : ReadsBackAll others exprs) : ReadsBackAll (first ++ others) (expr :: exprs) := by
  intro stop closing rest closes
  obtain ⟨token, behind, rfl, open_⟩ := written.exists_cons
  obtain ⟨_, read⟩ : (readExpr stop (token :: (behind ++ (others ++ closing :: rest)))).Yields expr
      (others ++ closing :: rest) := head stop _
  obtain ⟨_, operands⟩ := tail stop rest closes
  rw [List.append_assoc, List.cons_append, readOperands, if_neg open_]
  simp only [read, operands]
  exact ⟨_, rfl⟩

end ReadsBack

end Reader

mutual

theorem Written.readsBack {tokens : List Token} {expr : Expr} :
    Written tokens expr → Reader.ReadsBack tokens expr
  | .integer integer denoted => by
      intro stop rest
      rw [List.singleton_append, Reader.readExpr, integer]
      simp only [denoted]
      exact ⟨_, rfl⟩
  | .bool bool => by
      intro stop rest
      rw [List.singleton_append, Reader.readExpr, bool]
      exact ⟨_, rfl⟩
  | .symbol symbol => by
      intro stop rest
      rw [List.singleton_append, Reader.readExpr, symbol]
      exact ⟨_, rfl⟩
  | .conditional opens keyed written closes made =>
      Reader.readsBack_conditional opens keyed written.readsBackAll closes made
  | .define opens keyed named written closes =>
      Reader.readsBack_define opens keyed named written.readsBack closes
  | .defineFunction opens keyed signed named ended written closes =>
      Reader.readsBack_defineFunction opens keyed signed named ended written.readsBack closes
  | .lambda opens keyed signed named ended written closes =>
      Reader.readsBack_lambda opens keyed signed named ended written.readsBack closes
  | .call opens plain head tail closes =>
      Reader.readsBack_call opens plain head head.readsBack tail.readsBackAll closes

theorem WrittenAll.readsBackAll {tokens : List Token} {exprs : List Expr} :
    WrittenAll tokens exprs → Reader.ReadsBackAll tokens exprs
  | .nil => Reader.readsBackAll_nil
  | .cons head tail => Reader.readsBackAll_cons head head.readsBack tail.readsBackAll

end

namespace Reader

/-- An expression is read exactly if the tokens passed are those in which it is written. -/
theorem readExpr_yields_iff (stop : Position) {tokens rest : List Token} {expr : Expr} :
    (readExpr stop tokens).Yields expr rest ↔
      ∃ front, tokens = front ++ rest ∧ Written front expr := by
  constructor
  · rintro ⟨shorter, read⟩
    have passes := passesBelow _ stop tokens (Nat.lt_succ_self _)
    rw [read] at passes
    exact passes
  · rintro ⟨front, rfl, written⟩
    exact written.readsBack stop rest

/-- Expressions are read up to the end exactly if the tokens are those in which they are written.
-/
theorem readAll_eq_ok_iff (stop : Position) {tokens : List Token} {exprs : List Expr} :
    readAll stop tokens = .ok exprs ↔ WrittenAll tokens exprs := by
  constructor
  · intro read
    induction exprs generalizing tokens with
    | nil =>
        cases tokens with
        | nil => exact .nil
        | cons token rest =>
            rw [readAll] at read
            split at read
            · cases read
            · split at read <;> cases read
    | cons expr exprs ih =>
        cases tokens with
        | nil =>
            rw [readAll] at read
            cases read
        | cons token rest =>
            rw [readAll] at read
            split at read
            · cases read
            · next first left shorter found =>
                split at read
                · cases read
                · next others remaining =>
                    cases read
                    obtain ⟨front, parted, written⟩ :=
                      (readExpr_yields_iff stop).mp ⟨shorter, found⟩
                    rw [parted]
                    exact .cons written (ih remaining)
  · intro written
    induction exprs generalizing tokens with
    | nil =>
        cases written
        rw [readAll]
    | cons expr exprs ih =>
        cases written with
        | @cons first rest _ _ head tail =>
            obtain ⟨token, behind, rfl, -⟩ := head.exists_cons
            obtain ⟨_, read⟩ : (readExpr stop (token :: (behind ++ rest))).Yields expr rest :=
              head.readsBack stop rest
            rw [List.cons_append, readAll]
            simp only [read, ih tail]

/-- A text is parsed exactly if its tokens are those in which the expressions are written. -/
theorem parse_eq_ok_iff {text : Bytes} {exprs : List Expr} :
    parse text = .ok exprs ↔ WrittenAll (Lexed.ofBytes text).tokens exprs :=
  readAll_eq_ok_iff _

end Reader

end ClosureLisp
