import ClosureLisp.Proofs.Grammar
import ClosureLisp.Proofs.Reporting
import Mathlib

/-!
# The reader accepts exactly the language

From any tokens the reader reads an expression if and only if they start with one of the grammar;
then it reads that one and stops behind it (`Reader.yields_iff`). What it reads is derived by
induction on the number of tokens, one lemma for each reading function, and what is derived is read
by induction on the derivation, one lemma for each rule. `Reader.parse_iff_derivesAll` says the same
of whole texts.
-/

namespace ClosureLisp

/-! ## What is read is derived -/

namespace Reading

variable {α : Type} {bound : Nat}

/-- A reading is sound: what it yields is related to the lexemes it has passed, and it fails with an
error of syntax only. -/
def Sound (tokens : List Token) (holds : List Lexeme → α → Prop) : Reading α bound → Prop
  | .done value rest _ => ∃ lexemes, Leads lexemes tokens rest ∧ holds lexemes value
  | .failed error _ => error.kind = .malformed

theorem Sound.cases {tokens : List Token} {holds : List Lexeme → α → Prop}
    {reading : Reading α bound} (sound : reading.Sound tokens holds) :
    (∃ error left, reading = .failed error left ∧ error.kind = .malformed) ∨
      ∃ value rest shorter lexemes, reading = .done value rest shorter ∧
        Leads lexemes tokens rest ∧ holds lexemes value := by
  cases reading with
  | failed error left => exact .inl ⟨error, left, rfl, sound⟩
  | done value rest shorter =>
      obtain ⟨lexemes, leads, held⟩ := sound
      exact .inr ⟨value, rest, shorter, lexemes, rfl, leads, held⟩

end Reading

namespace Reader

theorem readNames_sound (stop : Position) (form : SpecialForm) (tokens : List Token) :
    (readNames stop form tokens).Sound tokens fun lexemes names =>
      lexemes = names.map .symbol ++ [.rightParen] := by
  induction tokens with
  | nil => rfl
  | cons token rest ih =>
      rw [readNames]
      split
      · next close => exact ⟨_, .single close, rfl⟩
      · next name symbol =>
          rcases ih.cases with ⟨error, left, read, syntactic⟩ |
            ⟨names, left, shorter, lexemes, read, leads, rfl⟩ <;> rw [read]
          · exact syntactic
          · exact ⟨_, leads.cons symbol, rfl⟩
      · rfl

theorem readClose_sound (stop : Position) (form : SpecialForm) (tokens : List Token) :
    (readClose stop form tokens).Sound tokens fun lexemes _ => lexemes = [.rightParen] := by
  cases tokens with
  | nil => rfl
  | cons token rest =>
      rw [readClose]
      split
      · next close => exact ⟨_, .single close, rfl⟩
      · rfl

theorem derives_conditional {span : Span} {operands : List Expr} {expr : Expr}
    {inner : List Lexeme} (derived : DerivesAll inner (Expr.shapes operands))
    (shaped : conditional? span operands = some expr) :
    Derives (.leftParen :: .symbol (utf8 "if") :: (inner ++ [.rightParen])) expr.shape := by
  match operands, shaped with
  | [test, consequent], rfl => simpa using Derives.ifThen derived
  | [test, consequent, alternative], rfl => simpa using Derives.ifElse derived

/-- Reading an expression is sound on all tokens of which there are fewer than a bound. -/
def SoundBelow (bound : Nat) : Prop :=
  ∀ (stop : Position) (tokens : List Token), tokens.length < bound →
    (readExpr stop tokens).Sound tokens fun lexemes expr => Derives lexemes expr.shape

section Sound

variable {bound : Nat} (below : SoundBelow bound) (stop start : Position)

include below

theorem readOperands_sound {tokens : List Token} (short : tokens.length < bound) :
    (readOperands stop tokens).Sound tokens fun lexemes read =>
      ∃ inner, lexemes = inner ++ [.rightParen] ∧ DerivesAll inner (Expr.shapes read.1) := by
  induction tokens using WellFounded.induction (measure List.length).wf with
  | h tokens ih =>
      cases tokens with
      | nil =>
          rw [readOperands]
          rfl
      | cons token rest =>
          rw [readOperands]
          split
          · next close => exact ⟨_, .single close, [], rfl, .nil⟩
          · rcases (below stop _ short).cases with ⟨error, left, read, syntactic⟩ |
              ⟨expr, left, shorter, first, read, leads, derived⟩ <;> rw [read]
            · exact syntactic
            · rcases (ih left shorter (Nat.lt_trans shorter short)).cases with
                ⟨error, last, others, syntactic⟩ |
                ⟨⟨exprs, close⟩, last, shorter', _, others, onward, inner, rfl, remaining⟩ <;>
                simp only [others]
              · exact syntactic
              · exact ⟨_, leads.append onward, first ++ inner, (List.append_assoc _ _ _).symm,
                  .cons derived remaining⟩

/-- The value or body at the end of a form: an expression and a closing parenthesis. -/
theorem readLast_cases (form : SpecialForm) {tokens : List Token} (short : tokens.length < bound) :
    (∃ error left, readExpr stop tokens = .failed error left ∧ error.kind = .malformed) ∨
      ∃ expr left shorter, readExpr stop tokens = .done expr left shorter ∧
        ((∃ error last, readClose stop form left = .failed error last ∧
            error.kind = .malformed) ∨
          ∃ close last shorter' inner, readClose stop form left = .done close last shorter' ∧
            Leads (inner ++ [.rightParen]) tokens last ∧ Derives inner expr.shape) := by
  rcases (below stop tokens short).cases with ⟨error, left, read, syntactic⟩ |
    ⟨expr, left, shorter, inner, read, leads, derived⟩
  · exact .inl ⟨error, left, read, syntactic⟩
  · refine .inr ⟨expr, left, shorter, read, ?_⟩
    rcases (readClose_sound stop form left).cases with ⟨error, last, closed, syntactic⟩ |
      ⟨close, last, shorter', _, closed, closes, rfl⟩
    · exact .inl ⟨error, last, closed, syntactic⟩
    · exact .inr ⟨close, last, shorter', inner, closed, leads.append closes, derived⟩

theorem readDefine_sound {tokens : List Token} (short : tokens.length < bound) :
    (readDefine stop start tokens).Sound tokens fun lexemes expr =>
      Derives (.leftParen :: .symbol (utf8 "define") :: lexemes) expr.shape := by
  cases tokens with
  | nil =>
      rw [readDefine]
      rfl
  | cons head rest =>
      have inside : rest.length < bound := Nat.lt_of_succ_lt short
      rw [readDefine]
      split
      · next signature =>
          rcases (readNames_sound stop .define rest).cases with ⟨error, left, read, syntactic⟩ |
            ⟨names, left, shorter, _, read, leads, rfl⟩ <;> rw [read]
          · exact syntactic
          · cases names with
            | nil => rfl
            | cons name parameters =>
                rcases readLast_cases below stop .define (Nat.lt_trans shorter inside) with
                  ⟨error, last, body, syntactic⟩ |
                  ⟨body, last, _, ended, ⟨error, final, closed, syntactic⟩ |
                    ⟨close, final, _, inner, closed, onward, derived⟩⟩
                · simp only [body]
                  exact syntactic
                · simp only [ended, closed]
                  exact syntactic
                · simp only [ended, closed]
                  refine ⟨_, (leads.append onward).cons signature, ?_⟩
                  simpa using Derives.defineFunction name parameters derived
      · next name symbol =>
          rcases readLast_cases below stop .define inside with ⟨error, left, read, syntactic⟩ |
            ⟨value, left, _, ended, ⟨error, last, closed, syntactic⟩ |
              ⟨close, last, _, inner, closed, onward, derived⟩⟩
          · simp only [read]
            exact syntactic
          · simp only [ended, closed]
            exact syntactic
          · simp only [ended, closed]
            refine ⟨_, onward.cons symbol, ?_⟩
            simpa [Expr.shape_named] using Derives.define name derived
      · rfl

theorem readLambda_sound {tokens : List Token} (short : tokens.length < bound) :
    (readLambda stop start tokens).Sound tokens fun lexemes expr =>
      Derives (.leftParen :: .symbol (utf8 "lambda") :: lexemes) expr.shape := by
  cases tokens with
  | nil =>
      rw [readLambda]
      rfl
  | cons head rest =>
      have inside : rest.length < bound := Nat.lt_of_succ_lt short
      rw [readLambda]
      split
      · next opening =>
          rcases (readNames_sound stop .lambda rest).cases with ⟨error, left, read, syntactic⟩ |
            ⟨parameters, left, shorter, _, read, leads, rfl⟩ <;> rw [read]
          · exact syntactic
          · rcases readLast_cases below stop .lambda (Nat.lt_trans shorter inside) with
              ⟨error, last, body, syntactic⟩ |
              ⟨body, last, _, ended, ⟨error, final, closed, syntactic⟩ |
                ⟨close, final, _, inner, closed, onward, derived⟩⟩
            · simp only [body]
              exact syntactic
            · simp only [ended, closed]
              exact syntactic
            · simp only [ended, closed]
              refine ⟨_, (leads.append onward).cons opening, ?_⟩
              simpa using Derives.lambda parameters derived
      · rfl

theorem readForm_sound {tokens : List Token} (short : tokens.length < bound) :
    (readForm stop start tokens).Sound tokens fun lexemes expr =>
      Derives (.leftParen :: lexemes) expr.shape := by
  cases tokens with
  | nil =>
      rw [readForm]
      rfl
  | cons head rest =>
      have inside : rest.length < bound := Nat.lt_of_succ_lt short
      rw [readForm]
      split
      · next keyword =>
          rcases (readOperands_sound below stop inside).cases with
            ⟨error, left, read, syntactic⟩ |
            ⟨⟨operands, close⟩, left, _, _, read, leads, inner, rfl, derived⟩ <;> simp only [read]
          · exact syntactic
          · cases shaped : conditional? ⟨start, close⟩ operands with
            | none => rfl
            | some expr => exact ⟨_, leads.cons keyword, derives_conditional derived shaped⟩
      split
      · next keyword =>
          rcases (readDefine_sound below stop start inside).cases with
            ⟨error, left, read, syntactic⟩ | ⟨expr, left, _, _, read, leads, derived⟩ <;>
            simp only [read]
          · exact syntactic
          · exact ⟨_, leads.cons keyword, derived⟩
      split
      · next keyword =>
          rcases (readLambda_sound below stop start inside).cases with
            ⟨error, left, read, syntactic⟩ | ⟨expr, left, _, _, read, leads, derived⟩ <;>
            simp only [read]
          · exact syntactic
          · exact ⟨_, leads.cons keyword, derived⟩
      split
      · rfl
      · next conditional define lambda close =>
          rcases (below stop _ short).cases with ⟨error, left, read, syntactic⟩ |
            ⟨callee, left, shorter, first, read, leads, derived⟩ <;> simp only [read]
          · exact syntactic
          · rcases (readOperands_sound below stop (Nat.lt_trans shorter short)).cases with
              ⟨error, last, others, syntactic⟩ |
              ⟨⟨arguments, close⟩, last, _, _, others, onward, inner, rfl, remaining⟩ <;>
              simp only [others]
            · exact syntactic
            · refine ⟨_, leads.append onward, ?_⟩
              refine .call derived remaining fun lexeme starts keyword => ?_
              rw [← leads.head_eq starts] at keyword
              rcases keyword with same | same | same
              · exact conditional same
              · exact define same
              · exact lambda same

end Sound

theorem digitsValue_eq (digits : Bytes) : digitsValue digits = digitsNumber digits := by
  rw [digitsValue, digitsNumber, Nat.ofDigits_eq_foldr, List.foldr_map, List.foldr_reverse]
  simp only [Nat.cast_id, Nat.add_comm, Nat.mul_comm]

theorem integerValue_eq (digits : Bytes) : integerValue digits = numeralNumber digits := by
  cases digits with
  | nil => rfl
  | cons byte rest => simp only [integerValue, numeralNumber, digitsValue_eq]

/-- An integer token stands for the number it denotes, if that is a signed word. -/
theorem integer?_eq_some_iff {digits : Bytes} {value : Int32} :
    integer? digits = some value ↔
      -2147483648 ≤ numeralNumber digits ∧ numeralNumber digits < 2147483648 ∧
        value.toInt = numeralNumber digits := by
  simp only [integer?, integerValue_eq]
  constructor
  · intro denoted
    split at denoted
    · next range =>
        cases denoted
        exact ⟨range.1, range.2, Int32.toInt_ofInt_of_le range.1 range.2⟩
    · cases denoted
  · rintro ⟨low, high, same⟩
    rw [if_pos ⟨low, high⟩, ← same, Int32.ofInt_toInt]

theorem soundBelow (bound : Nat) : SoundBelow bound := by
  induction bound with
  | zero => exact fun _ _ short => absurd short (Nat.not_lt_zero _)
  | succ bound below =>
      intro stop tokens short
      cases tokens with
      | nil =>
          rw [readExpr]
          rfl
      | cons token rest =>
          rw [readExpr]
          split
          · next digits integer =>
              cases denoted : integer? digits with
              | none => rfl
              | some value =>
                  obtain ⟨low, high, same⟩ := integer?_eq_some_iff.mp denoted
                  refine ⟨_, .single integer, ?_⟩
                  simpa [same] using Derives.integer low high
          · next value bool => exact ⟨_, .single bool, by simpa using Derives.bool value⟩
          · next name symbol => exact ⟨_, .single symbol, by simpa using Derives.symbol name⟩
          · rfl
          · rfl
          · next opening =>
              have sound := readForm_sound below stop token.place (Nat.lt_of_succ_lt_succ short)
              rcases sound.cases with
                ⟨error, left, read, syntactic⟩ | ⟨expr, left, _, _, read, leads, derived⟩ <;>
                simp only [read]
              · exact syntactic
              · exact ⟨_, leads.cons opening, derived⟩

/-- What is read is an expression of the language, and what is refused is an error of syntax. -/
theorem readExpr_sound (stop : Position) (tokens : List Token) :
    (readExpr stop tokens).Sound tokens fun lexemes expr => Derives lexemes expr.shape :=
  soundBelow _ stop tokens (Nat.lt_succ_self _)

end Reader

/-! ## What is derived is read -/

/-- A reading yields a value and goes on with the rest. -/
def Reading.Yields {α : Type} {bound : Nat} (reading : Reading α bound) (value : α)
    (rest : List Token) : Prop :=
  ∃ shorter, reading = .done value rest shorter

namespace Reader

theorem readNames_yields {names : List Name} {tokens rest : List Token} (stop : Position)
    (form : SpecialForm) (leads : Leads (names.map .symbol ++ [.rightParen]) tokens rest) :
    (readNames stop form tokens).Yields names rest := by
  induction names generalizing tokens with
  | nil =>
      obtain ⟨token, behind, rfl, close, ended⟩ := Leads.cons_iff.mp leads
      cases Leads.nil_iff.mp ended
      rw [readNames, close]
      exact ⟨_, rfl⟩
  | cons name names ih =>
      obtain ⟨token, behind, rfl, symbol, others⟩ := Leads.cons_iff.mp leads
      obtain ⟨shorter, read⟩ := ih others
      rw [readNames, symbol]
      simp only [read]
      exact ⟨_, rfl⟩

theorem readClose_yields {tokens rest : List Token} (stop : Position) (form : SpecialForm)
    (leads : Leads [.rightParen] tokens rest) :
    ∃ close, (readClose stop form tokens).Yields close rest := by
  obtain ⟨token, behind, rfl, close, ended⟩ := Leads.cons_iff.mp leads
  cases Leads.nil_iff.mp ended
  refine ⟨token.place, ?_⟩
  rw [readClose, close]
  exact ⟨_, rfl⟩

/-- Wherever tokens start with the given lexemes, an expression of the given shape is read. -/
def Reads (lexemes : List Lexeme) (shape : Shape) : Prop :=
  ∀ (stop : Position) {tokens rest : List Token}, Leads lexemes tokens rest →
    ∃ expr, (readExpr stop tokens).Yields expr rest ∧ expr.shape = shape

/-- Wherever tokens start with the given lexemes and a closing parenthesis, operands of the given
shapes are read. -/
def ReadsAll (lexemes : List Lexeme) (shapes : List Shape) : Prop :=
  ∀ (stop : Position) {tokens rest : List Token}, Leads (lexemes ++ [.rightParen]) tokens rest →
    ∃ exprs close, (readOperands stop tokens).Yields (exprs, close) rest ∧
      Expr.shapes exprs = shapes

section Reads

variable {inner : List Lexeme} {shape : Shape}

theorem Reads.last (reads : Reads inner shape) (stop : Position) (form : SpecialForm)
    {tokens rest : List Token} (leads : Leads (inner ++ [.rightParen]) tokens rest) :
    ∃ expr left close, (readExpr stop tokens).Yields expr left ∧
      (readClose stop form left).Yields close rest ∧ expr.shape = shape := by
  obtain ⟨left, first, closing⟩ := Leads.append_iff.mp leads
  obtain ⟨expr, read, shaped⟩ := reads stop first
  obtain ⟨close, closed⟩ := readClose_yields stop form closing
  exact ⟨expr, left, close, read, closed, shaped⟩

theorem reads_form {lexemes : List Lexeme}
    (forms : ∀ (stop start : Position) (tokens rest : List Token), Leads lexemes tokens rest →
      ∃ expr, (readForm stop start tokens).Yields expr rest ∧ expr.shape = shape) :
    Reads (.leftParen :: lexemes) shape := by
  intro stop tokens rest leads
  obtain ⟨token, behind, rfl, opening, inside⟩ := Leads.cons_iff.mp leads
  obtain ⟨expr, ⟨shorter, read⟩, shaped⟩ := forms stop token.place behind rest inside
  refine ⟨expr, ?_, shaped⟩
  rw [readExpr, opening]
  simp only [read]
  exact ⟨_, rfl⟩

theorem reads_integer {digits : Bytes} (low : -2147483648 ≤ numeralNumber digits)
    (high : numeralNumber digits < 2147483648) :
    Reads [.integer digits] (.int (numeralNumber digits)) := by
  intro stop tokens rest leads
  obtain ⟨token, behind, rfl, integer, ended⟩ := Leads.cons_iff.mp leads
  cases Leads.nil_iff.mp ended
  have same : (Int32.ofInt (numeralNumber digits)).toInt = numeralNumber digits :=
    Int32.toInt_ofInt_of_le low high
  refine ⟨.int token.span (Int32.ofInt (numeralNumber digits)), ?_, by rw [Expr.shape, same]⟩
  rw [readExpr, integer]
  simp only [integer?_eq_some_iff.mpr ⟨low, high, same⟩]
  exact ⟨_, rfl⟩

theorem reads_bool (value : Bool) : Reads [.bool value] (.bool value) := by
  intro stop tokens rest leads
  obtain ⟨token, behind, rfl, bool, ended⟩ := Leads.cons_iff.mp leads
  cases Leads.nil_iff.mp ended
  refine ⟨.bool token.span value, ?_, by rw [Expr.shape]⟩
  rw [readExpr, bool]
  exact ⟨_, rfl⟩

theorem reads_symbol (name : Name) : Reads [.symbol name] (.var name) := by
  intro stop tokens rest leads
  obtain ⟨token, behind, rfl, symbol, ended⟩ := Leads.cons_iff.mp leads
  cases Leads.nil_iff.mp ended
  refine ⟨.var token.span name, ?_, by rw [Expr.shape]⟩
  rw [readExpr, symbol]
  exact ⟨_, rfl⟩

theorem reads_if {shapes : List Shape} (operands : ReadsAll inner shapes)
    (conditional : ∀ span exprs, Expr.shapes exprs = shapes →
      ∃ expr, conditional? span exprs = some expr ∧ expr.shape = shape) :
    Reads (.leftParen :: .symbol (utf8 "if") :: (inner ++ [.rightParen])) shape := by
  refine reads_form fun stop start tokens rest leads => ?_
  obtain ⟨token, behind, rfl, keyword, inside⟩ := Leads.cons_iff.mp leads
  obtain ⟨exprs, close, ⟨shorter, read⟩, shaped⟩ := operands stop inside
  obtain ⟨expr, made, same⟩ := conditional ⟨start, close⟩ exprs shaped
  refine ⟨expr, ?_, same⟩
  rw [readForm, if_pos keyword]
  simp only [read, made]
  exact ⟨_, rfl⟩

theorem reads_define (name : Name) (value : Reads inner shape) :
    Reads (.leftParen :: .symbol (utf8 "define") :: .symbol name :: (inner ++ [.rightParen]))
      (.define name (shape.named name)) := by
  refine reads_form fun stop start tokens rest leads => ?_
  obtain ⟨token, behind, rfl, keyword, inside⟩ := Leads.cons_iff.mp leads
  obtain ⟨head, behind, rfl, symbol, inside⟩ := Leads.cons_iff.mp inside
  obtain ⟨expr, left, close, ⟨shorter, read⟩, ⟨shorter', closed⟩, shaped⟩ :=
    value.last stop .define inside
  refine ⟨.define ⟨start, close⟩ name (expr.named name), ?_, ?_⟩
  · rw [readForm, if_neg (by rw [keyword]; decide), if_pos keyword, readDefine, symbol]
    simp only [read, closed]
    exact ⟨_, rfl⟩
  · rw [Expr.shape, Expr.shape_named, shaped]

/-- A define with a signature and a lambda both end with parameters and a body. -/
theorem Reads.parameters_last (body : Reads inner shape) (stop : Position) (form : SpecialForm)
    (names : List Name) {tokens rest : List Token}
    (leads : Leads (names.map .symbol ++ .rightParen :: (inner ++ [.rightParen])) tokens rest) :
    ∃ middle left expr close, (readNames stop form tokens).Yields names middle ∧
      (readExpr stop middle).Yields expr left ∧ (readClose stop form left).Yields close rest ∧
      expr.shape = shape := by
  rw [List.append_cons] at leads
  obtain ⟨middle, signature, inside⟩ := Leads.append_iff.mp leads
  obtain ⟨expr, left, close, read, closed, shaped⟩ := body.last stop form inside
  exact ⟨middle, left, expr, close, readNames_yields stop form signature, read, closed, shaped⟩

theorem reads_defineFunction (name : Name) (parameters : List Name) (body : Reads inner shape) :
    Reads
      (.leftParen :: .symbol (utf8 "define") :: .leftParen :: .symbol name ::
        (parameters.map .symbol ++ .rightParen :: (inner ++ [.rightParen])))
      (.define name (.lambda (some name) parameters shape)) := by
  refine reads_form fun stop start tokens rest leads => ?_
  obtain ⟨token, behind, rfl, keyword, inside⟩ := Leads.cons_iff.mp leads
  obtain ⟨head, behind, rfl, signature, inside⟩ := Leads.cons_iff.mp inside
  obtain ⟨middle, left, expr, close, ⟨_, names⟩, ⟨_, read⟩, ⟨_, closed⟩, shaped⟩ :=
    body.parameters_last stop .define (name :: parameters) inside
  refine ⟨.define ⟨start, close⟩ name (.lambda ⟨start, close⟩ (some name) parameters expr), ?_,
    by simp [shaped]⟩
  rw [readForm, if_neg (by rw [keyword]; decide), if_pos keyword, readDefine, signature]
  simp only [names, read, closed]
  exact ⟨_, rfl⟩

theorem reads_lambda (parameters : List Name) (body : Reads inner shape) :
    Reads
      (.leftParen :: .symbol (utf8 "lambda") :: .leftParen ::
        (parameters.map .symbol ++ .rightParen :: (inner ++ [.rightParen])))
      (.lambda none parameters shape) := by
  refine reads_form fun stop start tokens rest leads => ?_
  obtain ⟨token, behind, rfl, keyword, inside⟩ := Leads.cons_iff.mp leads
  obtain ⟨head, behind, rfl, opening, inside⟩ := Leads.cons_iff.mp inside
  obtain ⟨middle, left, expr, close, ⟨_, names⟩, ⟨_, read⟩, ⟨_, closed⟩, shaped⟩ :=
    body.parameters_last stop .lambda parameters inside
  refine ⟨.lambda ⟨start, close⟩ none parameters expr, ?_, by simp [shaped]⟩
  rw [readForm, if_neg (by rw [keyword]; decide), if_neg (by rw [keyword]; decide), if_pos keyword,
    readLambda, opening]
  simp only [names, read, closed]
  exact ⟨_, rfl⟩

theorem reads_call {first others : List Lexeme} {callee : Shape} {arguments : List Shape}
    (derived : Derives first callee) (plain : ∀ lexeme ∈ first.head?, ¬ lexeme.IsKeyword)
    (head : Reads first callee) (tail : ReadsAll others arguments) :
    Reads (.leftParen :: (first ++ (others ++ [.rightParen]))) (.call callee arguments) := by
  refine reads_form fun stop start tokens rest leads => ?_
  obtain ⟨lexeme, lexemes, rfl, opening⟩ := derived.exists_cons
  have plain := plain lexeme rfl
  obtain ⟨left, before, behind⟩ := Leads.append_iff.mp leads
  obtain ⟨function, ⟨shorter, read⟩, shaped⟩ := head stop before
  obtain ⟨exprs, close, ⟨_, others⟩, shapes⟩ := tail stop behind
  obtain ⟨token, inside, rfl, rfl, -⟩ := Leads.cons_iff.mp before
  refine ⟨.call ⟨start, close⟩ function exprs, ?_, by simp [shaped, shapes]⟩
  rw [readForm, if_neg fun same => plain (.inl same), if_neg fun same => plain (.inr (.inl same)),
    if_neg fun same => plain (.inr (.inr same)), if_neg opening]
  simp only [read, others]
  exact ⟨_, rfl⟩

theorem readsAll_nil : ReadsAll [] [] := by
  intro stop tokens rest leads
  obtain ⟨token, behind, rfl, close, ended⟩ := Leads.cons_iff.mp leads
  cases Leads.nil_iff.mp ended
  refine ⟨[], token.place, ?_, by simp⟩
  rw [readOperands, if_pos close]
  exact ⟨_, rfl⟩

theorem readsAll_cons {first others : List Lexeme} {shapes : List Shape}
    (derived : Derives first shape) (head : Reads first shape) (tail : ReadsAll others shapes) :
    ReadsAll (first ++ others) (shape :: shapes) := by
  intro stop tokens rest leads
  rw [List.append_assoc] at leads
  obtain ⟨lexeme, lexemes, rfl, opening⟩ := derived.exists_cons
  obtain ⟨left, before, behind⟩ := Leads.append_iff.mp leads
  obtain ⟨expr, ⟨shorter, read⟩, shaped⟩ := head stop before
  obtain ⟨exprs, close, ⟨_, others⟩, same⟩ := tail stop behind
  obtain ⟨token, inside, rfl, rfl, -⟩ := Leads.cons_iff.mp before
  refine ⟨expr :: exprs, close, ?_, by simp [shaped, same]⟩
  rw [readOperands, if_neg opening]
  simp only [read, others]
  exact ⟨_, rfl⟩

end Reads

end Reader

mutual

theorem Derives.reads {lexemes : List Lexeme} {shape : Shape} :
    Derives lexemes shape → Reader.Reads lexemes shape
  | .integer low high => Reader.reads_integer low high
  | .bool value => Reader.reads_bool value
  | .symbol name => Reader.reads_symbol name
  | .ifThen operands => by
      refine Reader.reads_if operands.readsAll fun span exprs shaped => ?_
      match exprs with
      | [test, consequent] => exact ⟨.ifThen span test consequent, rfl, by simp_all⟩
      | [] | [_] | _ :: _ :: _ :: _ => simp at shaped
  | .ifElse operands => by
      refine Reader.reads_if operands.readsAll fun span exprs shaped => ?_
      match exprs with
      | [test, consequent, alternative] =>
          exact ⟨.ifElse span test consequent alternative, rfl, by simp_all⟩
      | [] | [_] | [_, _] | _ :: _ :: _ :: _ :: _ => simp at shaped
  | .define name derived => Reader.reads_define name derived.reads
  | .defineFunction name parameters derived =>
      Reader.reads_defineFunction name parameters derived.reads
  | .lambda parameters derived => Reader.reads_lambda parameters derived.reads
  | .call head tail plain => Reader.reads_call head plain head.reads tail.readsAll

theorem DerivesAll.readsAll {lexemes : List Lexeme} {shapes : List Shape} :
    DerivesAll lexemes shapes → Reader.ReadsAll lexemes shapes
  | .nil => Reader.readsAll_nil
  | .cons head tail => Reader.readsAll_cons head head.reads tail.readsAll

end

/-! ## The reader accepts exactly the language -/

namespace Reading

variable {α : Type} {bound : Nat}

/-- What a reading returns: nothing if it fails. -/
def value? : Reading α bound → Option α
  | .done value _ _ => some value
  | .failed _ _ => none

/-- The errors that a reading reports. -/
def errors : Reading α bound → List SourceError
  | .done _ _ _ => []
  | .failed error _ => [error]

end Reading

namespace Parsing

variable {α : Type} {bound : Nat} (before : List SourceError) (reading : Reading α bound)

@[simp]
theorem value?_ofReading : (ofReading before reading).value? = reading.value? := by
  cases reading <;> rfl

@[simp]
theorem errors_ofReading : (ofReading before reading).errors = before ++ reading.errors := by
  cases reading with
  | done value rest shorter => exact (List.append_nil before).symm
  | failed error rest => rfl

end Parsing

/-- The lexemes of a text. -/
def Lexed.lexemes (lexed : Lexed) : List Lexeme :=
  lexed.tokens.map Token.lexeme

namespace Reader

/-- From any tokens an expression is read exactly if they start with one. -/
theorem yields_iff (stop : Position) (tokens rest : List Token) (shape : Shape) :
    (∃ expr, (readExpr stop tokens).Yields expr rest ∧ expr.shape = shape) ↔
      ∃ lexemes, Leads lexemes tokens rest ∧ Derives lexemes shape := by
  constructor
  · rintro ⟨expr, ⟨shorter, read⟩, rfl⟩
    have sound := readExpr_sound stop tokens
    rw [read] at sound
    exact sound
  · rintro ⟨lexemes, leads, derived⟩
    exact derived.reads stop leads

/-- A reading returns an expression and reports no error, or nothing and one error of syntax. -/
theorem readExpr_cases (stop : Position) (tokens : List Token) :
    (∃ expr, (readExpr stop tokens).value? = some expr ∧ (readExpr stop tokens).errors = []) ∨
      ∃ error, (readExpr stop tokens).value? = none ∧ (readExpr stop tokens).errors = [error] ∧
        error.kind = .malformed := by
  rcases (readExpr_sound stop tokens).cases with ⟨error, left, read, syntactic⟩ |
    ⟨expr, left, _, _, read, -, -⟩ <;> rw [read]
  · exact .inr ⟨error, rfl, rfl, syntactic⟩
  · exact .inl ⟨expr, rfl, rfl⟩

theorem value?_eq_none_iff (stop : Position) (tokens : List Token) :
    (readExpr stop tokens).value? = none ↔ ∃ error,
      (readExpr stop tokens).errors = [error] ∧ error.kind = .malformed := by
  rcases readExpr_cases stop tokens with ⟨expr, returned, reported⟩ |
    ⟨error, returned, reported, syntactic⟩
  · simp [returned, reported]
  · simp [returned, reported, syntactic]

theorem value?_eq_some_iff (stop : Position) (tokens : List Token) :
    (∃ expr, (readExpr stop tokens).value? = some expr) ↔ (readExpr stop tokens).errors = [] := by
  rcases readExpr_cases stop tokens with ⟨expr, returned, reported⟩ |
    ⟨error, returned, reported, -⟩
  · simp [returned, reported]
  · simp [returned, reported]

theorem readAll_sound (stop : Position) (tokens : List Token) :
    (∃ error, readAll stop tokens = .error error ∧ error.kind = .malformed) ∨
      ∃ exprs, readAll stop tokens = .ok exprs ∧
        DerivesAll (tokens.map Token.lexeme) (Expr.shapes exprs) := by
  induction tokens using WellFounded.induction (measure List.length).wf with
  | h tokens ih =>
      cases tokens with
      | nil =>
          rw [readAll]
          exact .inr ⟨[], rfl, by simpa using DerivesAll.nil⟩
      | cons token rest =>
          rw [readAll]
          rcases (readExpr_sound stop (token :: rest)).cases with
            ⟨error, left, read, syntactic⟩ |
            ⟨expr, left, shorter, lexemes, read, ⟨front, parted, rfl⟩, derived⟩ <;>
            simp only [read]
          · exact .inl ⟨error, rfl, syntactic⟩
          · rw [parted, List.map_append]
            rcases ih left shorter with ⟨error, others, syntactic⟩ | ⟨exprs, others, remaining⟩ <;>
              simp only [others]
            · exact .inl ⟨error, rfl, syntactic⟩
            · exact .inr ⟨expr :: exprs, rfl, by simpa using DerivesAll.cons derived remaining⟩

theorem readAll_of_derivesAll (stop : Position) {lexemes : List Lexeme} {shapes : List Shape}
    (derived : DerivesAll lexemes shapes) (tokens : List Token)
    (spelled : tokens.map Token.lexeme = lexemes) :
    ∃ exprs, readAll stop tokens = .ok exprs ∧ Expr.shapes exprs = shapes := by
  induction shapes generalizing lexemes tokens with
  | nil =>
      cases derived
      rw [List.map_eq_nil_iff.mp spelled, readAll]
      exact ⟨[], rfl, by simp⟩
  | cons shape shapes ih =>
      cases derived with
      | cons head tail =>
          obtain ⟨front, left, rfl, first, others⟩ := List.map_eq_append_iff.mp spelled
          have leads : Leads _ (front ++ left) left := ⟨front, rfl, first⟩
          obtain ⟨exprs, remaining, same⟩ := ih tail left others
          obtain ⟨lexeme, lexemes, rfl, -⟩ := head.exists_cons
          obtain ⟨token, behind, whole, -, -⟩ := Leads.cons_iff.mp leads
          rw [whole] at leads ⊢
          obtain ⟨expr, ⟨shorter, read⟩, shaped⟩ := head.reads stop leads
          rw [readAll]
          simp only [read, remaining]
          exact ⟨expr :: exprs, rfl, by simp [shaped, same]⟩

/-- A text is parsed exactly if it has no unknown word and its lexemes are a sequence of expressions
of the language; what is read has the shapes derived. In these an integer is the number denoted,
and a lambda has a name exactly where it is the direct value of a define. Every other text is an
error of syntax. A single reading returns an expression and reports no error, or nothing and exactly
one; it returns one exactly if the tokens start with an expression of the language. The parser, which
has its errors in a list of their own, gives the same for a text, and a single call of it returns
nothing exactly if it has added one error to the list, and an expression exactly if it has added
none. -/
theorem parse_iff_derivesAll (text : Bytes) :
    (∀ shapes,
      (∃ exprs, parse text = .ok exprs ∧ Expr.shapes exprs = shapes ∧
        ∀ shape ∈ shapes, shape.NamedByDefine) ↔
      (∀ word, .unknown word ∉ (Lexed.ofBytes text).lexemes) ∧
        DerivesAll (Lexed.ofBytes text).lexemes shapes) ∧
    ((∃ error, parse text = .error error ∧ error.kind = .malformed) ↔
      ¬ ∃ shapes, (∀ word, .unknown word ∉ (Lexed.ofBytes text).lexemes) ∧
        DerivesAll (Lexed.ofBytes text).lexemes shapes) ∧
    Parser.parse text = parse text ∧
    ∀ (stop : Position) (tokens : List Token),
      ((readExpr stop tokens).value? = none ↔ ∃ error,
        (readExpr stop tokens).errors = [error] ∧ error.kind = .malformed) ∧
      ((∃ expr, (readExpr stop tokens).value? = some expr) ↔
        (readExpr stop tokens).errors = []) ∧
      (∀ shape rest,
        (∃ expr, (readExpr stop tokens).Yields expr rest ∧ expr.shape = shape) ↔
          ∃ lexemes, Leads lexemes tokens rest ∧ Derives lexemes shape) ∧
      ∀ errors,
        ((Parser.parseExpr stop errors tokens).value? = none ↔ ∃ error,
          (Parser.parseExpr stop errors tokens).errors = errors ++ [error] ∧
            error.kind = .malformed) ∧
        ((∃ expr, (Parser.parseExpr stop errors tokens).value? = some expr) ↔
          (Parser.parseExpr stop errors tokens).errors = errors) := by
  have complete : ∀ shapes, DerivesAll (Lexed.ofBytes text).lexemes shapes →
      ∃ exprs, parse text = .ok exprs ∧ Expr.shapes exprs = shapes :=
    fun shapes derived => readAll_of_derivesAll _ derived _ rfl
  have outcome : (∃ error, parse text = .error error ∧ error.kind = .malformed) ∨
      ∃ exprs, parse text = .ok exprs ∧
        DerivesAll (Lexed.ofBytes text).lexemes (Expr.shapes exprs) := readAll_sound _ _
  refine ⟨fun shapes => ⟨?_, ?_⟩, ⟨?_, ?_⟩, Parser.parse_eq text, fun stop tokens =>
    ⟨value?_eq_none_iff stop tokens, value?_eq_some_iff stop tokens,
      fun shape rest => yields_iff stop tokens rest shape, fun errors => ⟨?_, ?_⟩⟩⟩
  · rintro ⟨exprs, parsed, rfl, -⟩
    rcases outcome with ⟨error, failed, -⟩ | ⟨found, read, derived⟩
    · rw [failed] at parsed
      cases parsed
    · cases read.symm.trans parsed
      exact ⟨fun word => derived.not_mem_unknown word, derived⟩
  · rintro ⟨-, derived⟩
    obtain ⟨exprs, parsed, shaped⟩ := complete shapes derived
    exact ⟨exprs, parsed, shaped, derived.namedByDefine⟩
  · rintro ⟨error, failed, -⟩ ⟨shapes, -, derived⟩
    obtain ⟨exprs, parsed, -⟩ := complete shapes derived
    cases parsed.symm.trans failed
  · intro foreign
    refine outcome.resolve_right ?_
    rintro ⟨exprs, -, derived⟩
    exact foreign ⟨_, fun word => derived.not_mem_unknown word, derived⟩
  · simp only [Parser.parseExpr_eq, Parsing.value?_ofReading, Parsing.errors_ofReading,
      List.append_cancel_left_eq]
    exact value?_eq_none_iff stop tokens
  · simp only [Parser.parseExpr_eq, Parsing.value?_ofReading, Parsing.errors_ofReading,
      List.append_right_eq_self]
    exact value?_eq_some_iff stop tokens

example :
    (parse (utf8 "(define f (lambda (x) (if x +1 -2)))")).map Expr.shapes =
      .ok [.define [102]
        (.lambda (some [102]) [[120]] (.ifElse (.var [120]) (.int 1) (.int (-2))))] := by
  cbv

end Reader

end ClosureLisp
