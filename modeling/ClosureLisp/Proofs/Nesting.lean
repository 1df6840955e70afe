import ClosureLisp.Proofs.Derivations
import ClosureLisp.Proofs.Lexing
import ClosureLisp.Proofs.Verification

/-!
# Spans nest

The span of an atom ends behind its literal, that of a form at its closing parenthesis, and the
lambda of a function shares the span of its define. `Occupies` says in which tokens a part of a
program is written, and `Nests` how its span lies over the text: it starts at the first of these
tokens, a form runs from one parenthesis to the matching one, and the children of a part lie inside
it, one after the other. This holds of all parts of a program that has been read
(`Reader.parse_nests`). A literal is never longer than its spelling in the text, so that no atom
reaches past the start of the next token (`Lexed.separate`).
-/

namespace ClosureLisp

namespace Expr

/-- The expressions that are written in parentheses. -/
def IsForm : Expr → Prop
  | .int _ _ | .bool _ _ | .var _ _ => False
  | .ifThen _ _ _ | .ifElse _ _ _ _ | .define _ _ _ | .lambda _ _ _ _ | .call _ _ _ => True

/-- An expression ends before another one starts. -/
def Before (earlier later : Expr) : Prop :=
  earlier.span.stop.offset ≤ later.span.start.offset

end Expr

/-- The tokens in which a part of a program is written. A lambda gets the name of its define after
it has been read, and the lambda of a function is written in the tokens of its define. -/
inductive Occupies : List Token → Expr → Prop where
  | written {run : List Token} {node : Expr} (written : Written run node) : Occupies run node
  | named {run : List Token} {span : Span} {name : Name} {parameters : List Name} {body : Expr}
      (written : Written run (.lambda span none parameters body)) :
      Occupies run (.lambda span (some name) parameters body)
  | function {run : List Token} {span : Span} {name : Name} {parameters : List Name} {body : Expr}
      (written : Written run (.define span name (.lambda span (some name) parameters body))) :
      Occupies run (.lambda span (some name) parameters body)

/-- Tokens in which every parenthesis has a match. -/
inductive Balanced : List Token → Prop where
  | nil : Balanced []
  | plain {token : Token} {rest : List Token} (opensNone : token.lexeme ≠ .leftParen)
      (closesNone : token.lexeme ≠ .rightParen) (behind : Balanced rest) : Balanced (token :: rest)
  | enclosed {opening closing : Token} {inner rest : List Token}
      (opens : opening.lexeme = .leftParen) (inside : Balanced inner)
      (closes : closing.lexeme = .rightParen) (behind : Balanced rest) :
      Balanced (opening :: (inner ++ closing :: rest))

/-- The bytes at two offsets of a text are an opening parenthesis and the closing one that matches
it. -/
structure Matching (text : Bytes) (start stop : Nat) : Prop where
  opening : text[start]? = some 0x28
  closing : text[stop]? = some 0x29
  tokens : ∃ front opening inner closing back,
    (Lexed.ofBytes text).tokens = front ++ (opening :: (inner ++ [closing]) ++ back) ∧
      opening.lexeme = .leftParen ∧ closing.lexeme = .rightParen ∧ Balanced inner ∧
      opening.place.offset = start ∧ closing.place.offset = stop

/-- How the span of a part of a program lies over the text, where the part is written in the given
tokens. -/
structure Nests (text : Bytes) (run : List Token) (node : Expr) : Prop where
  listed : run <:+: (Lexed.ofBytes text).tokens
  occupies : Occupies run node
  /-- It starts where its first token does. -/
  starts : run.head?.map Token.place = some node.span.start
  /-- A form runs from a parenthesis to the matching one. -/
  encloses : node.IsForm → Matching text node.span.start.offset node.span.stop.offset
  /-- Its children lie inside it. -/
  inside : ∀ child ∈ node.children, node.span.start.offset ≤ child.span.start.offset ∧
    child.span.stop.offset ≤ node.span.stop.offset
  /-- Its children lie one after the other. -/
  apart : node.children.Pairwise Expr.Before
  /-- A define with a parameter list has the span of its lambda. -/
  shared : ∀ span name value opening keyword signature rest, node = .define span name value →
    run = opening :: keyword :: signature :: rest → signature.lexeme = .leftParen →
    ∃ parameters body, value = .lambda span (some name) parameters body

/-! ## Tokens keep apart -/

/-- No token reaches past the start of a later one. -/
def Separate (tokens : List Token) : Prop :=
  tokens.Pairwise fun earlier later => earlier.span.stop.offset ≤ later.place.offset

namespace Lexed

/-- The literal of a known lexeme is no longer than any of its spellings. -/
theorem literal_length_le {lexeme : Lexeme} {word : Bytes} (known : ∀ word, lexeme ≠ .unknown word)
    (spelled : word ∈ spellings lexeme) : lexeme.literal.length ≤ word.length := by
  cases lexeme with
  | integer digits | symbol name | leftParen | rightParen =>
      rw [List.mem_singleton.mp spelled]
      exact Nat.le_refl _
  | bool value =>
      cases value <;> rcases List.mem_pair.mp spelled with rfl | rfl <;> decide
  | unknown word => exact absurd rfl (known word)

theorem Splits.separate {before glyphs : List Glyph} {lexed : Lexed}
    (splits : Splits before glyphs lexed) (decoded : ∀ glyph ∈ glyphs, glyph.IsDecoded)
    (known : ∀ token ∈ lexed.tokens, ∀ word, token.lexeme ≠ .unknown word) :
    Separate lexed.tokens := by
  induction splits with
  | stop => exact .nil
  | @token before gap run rest lexeme lexed _ covered onward ih =>
      obtain ⟨inside, behind⟩ := List.forall_mem_append.mp decoded
      obtain ⟨first, others⟩ := List.forall_mem_cons.mp known
      refine List.pairwise_cons.mpr ⟨fun later listed => ?_, ih behind others⟩
      have short := @literal_length_le lexeme _ first
        (covered.mem_spellings (List.forall_mem_append.mp inside).2)
      have further := (onward.increasing fun glyph listed =>
        (behind glyph listed).bytes_ne_nil).2 later.place.offset
          (List.mem_append_left _ (List.mem_map_of_mem listed))
      simp only [Glyph.toBytes_append, List.length_append] at further
      simp only [Token.span, Position.behind, Glyph.toBytes_append, List.length_append]
      omega

/-- The tokens of a program that has been read. -/
theorem separate {text : Bytes} {exprs : List Expr} (parsed : Reader.parse text = .ok exprs) :
    Separate (ofBytes text).tokens := by
  have splits : Splits [] (Glyph.ofBytes text) (ofBytes text) := splits_ofGlyphs rfl _
  refine splits.separate (Glyph.decodes_ofBytes text).isDecoded fun token listed word unknown => ?_
  rcases Reader.readAll_sound (ofBytes text).stop (ofBytes text).tokens with
    ⟨error, failed, -⟩ | ⟨found, -, derived⟩
  · cases failed.symm.trans parsed
  · exact derived.not_mem_unknown word (unknown ▸ List.mem_map_of_mem listed)

/-- A token that is spelled with one byte stands at that byte. -/
theorem getElem?_of_spellings {text : Bytes} {token : Token} {byte : UInt8}
    (listed : token ∈ (ofBytes text).tokens) (spelled : spellings token.lexeme = [[byte]]) :
    text[token.place.offset]? = some byte := by
  obtain ⟨front, run, back, parted, place, -, spells⟩ :=
    (partitions_ofBytes text).covers token listed
  rw [spelled, List.mem_singleton] at spells
  rw [place, parted, spells, List.append_assoc, List.getElem?_append_right (Nat.le_refl _),
    Nat.sub_self]
  rfl

end Lexed

variable {run tokens : List Token} {node expr operand child : Expr} {exprs operands : List Expr}

theorem Separate.lt_of_opening {opening : Token} (opens : opening.lexeme = .leftParen)
    (separate : Separate (opening :: tokens)) :
    ∀ token ∈ tokens, opening.place.offset < token.place.offset := by
  intro token listed
  have apart := List.rel_of_pairwise_cons separate listed
  rw [Token.span, opens] at apart
  exact apart

/-! ## Parentheses match -/

namespace Balanced

theorem append {more : List Token} (first : Balanced tokens) (second : Balanced more) :
    Balanced (tokens ++ more) := by
  induction first with
  | nil => exact second
  | plain opensNone closesNone _ ih => exact .plain opensNone closesNone ih
  | enclosed opens inside closes _ _ ih =>
      rw [List.cons_append, List.append_assoc]
      exact .enclosed opens inside closes ih

theorem symbols {names : List Name} (named : tokens.map Token.lexeme = names.map .symbol) :
    Balanced tokens := by
  induction names generalizing tokens with
  | nil =>
      rw [List.map_eq_nil_iff.mp named]
      exact .nil
  | cons name names ih =>
      obtain ⟨token, rest, rfl, symbol, others⟩ := List.map_eq_cons_iff.mp named
      exact .plain (by rw [symbol]; exact nofun) (by rw [symbol]; exact nofun) (ih others)

/-- The names of a define or a lambda in their parentheses. -/
theorem signature {opening ending : Token} {symbols rest : List Token} {names : List Name}
    (opens : opening.lexeme = .leftParen) (named : symbols.map Token.lexeme = names.map .symbol)
    (ended : ending.lexeme = .rightParen) (behind : Balanced rest) :
    Balanced (opening :: (symbols ++ ending :: rest)) :=
  .enclosed opens (.symbols named) ended behind

theorem keyword {token : Token} {name : Name} {rest : List Token}
    (keyed : token.lexeme = .symbol name) (behind : Balanced rest) : Balanced (token :: rest) :=
  .plain (by rw [keyed]; exact nofun) (by rw [keyed]; exact nofun) behind

end Balanced

mutual

theorem Written.balanced {tokens : List Token} {expr : Expr} :
    Written tokens expr → Balanced tokens
  | .integer integer _ => .plain (by rw [integer]; exact nofun) (by rw [integer]; exact nofun) .nil
  | .bool bool => .plain (by rw [bool]; exact nofun) (by rw [bool]; exact nofun) .nil
  | .symbol symbol => .keyword symbol .nil
  | .conditional opens keyed written closes _ =>
      .enclosed opens (.keyword keyed written.balanced) closes .nil
  | .define opens keyed named written closes =>
      .enclosed opens (.keyword keyed (.keyword named written.balanced)) closes .nil
  | .defineFunction opens keyed signed named ended written closes => by
      have inside := Balanced.keyword keyed (.signature signed named ended written.balanced)
      have whole := Balanced.enclosed opens inside closes .nil
      simpa using whole
  | .lambda opens keyed signed named ended written closes => by
      have inside := Balanced.keyword keyed (.signature signed named ended written.balanced)
      have whole := Balanced.enclosed opens inside closes .nil
      simpa using whole
  | .call opens _ head tail closes => by
      have whole := Balanced.enclosed opens (head.balanced.append tail.balanced) closes .nil
      simpa using whole

theorem WrittenAll.balanced {tokens : List Token} {exprs : List Expr} :
    WrittenAll tokens exprs → Balanced tokens
  | .nil => .nil
  | .cons head tail => head.balanced.append tail.balanced

end

/-! ## Where spans start and end -/

theorem Expr.span_named (name : Name) (value : Expr) : (value.named name).span = value.span := by
  cases value with
  | lambda span self parameters body => cases self <;> rfl
  | _ => rfl

theorem Reader.conditional?_eq_some {span : Span}
    (made : Reader.conditional? span operands = some expr) :
    expr.span = span ∧ expr.children = operands := by
  unfold Reader.conditional? at made
  split at made <;> cases made <;> exact ⟨rfl, rfl⟩

/-- An atom has the span of its token, and a form goes from its first token to its last one. -/
theorem Written.span_cases (written : Written run expr) :
    (∃ token, run = [token] ∧ expr.span = token.span ∧ ¬ expr.IsForm) ∨
      ∃ opening between closing, run = opening :: (between ++ [closing]) ∧
        opening.lexeme = .leftParen ∧ closing.lexeme = .rightParen ∧ Balanced between ∧
        expr.span = ⟨opening.place, closing.place⟩ := by
  cases written with
  | integer | bool | symbol => exact .inl ⟨_, rfl, rfl, id⟩
  | conditional opens keyed written closes made =>
      exact .inr ⟨_, _ :: _, _, rfl, opens, closes, .keyword keyed written.balanced,
        (Reader.conditional?_eq_some made).1⟩
  | define opens keyed named written closes =>
      exact .inr ⟨_, _ :: _ :: _, _, rfl, opens, closes,
        .keyword keyed (.keyword named written.balanced), rfl⟩
  | @defineFunction opening keyword signature ending closing symbols inner name parameters body
      opens keyed signed named ended written closes =>
      exact .inr ⟨opening, keyword :: signature :: (symbols ++ ending :: inner), closing, by simp,
        opens, closes, .keyword keyed (.signature signed named ended written.balanced), rfl⟩
  | @lambda opening keyword signature ending closing symbols inner parameters body opens keyed
      signed named ended written closes =>
      exact .inr ⟨opening, keyword :: signature :: (symbols ++ ending :: inner), closing, by simp,
        opens, closes, .keyword keyed (.signature signed named ended written.balanced), rfl⟩
  | @call opening closing first rest callee arguments opens plain head tail closes =>
      exact .inr ⟨opening, first ++ rest, closing, by simp, opens, closes,
        head.balanced.append tail.balanced, rfl⟩

/-- Every part has the span and the tokens of an expression that is written in them. -/
theorem Occupies.exists_written (occupies : Occupies run node) :
    ∃ expr, Written run expr ∧ node.span = expr.span ∧ (node.IsForm → expr.IsForm) := by
  cases occupies with
  | written written => exact ⟨_, written, rfl, id⟩
  | named written => exact ⟨_, written, rfl, id⟩
  | function written => exact ⟨_, written, rfl, id⟩

theorem Written.starts (written : Written run expr) :
    run.head?.map Token.place = some expr.span.start := by
  rcases written.span_cases with ⟨token, rfl, spanned, -⟩ |
    ⟨opening, between, closing, rfl, -, -, -, spanned⟩ <;> rw [spanned] <;> rfl

theorem Occupies.starts (occupies : Occupies run node) :
    run.head?.map Token.place = some node.span.start := by
  obtain ⟨expr, written, spanned, -⟩ := occupies.exists_written
  rw [spanned]
  exact written.starts

theorem Occupies.exists_start (occupies : Occupies run node) :
    ∃ token ∈ run, token.place = node.span.start := by
  obtain ⟨token, first, starts⟩ := Option.map_eq_some_iff.mp occupies.starts
  exact ⟨token, List.mem_of_head? first, starts⟩

theorem Occupies.exists_stop (occupies : Occupies run node) :
    ∃ token ∈ run, node.span.stop.offset ≤ token.span.stop.offset := by
  obtain ⟨expr, written, spanned, -⟩ := occupies.exists_written
  rw [spanned]
  rcases written.span_cases with ⟨token, rfl, spanned, -⟩ |
    ⟨opening, between, closing, rfl, -, -, -, spanned⟩ <;> rw [spanned]
  · exact ⟨token, List.mem_singleton_self _, Nat.le_refl _⟩
  · exact ⟨closing, by simp, Nat.le_add_right _ _⟩

/-! ## Where children are written -/

/-- What is read as an operand, and what becomes of it: the value of a define gets a name. -/
def Becomes (operand child : Expr) : Prop :=
  child = operand ∨ ∃ name, child = operand.named name

theorem Written.occupies_of_becomes (written : Written run operand)
    (becomes : Becomes operand child) : Occupies run child := by
  rcases becomes with rfl | ⟨name, rfl⟩
  · exact .written written
  · cases operand with
    | lambda span self parameters body =>
        cases self with
        | none => exact .named written
        | some own => exact .written written
    | _ => exact .written written

/-- Where the children of a part are written: between its parentheses, one after the other. The
lambda of a function occupies the same tokens as its define. -/
inductive Spreads : List Token → Expr → Prop where
  | atom {token : Token} {node : Expr} (childless : node.children = []) : Spreads [token] node
  | form {opening closing : Token} {front inner : List Token} {operands : List Expr} {node : Expr}
      (spanned : node.span = ⟨opening.place, closing.place⟩) (written : WrittenAll inner operands)
      (becomes : List.Forall₂ Becomes operands node.children) :
      Spreads (opening :: (front ++ (inner ++ [closing]))) node
  | function {run : List Token} {span : Span} {name : Name} {parameters : List Name} {body : Expr}
      (written : Written run (.define span name (.lambda span (some name) parameters body))) :
      Spreads run (.define span name (.lambda span (some name) parameters body))

theorem forall₂_becomes (operands : List Expr) : List.Forall₂ Becomes operands operands :=
  List.forall₂_same.mpr fun _ _ => .inl rfl

theorem WrittenAll.single (written : Written run expr) : WrittenAll run [expr] := by
  have whole := WrittenAll.cons written .nil
  rwa [List.append_nil] at whole

theorem Written.spreads (written : Written run expr) : Spreads run expr := by
  cases written with
  | integer | bool | symbol => exact .atom rfl
  | @conditional opening keyword closing inner operands _ opens keyed written closes made =>
      obtain ⟨spanned, children⟩ := Reader.conditional?_eq_some made
      exact @Spreads.form opening closing [keyword] inner operands _ spanned written
        (children ▸ forall₂_becomes operands)
  | @define opening keyword symbol closing inner name value opens keyed named written closes =>
      exact @Spreads.form opening closing [keyword, symbol] inner [value] _ rfl (.single written)
        (.cons (.inr ⟨name, rfl⟩) .nil)
  | defineFunction opens keyed signed named ended written closes =>
      exact .function (.defineFunction opens keyed signed named ended written closes)
  | @lambda opening keyword signature ending closing symbols inner parameters body opens keyed
      signed named ended written closes =>
      have spreads := @Spreads.form opening closing (keyword :: signature :: (symbols ++ [ending]))
        inner [body] (.lambda ⟨opening.place, closing.place⟩ none parameters body) rfl
        (.single written) (forall₂_becomes _)
      simpa using spreads
  | @call opening closing first rest callee arguments opens plain head tail closes =>
      have spreads := @Spreads.form opening closing [] (first ++ rest) (callee :: arguments)
        (.call ⟨opening.place, closing.place⟩ callee arguments) rfl (.cons head tail)
        (forall₂_becomes _)
      simpa using spreads

/-- A define is written with a symbol and its value, or with a parameter list and the body of its
lambda. -/
theorem Written.define_cases {span : Span} {name : Name} {value : Expr}
    (written : Written run (.define span name value)) :
    (∃ opening keyword symbol inner closing given,
      run = opening :: keyword :: symbol :: (inner ++ [closing]) ∧
        opening.lexeme = .leftParen ∧ symbol.lexeme = .symbol name ∧ Written inner given ∧
        span = ⟨opening.place, closing.place⟩ ∧ value = given.named name) ∨
    ∃ opening front inner closing parameters body,
      run = opening :: (front ++ (inner ++ [closing])) ∧ Written inner body ∧
        span = ⟨opening.place, closing.place⟩ ∧
        value = .lambda span (some name) parameters body := by
  generalize made : Expr.define span name value = whole at written
  cases written with
  | integer | bool | symbol | lambda | call => cases made
  | conditional opens keyed written closes conditional =>
      subst made
      unfold Reader.conditional? at conditional
      split at conditional <;> cases conditional
  | define opens keyed named written closes =>
      cases made
      exact .inl ⟨_, _, _, _, _, _, rfl, opens, named, written, rfl, rfl⟩
  | @defineFunction opening keyword signature ending closing symbols inner _ _ _ opens keyed signed
      named ended written closes =>
      cases made
      exact .inr ⟨opening, keyword :: signature :: (symbols ++ [ending]), inner, closing, _, _,
        by simp, written, rfl, rfl⟩

/-- The lambda of a function holds its body between the parentheses of its define. -/
theorem spreads_function {span : Span} {name : Name} {parameters : List Name} {body : Expr}
    (written : Written run (.define span name (.lambda span (some name) parameters body)))
    (separate : Separate run) : Spreads run (.lambda span (some name) parameters body) := by
  rcases written.define_cases with
    ⟨opening, keyword, symbol, inner, closing, value, rfl, opens, -, valueWritten, rfl, valued⟩ |
    ⟨opening, front, inner, closing, _, _, rfl, bodyWritten, rfl, same⟩
  · -- The value has tokens of its own, so that it cannot have the span of the define.
    have same : value.span.start = opening.place := by
      rw [← Expr.span_named name value, ← valued]
      rfl
    obtain ⟨token, listed, place⟩ := (Occupies.written valueWritten).exists_start
    have behind := separate.lt_of_opening opens token (by simp [listed])
    rw [place, same] at behind
    exact absurd behind (Nat.lt_irrefl _)
  · cases same
    exact .form rfl (.single bodyWritten) (forall₂_becomes [body])

theorem Occupies.spreads (occupies : Occupies run node) (separate : Separate run) :
    Spreads run node := by
  cases occupies with
  | written written => exact written.spreads
  | function written => exact spreads_function written separate
  | named written =>
      cases written.spreads with
      | atom childless => cases childless
      | form spanned operands becomes => exact .form spanned operands becomes

/-! ## Children in their parent -/

/-- Each of some expressions that become children occupies tokens of its own. -/
theorem WrittenAll.exists_occupies {children : List Expr} (written : WrittenAll tokens operands)
    (becomes : List.Forall₂ Becomes operands children) :
    ∀ child ∈ children, ∃ run, run <:+: tokens ∧ Occupies run child := by
  induction becomes generalizing tokens with
  | nil => exact fun _ listed => absurd listed List.not_mem_nil
  | @cons operand child operands children becomes _ ih =>
      cases written with
      | @cons first rest _ _ head tail =>
          refine List.forall_mem_cons.mpr
            ⟨⟨first, (List.prefix_append _ _).isInfix, head.occupies_of_becomes becomes⟩,
              fun other listed => ?_⟩
          obtain ⟨run, inside, occupies⟩ := ih tail other listed
          exact ⟨run, inside.trans (List.suffix_append _ _).isInfix, occupies⟩

theorem WrittenAll.apart {children : List Expr} (written : WrittenAll tokens operands)
    (becomes : List.Forall₂ Becomes operands children) (separate : Separate tokens) :
    children.Pairwise Expr.Before := by
  induction becomes generalizing tokens with
  | nil => exact .nil
  | @cons operand child operands children becomes others ih =>
      cases written with
      | @cons first rest _ _ head tail =>
          obtain ⟨-, behind, apart⟩ := List.pairwise_append.mp separate
          refine List.pairwise_cons.mpr ⟨fun other listed => ?_, ih tail behind⟩
          obtain ⟨last, lastInside, stop⟩ := (head.occupies_of_becomes becomes).exists_stop
          obtain ⟨run, inside, occupies⟩ := tail.exists_occupies others other listed
          obtain ⟨token, listed, start⟩ := occupies.exists_start
          have before := apart last lastInside token (inside.subset listed)
          rw [start] at before
          exact Nat.le_trans stop before

theorem Spreads.exists_occupies (spreads : Spreads run node) :
    ∀ child ∈ node.children, ∃ inner, inner <:+: run ∧ Occupies inner child := by
  intro child listed
  cases spreads with
  | atom childless => rw [childless] at listed; exact absurd listed List.not_mem_nil
  | @form opening closing front inner operands _ spanned written becomes =>
      obtain ⟨tokens, inside, occupies⟩ := written.exists_occupies becomes child listed
      refine ⟨tokens, inside.trans ⟨opening :: front, [closing], ?_⟩, occupies⟩
      simp
  | function written =>
      rw [List.mem_singleton.mp listed]
      exact ⟨run, List.infix_refl _, .function written⟩

theorem Spreads.apart (spreads : Spreads run node) (separate : Separate run) :
    node.children.Pairwise Expr.Before := by
  cases spreads with
  | atom childless => rw [childless]; exact .nil
  | form spanned written becomes =>
      have behind := (List.pairwise_cons.mp separate).2
      exact written.apart becomes
        (List.pairwise_append.mp (List.pairwise_append.mp behind).2.1).1
  | function written => exact List.pairwise_singleton _ _

theorem Spreads.inside (spreads : Spreads run node) (separate : Separate run) :
    ∀ child ∈ node.children, node.span.start.offset ≤ child.span.start.offset ∧
      child.span.stop.offset ≤ node.span.stop.offset := by
  intro child listed
  cases spreads with
  | atom childless => rw [childless] at listed; exact absurd listed List.not_mem_nil
  | @form opening closing front inner operands _ spanned written becomes =>
      obtain ⟨tokens, inside, occupies⟩ := written.exists_occupies becomes child listed
      obtain ⟨first, firstInside, start⟩ := occupies.exists_start
      obtain ⟨last, lastInside, stop⟩ := occupies.exists_stop
      obtain ⟨afterOpening, behind⟩ := List.pairwise_cons.mp separate
      have beforeClosing := (List.pairwise_append.mp (List.pairwise_append.mp behind).2.1).2.2
        last (inside.subset lastInside) closing (List.mem_singleton_self _)
      have later := afterOpening first (by simp [inside.subset firstInside])
      rw [spanned, ← start]
      exact ⟨Nat.le_trans (Nat.le_add_right _ _) later, Nat.le_trans stop beforeClosing⟩
  | function written =>
      rw [List.mem_singleton.mp listed]
      exact ⟨Nat.le_refl _, Nat.le_refl _⟩

/-- Every part of a part occupies some of its tokens. -/
theorem Expr.Within.exists_occupies (within : Within node expr) (occupies : Occupies run expr)
    (separate : Separate run) : ∃ inner, inner <:+: run ∧ Occupies inner node := by
  induction within generalizing run with
  | refl => exact ⟨run, List.infix_refl _, occupies⟩
  | inside listed _ ih =>
      obtain ⟨tokens, inside, child⟩ := (occupies.spreads separate).exists_occupies _ listed
      obtain ⟨inner, further, found⟩ := ih child (separate.sublist inside.sublist)
      exact ⟨inner, further.trans inside, found⟩

/-! ## Programs -/

/-- A parameter list behind the keyword makes a define that of a function. -/
theorem Written.shared {span : Span} {name : Name} {value : Expr}
    {opening keyword signature : Token} {rest : List Token}
    (written : Written (opening :: keyword :: signature :: rest) (.define span name value))
    (signed : signature.lexeme = .leftParen) :
    ∃ parameters body, value = .lambda span (some name) parameters body := by
  rcases written.define_cases with ⟨_, _, _, _, _, _, tokens, -, named, -⟩ |
    ⟨_, _, _, _, parameters, body, -, -, -, valued⟩
  · cases tokens
    rw [named] at signed
    cases signed
  · exact ⟨parameters, body, valued⟩

theorem Occupies.matching {text : Bytes} (occupies : Occupies run node)
    (listed : run <:+: (Lexed.ofBytes text).tokens) (form : node.IsForm) :
    Matching text node.span.start.offset node.span.stop.offset := by
  obtain ⟨expr, written, spanned, isForm⟩ := occupies.exists_written
  rw [spanned]
  rcases written.span_cases with ⟨token, -, -, atom⟩ |
    ⟨opening, between, closing, rfl, opens, closes, balanced, spanned⟩
  · exact absurd (isForm form) atom
  · have paren : ∀ token ∈ opening :: (between ++ [closing]), ∀ byte,
        Lexed.spellings token.lexeme = [[byte]] → text[token.place.offset]? = some byte :=
      fun token inside _ => Lexed.getElem?_of_spellings (listed.subset inside)
    rw [spanned]
    refine ⟨paren opening (by simp) _ (by rw [opens]; rfl),
      paren closing (by simp) _ (by rw [closes]; rfl), ?_⟩
    obtain ⟨front, back, parted⟩ := listed
    exact ⟨front, opening, between, closing, back, by rw [← parted, List.append_assoc], opens,
      closes, balanced, rfl, rfl⟩

theorem Occupies.nests {text : Bytes} (occupies : Occupies run node)
    (listed : run <:+: (Lexed.ofBytes text).tokens)
    (separate : Separate (Lexed.ofBytes text).tokens) : Nests text run node := by
  have apart : Separate run := separate.sublist listed.sublist
  have spreads := occupies.spreads apart
  refine ⟨listed, occupies, occupies.starts, occupies.matching listed, spreads.inside apart,
    spreads.apart apart, ?_⟩
  rintro span name value opening keyword signature rest rfl rfl signed
  cases occupies with
  | written written => exact written.shared signed

namespace Reader

/-- In a program that has been read the top-level expressions lie one after the other, and the
spans of all parts nest: each starts at the first of the tokens in which it is written, a form runs
from a parenthesis to the matching one, and the children of a part lie inside it, one after the
other. Only the lambda of a function has the span of its define. -/
theorem parse_nests {text : Bytes} {exprs : List Expr} (parsed : parse text = .ok exprs) :
    exprs.Pairwise Expr.Before ∧
      ∀ expr ∈ exprs, ∀ node, Expr.Within node expr → ∃ run, Nests text run node := by
  have written := parse_eq_ok_iff.mp parsed
  have separate := Lexed.separate parsed
  refine ⟨written.apart (forall₂_becomes exprs) separate, fun expr listed node within => ?_⟩
  obtain ⟨tokens, inside, whole⟩ := written.exists_occupies (forall₂_becomes exprs) expr listed
  obtain ⟨run, further, found⟩ := within.exists_occupies whole (separate.sublist inside.sublist)
  exact ⟨run, found.nests (further.trans inside) separate⟩

/-- A function whose parameter takes two bytes and whose body starts behind a parenthesis in a
comment and tests a literal that is shorter than its spelling. -/
def commentedText : Bytes :=
  utf8 "(define (f " ++ [0xCE, 0xBB] ++ utf8 ") ; (\n(if #true (" ++ [0xCE, 0xBB] ++
    utf8 " -1) f)) 7"

/-- The call in the body. -/
def commentedCall : Expr :=
  .call ⟨⟨29, 2, 11⟩, ⟨35, 2, 16⟩⟩ (.var ⟨⟨30, 2, 12⟩, ⟨32, 2, 14⟩⟩ [0xCE, 0xBB])
    [.int ⟨⟨33, 2, 14⟩, ⟨35, 2, 16⟩⟩ (-1)]

def commentedProgram : List Expr :=
  [.define ⟨⟨0, 1, 1⟩, ⟨39, 2, 20⟩⟩ (utf8 "f")
    (.lambda ⟨⟨0, 1, 1⟩, ⟨39, 2, 20⟩⟩ (some (utf8 "f")) [[0xCE, 0xBB]]
      (.ifElse ⟨⟨19, 2, 1⟩, ⟨38, 2, 19⟩⟩ (.bool ⟨⟨23, 2, 5⟩, ⟨25, 2, 7⟩⟩ true) commentedCall
        (.var ⟨⟨37, 2, 18⟩, ⟨38, 2, 19⟩⟩ (utf8 "f")))),
    .int ⟨⟨41, 2, 22⟩, ⟨42, 2, 23⟩⟩ 7]

theorem parse_nests_commented :
    parse commentedText = .ok commentedProgram ∧ commentedProgram.Pairwise Expr.Before ∧
      (∀ expr ∈ commentedProgram, ∀ node, Expr.Within node expr →
        ∃ run, Nests commentedText run node) ∧
      Matching commentedText 29 35 := by
  have parsed : parse commentedText = .ok commentedProgram := by cbv
  obtain ⟨apart, nests⟩ := parse_nests parsed
  obtain ⟨_, call⟩ := nests _ List.mem_cons_self commentedCall
    (.inside (List.mem_singleton_self _) (.inside (List.mem_singleton_self _)
      (.inside (.tail _ List.mem_cons_self) .refl)))
  exact ⟨parsed, apart, nests, call.encloses True.intro⟩

end Reader

end ClosureLisp
