import ClosureLisp.CommandLine.Sources
import ClosureLisp.Host.FileTree
import ClosureLisp.Proofs.Derivations
import ClosureLisp.Proofs.Parentheses

/-!
# Sources put together

A command works on the text of all its sources, each with a line feed behind it. A line feed is no
part of a character of more bytes, of a word or of a comment, so whatever a source ends in, the
next one is cut into tokens as it is by itself, only further on (`Lexed.tokens_ofBytes_append`). A
text that can be read by itself is therefore read to the same expressions there, and sources put
together are read to all their expressions, moved by the bytes and lines before them
(`Command.parse_concatenate`).
-/

namespace ClosureLisp

/-! ## Moving places -/

/-- A place of a text as one of the text that has whole lines in front of it. -/
def Position.shift (front : Bytes) (place : Position) : Position :=
  ⟨front.length + place.offset, front.count 10 + place.line, place.column⟩

namespace Span

def shift (front : Bytes) (span : Span) : Span :=
  ⟨span.start.shift front, span.stop.shift front⟩

end Span

def Token.shift (front : Bytes) (token : Token) : Token :=
  { token with place := token.place.shift front }

namespace Expr

mutual

/-- An expression with all its places moved. -/
def shift (front : Bytes) : Expr → Expr
  | .int span value => .int (span.shift front) value
  | .bool span value => .bool (span.shift front) value
  | .var span name => .var (span.shift front) name
  | .ifThen span test consequent =>
      .ifThen (span.shift front) (shift front test) (shift front consequent)
  | .ifElse span test consequent alternative =>
      .ifElse (span.shift front) (shift front test) (shift front consequent)
        (shift front alternative)
  | .define span name value => .define (span.shift front) name (shift front value)
  | .lambda span self parameters body =>
      .lambda (span.shift front) self parameters (shift front body)
  | .call span callee arguments =>
      .call (span.shift front) (shift front callee) (shiftAll front arguments)

/-- Expressions in a row with all their places moved. -/
def shiftAll (front : Bytes) : List Expr → List Expr
  | [] => []
  | expr :: rest => shift front expr :: shiftAll front rest

end

end Expr

namespace Position

variable (front : Bytes) (place : Position)

theorem after_shift (glyph : Glyph) : (place.shift front).after glyph =
    (place.after glyph).shift front := by
  unfold after
  split <;> simp [shift, Nat.add_assoc]

theorem afterAll_shift (glyphs : List Glyph) : (place.shift front).afterAll glyphs =
    (place.afterAll glyphs).shift front := by
  induction glyphs generalizing place with
  | nil => rfl
  | cons glyph rest ih =>
      rw [afterAll, afterAll, List.foldl_cons, List.foldl_cons, after_shift]
      exact ih _

end Position

/-! ## Line feeds between texts -/

namespace Glyph

/-- A line feed. -/
def feed : Glyph :=
  ⟨10, [10]⟩

/-- A line feed continues no character. -/
theorem first_append_feed (lead : UInt8) (rest more : Bytes) :
    first lead (rest ++ 10 :: more) =
      ((first lead rest).1, (first lead rest).2 ++ 10 :: more) := by
  have noPair : isPair lead 10 = false := by simp [isPair, isTail]
  have noTriple (second : UInt8) : isTriple lead second 10 = false := by simp [isTriple, isTail]
  have noQuadruple (second third : UInt8) : isQuadruple lead second third 10 = false := by
    simp [isQuadruple, isTail]
  have noTripleAt (third : UInt8) : isTriple lead 10 third = false := by simp [isTriple, isTail]
  have noQuadrupleAt (third fourth : UInt8) : isQuadruple lead 10 third fourth = false := by
    simp [isQuadruple, isTail]
  have noQuadrupleIn (second fourth : UInt8) : isQuadruple lead second 10 fourth = false := by
    simp [isQuadruple, isTail]
  unfold first
  split
  · rfl
  · rcases rest with _ | ⟨second, _ | ⟨third, _ | ⟨fourth, rest⟩⟩⟩
    · cases more with
      | nil => simp [noPair]
      | cons third more => cases more <;> simp [noPair, noTripleAt, noQuadrupleAt]
    · cases more <;> by_cases pair : isPair lead second = true <;>
        simp [pair, noTriple, noQuadrupleIn]
    · by_cases pair : isPair lead second = true <;>
        by_cases triple : isTriple lead second third = true <;> simp [pair, triple, noQuadruple]
    · by_cases pair : isPair lead second = true <;>
        by_cases triple : isTriple lead second third = true <;>
        by_cases quadruple : isQuadruple lead second third fourth = true <;>
        simp [pair, triple, quadruple]

/-- Texts with a line feed between them are decoded each by itself. -/
theorem ofBytes_append_feed (text more : Bytes) :
    ofBytes (text ++ 10 :: more) = ofBytes text ++ feed :: ofBytes more := by
  fun_induction ofBytes text with
  | case1 =>
      have alone : first 10 more = (feed, more) := if_pos (by decide)
      rw [List.nil_append, List.nil_append, ofBytes, alone]
  | case2 lead rest ih =>
      rw [List.cons_append, ofBytes, first_append_feed, List.cons_append, ih]

/-- Line feeds are counted alike among bytes and among glyphs. -/
theorem count_toBytes {glyphs : List Glyph} (each : ∀ glyph ∈ glyphs, glyph.IsApart) :
    (toBytes glyphs).count 10 = glyphs.countP fun glyph => glyph.code = 10 := by
  induction glyphs with
  | nil => rfl
  | cons glyph rest ih =>
      obtain ⟨first, others⟩ := List.forall_mem_cons.mp each
      have head : glyph.bytes.count 10 = if glyph.code = 10 then 1 else 0 := by
        rcases first with ⟨small, bytes⟩ | ⟨large, high⟩
        · have code := @toNat_toUInt8 glyph.code (by omega)
          rw [bytes, List.count_singleton]
          simp only [beq_iff_eq, ← UInt8.toNat_inj, code]
          rfl
        · rw [if_neg (by omega)]
          exact List.count_eq_zero_of_not_mem fun listed => absurd (high 10 listed) (by decide)
      rw [toBytes, List.flatMap_cons, List.count_append, head, List.countP_cons,
        ← toBytes, ih others, Nat.add_comm]
      simp

end Glyph

namespace Position

/-- Behind whole lines a text starts like any other. -/
theorem behind_feed {text : Bytes} {glyphs : List Glyph} (decodes : Glyph.Decodes text glyphs)
    (whole : Glyph.toBytes glyphs = text) :
    behind (glyphs ++ [Glyph.feed]) = origin.shift (text ++ [10]) := by
  have lines := Glyph.count_toBytes decodes.isApart
  rw [whole] at lines
  have last : Glyph.toBytes [Glyph.feed] = [10] := rfl
  have code : Glyph.feed.code = 10 := rfl
  simp [behind, shift, origin, Glyph.toBytes_append, whole, last, code, lines, Nat.add_comm]

end Position

namespace Lexed

/-- Glyphs that start further on make the same tokens further on. -/
theorem tokens_ofGlyphs_shift (front : Bytes) (place : Position) (glyphs : List Glyph) :
    (ofGlyphs (place.shift front) glyphs).tokens =
      (ofGlyphs place glyphs).tokens.map (Token.shift front) := by
  fun_induction ofGlyphs place glyphs with
  | case1 place => rw [ofGlyphs]; rfl
  | case2 place glyph rest semicolon ih =>
      rw [ofGlyphs, if_pos semicolon, Position.after_shift, Position.afterAll_shift, ih]
  | case3 place glyph rest noSemicolon blank ih =>
      rw [ofGlyphs, if_neg noSemicolon, if_pos blank, Position.after_shift, ih]
  | case4 place glyph rest noSemicolon noBlank code ih =>
      rw [ofGlyphs, if_neg noSemicolon, if_neg noBlank, if_pos code, Position.after_shift, cons, ih]
      rfl
  | case5 place glyph rest noSemicolon noBlank noOpening code ih =>
      rw [ofGlyphs, if_neg noSemicolon, if_neg noBlank, if_neg noOpening, if_pos code,
        Position.after_shift, cons, ih]
      rfl
  | case6 place glyph rest noSemicolon noBlank noOpening noClosing word ih =>
      rw [ofGlyphs, if_neg noSemicolon, if_neg noBlank, if_neg noOpening, if_neg noClosing]
      simp only [Position.afterAll_shift]
      rw [cons, ih]
      rfl

/-- A run of glyphs goes on no further than to a glyph that does not belong to it. -/
theorem span_append_of_not {keep : Glyph → Bool} {stop : Glyph} (ended : keep stop = false)
    (glyphs rest : List Glyph) :
    (glyphs ++ stop :: rest).takeWhile keep = glyphs.takeWhile keep ∧
      (glyphs ++ stop :: rest).dropWhile keep = glyphs.dropWhile keep ++ stop :: rest := by
  have parted := @span_append keep (glyphs.takeWhile keep)
    (glyphs.dropWhile keep ++ stop :: rest) (List.all_eq_true.mp List.all_takeWhile)
    (by
      intro glyph starts
      cases left : glyphs.dropWhile keep with
      | nil =>
          rw [left] at starts
          cases starts
          exact ended
      | cons other others =>
          rw [left] at starts
          exact @not_of_mem_head?_dropWhile keep glyphs glyph (by rwa [left]))
  rwa [← List.append_assoc, List.takeWhile_append_dropWhile] at parted

/-- A line feed separates tokens. -/
theorem tokens_ofGlyphs_append (place : Position) (glyphs rest : List Glyph) :
    (ofGlyphs place (glyphs ++ Glyph.feed :: rest)).tokens =
      (ofGlyphs place glyphs).tokens ++
        (ofGlyphs (place.afterAll (glyphs ++ [Glyph.feed])) rest).tokens := by
  fun_induction ofGlyphs place glyphs with
  | case1 place =>
      rw [List.nil_append, ofGlyphs, if_neg (by decide), if_pos (by decide)]
      rfl
  | case2 place glyph others semicolon ih =>
      obtain ⟨taken, left⟩ := @span_append_of_not inComment Glyph.feed rfl others rest
      rw [List.cons_append, ofGlyphs, if_pos semicolon, taken, left, ih]
      simp only [Position.afterAll, List.cons_append, List.foldl_cons, ← List.foldl_append,
        ← List.append_assoc, List.takeWhile_append_dropWhile]
  | case3 place glyph others noSemicolon blank ih =>
      rw [List.cons_append, ofGlyphs, if_neg noSemicolon, if_pos blank, ih]
      rfl
  | case4 place glyph others noSemicolon noBlank code ih =>
      rw [List.cons_append, ofGlyphs, if_neg noSemicolon, if_neg noBlank, if_pos code, cons, ih]
      rfl
  | case5 place glyph others noSemicolon noBlank noOpening code ih =>
      rw [List.cons_append, ofGlyphs, if_neg noSemicolon, if_neg noBlank, if_neg noOpening,
        if_pos code, cons, ih]
      rfl
  | case6 place glyph others noSemicolon noBlank noOpening noClosing word ih =>
      obtain ⟨taken, left⟩ := @span_append_of_not inWord Glyph.feed rfl others rest
      have whole : word ++ others.dropWhile inWord = glyph :: others := by
        rw [List.cons_append, List.takeWhile_append_dropWhile]
      rw [List.cons_append, ofGlyphs, if_neg noSemicolon, if_neg noBlank, if_neg noOpening,
        if_neg noClosing, taken, left, cons, ih, ← List.cons_append, ← whole]
      simp only [Position.afterAll, ← List.foldl_append, ← List.append_assoc]
      rfl

/-- Texts with a line feed between them are cut into tokens each by itself. -/
theorem tokens_ofBytes_append (text more : Bytes) :
    (ofBytes (text ++ 10 :: more)).tokens =
      (ofBytes text).tokens ++ (ofBytes more).tokens.map (Token.shift (text ++ [10])) := by
  rw [ofBytes, Glyph.ofBytes_append_feed, tokens_ofGlyphs_append, ofBytes, ofBytes,
    ← tokens_ofGlyphs_shift, ← Position.behind_feed (Glyph.decodes_ofBytes text)
      (Glyph.toBytes_ofBytes text), ← List.nil_append (Glyph.ofBytes text ++ [Glyph.feed]),
    ← Position.behind_afterAll]
  rfl

end Lexed

/-! ## Moving what is written -/

section Written

variable (front : Bytes)

theorem Token.span_shift (token : Token) :
    (token.shift front).span = token.span.shift front := by
  simp [span, shift, Span.shift, Position.shift, Nat.add_assoc]

theorem Expr.named_shift (name : Name) (expr : Expr) :
    (expr.named name).shift front = (expr.shift front).named name := by
  cases expr with
  | lambda span self parameters body => cases self <;> rfl
  | _ => rfl

theorem Reader.conditional?_shift {span : Span} {operands : List Expr} {expr : Expr}
    (made : conditional? span operands = some expr) :
    conditional? (span.shift front) (Expr.shiftAll front operands) = some (expr.shift front) := by
  unfold conditional? at made
  split at made <;> cases made <;> rfl

theorem map_lexeme_shift (tokens : List Token) :
    (tokens.map (Token.shift front)).map Token.lexeme = tokens.map Token.lexeme := by
  rw [List.map_map]
  rfl

mutual

/-- Tokens further on are an expression further on. -/
theorem Written.shift {tokens : List Token} {expr : Expr} :
    Written tokens expr → Written (tokens.map (Token.shift front)) (expr.shift front)
  | .integer integer denoted => by
      rw [Expr.shift, ← Token.span_shift]
      exact .integer integer denoted
  | .bool bool => by
      rw [Expr.shift, ← Token.span_shift]
      exact .bool bool
  | .symbol symbol => by
      rw [Expr.shift, ← Token.span_shift]
      exact .symbol symbol
  | .conditional opens keyed written closes made => by
      rw [List.map_cons, List.map_cons, List.map_append]
      exact .conditional opens keyed written.shiftAll closes (Reader.conditional?_shift front made)
  | .define opens keyed named written closes => by
      rw [List.map_cons, List.map_cons, List.map_cons, List.map_append, Expr.shift,
        Expr.named_shift]
      exact .define opens keyed named written.shift closes
  | .defineFunction opens keyed signed named ended written closes => by
      rw [List.map_cons, List.map_cons, List.map_cons, List.map_append, List.map_cons,
        List.map_append]
      exact .defineFunction opens keyed signed ((map_lexeme_shift front _).trans named) ended
        written.shift closes
  | .lambda opens keyed signed named ended written closes => by
      rw [List.map_cons, List.map_cons, List.map_cons, List.map_append, List.map_cons,
        List.map_append]
      exact .lambda opens keyed signed ((map_lexeme_shift front _).trans named) ended
        written.shift closes
  | .call opens plain head tail closes => by
      rw [List.map_cons, List.map_append, List.map_append]
      refine .call opens (fun token starts => ?_) head.shift tail.shiftAll closes
      rw [List.head?_map] at starts
      obtain ⟨first, started, rfl⟩ := Option.mem_map.mp starts
      exact plain first started

theorem WrittenAll.shiftAll {tokens : List Token} {exprs : List Expr} :
    WrittenAll tokens exprs →
      WrittenAll (tokens.map (Token.shift front)) (Expr.shiftAll front exprs)
  | .nil => .nil
  | .cons head tail => by
      rw [List.map_append]
      exact .cons head.shift tail.shiftAll

end

end Written

theorem Token.shift_shift (front text : Bytes) (token : Token) :
    (token.shift text).shift front = token.shift (front ++ text) := by
  simp [shift, Position.shift, Nat.add_assoc]

theorem Token.shift_nil (token : Token) : token.shift [] = token := by
  simp [shift, Position.shift]

namespace Command

/-! ## All sources of a command -/

/-- The expressions of sources behind a front: each source's own, moved by the front and by the
sources before it with a line feed behind each. -/
def stacked (front : Bytes) : List (Bytes × List Expr) → List Expr
  | [] => []
  | (content, exprs) :: rest =>
      Expr.shiftAll front exprs ++ stacked (front ++ (content ++ utf8 "\n")) rest

theorem written_concatenate (front : Bytes) {sources : List (Bytes × List Expr)}
    (parsed : ∀ source ∈ sources, Reader.parse source.1 = .ok source.2) :
    WrittenAll
      ((Lexed.ofBytes (concatenate (sources.map Prod.fst))).tokens.map (Token.shift front))
      (stacked front sources) := by
  induction sources generalizing front with
  | nil =>
      have none : (Lexed.ofBytes []).tokens = [] := by
        rw [Lexed.ofBytes, Glyph.ofBytes, Lexed.ofGlyphs]
      rw [List.map_nil, concatenate, List.flatMap_nil, none]
      exact .nil
  | cons source rest ih =>
      obtain ⟨content, exprs⟩ := source
      obtain ⟨head, others⟩ := List.forall_mem_cons.mp parsed
      have feed : utf8 "\n" = [10] := rfl
      have parted : concatenate (((content, exprs) :: rest).map Prod.fst) =
          content ++ 10 :: concatenate (rest.map Prod.fst) := by
        simp [concatenate, feed]
      have whole := ih (front ++ (content ++ utf8 "\n")) others
      rw [parted, Lexed.tokens_ofBytes_append, List.map_append, List.map_map]
      rw [← funext (Token.shift_shift front _), feed] at whole
      exact ((Reader.parse_eq_ok_iff.mp head).shiftAll front).append whole

theorem run_bind_of {α β : Type} {tree after : FileTree} {value : α}
    {action : StateM FileTree α} (ran : action.run tree = (value, after))
    (further : α → StateM FileTree β) :
    (action >>= further).run tree = (further value).run after := by
  change (fun reply => (further reply.1).run reply.2) (action.run tree) = _
  rw [ran]

theorem readAll_of_read {here : List Name} {tree : FileTree} {paths : List Path}
    {sources : List (Bytes × List Expr)}
    (read : List.Forall₂ (fun path source => tree.read here path = .ok source.1) paths sources) :
    (readAll (FileTree.files here) paths).run tree = (.ok (sources.map Prod.fst), tree) := by
  induction read with
  | nil => rfl
  | @cons path source paths sources head _ ih =>
      have first : ((FileTree.files here).read path).run tree = (.ok source.1, tree) :=
        congrArg (·, tree) head
      rw [readAll, run_bind_of first]
      exact run_bind_of ih _

/-- Sources that can each be read by themselves are read together to the expressions of all of
them, each moved by the bytes and lines before its source; and that is what a command reads of the
files that hold them. -/
theorem parse_concatenate {sources : List (Bytes × List Expr)}
    (parsed : ∀ source ∈ sources, Reader.parse source.1 = .ok source.2) :
    Reader.parse (concatenate (sources.map Prod.fst)) = .ok (stacked [] sources) ∧
      ∀ (here : List Name) (settings : Settings) (given paths : List Path)
        (tree after : FileTree),
        (sourceFiles (FileTree.files here) settings given).run tree = (.ok paths, after) →
        List.Forall₂ (fun path source => after.read here path = .ok source.1) paths sources →
        (readSources (FileTree.files here) settings given).run tree =
          (.ok (paths, concatenate (sources.map Prod.fst)), after) := by
  constructor
  · have written := written_concatenate [] parsed
    rw [funext Token.shift_nil, List.map_id'] at written
    exact Reader.parse_eq_ok_iff.mpr written
  · intro here settings given paths tree after found read
    rw [readSources, run_bind_of found]
    exact run_bind_of (readAll_of_read read) _

/-- A source that ends in a comment, one that breaks off inside a character, an empty one, and one
that starts with a line feed. -/
def brokenOff : List (Bytes × List Expr) :=
  [(utf8 "1 ; one", [.int ⟨⟨0, 1, 1⟩, ⟨1, 1, 2⟩⟩ 1]),
    ([120, 0xE2, 0x82], [.var ⟨⟨0, 1, 1⟩, ⟨3, 1, 4⟩⟩ [120, 0xE2, 0x82]]),
    ([], []),
    (utf8 "\n#t", [.bool ⟨⟨1, 2, 1⟩, ⟨3, 2, 3⟩⟩ true])]

def brokenOffTree : FileTree :=
  ⟨[([[97]], .file (utf8 "1 ; one")), ([[98]], .file [120, 0xE2, 0x82]), ([[99]], .file []),
    ([[100]], .file (utf8 "\n#t"))]⟩

theorem parse_concatenate_brokenOff :
    (∀ source ∈ brokenOff, Reader.parse source.1 = .ok source.2) ∧
      Reader.parse (utf8 "1 ; one\nx" ++ [0xE2, 0x82] ++ utf8 "\n\n\n#t\n") =
        .ok [.int ⟨⟨0, 1, 1⟩, ⟨1, 1, 2⟩⟩ 1, .var ⟨⟨8, 2, 1⟩, ⟨11, 2, 4⟩⟩ [120, 0xE2, 0x82],
          .bool ⟨⟨14, 5, 1⟩, ⟨16, 5, 3⟩⟩ true] ∧
      (readSources (FileTree.files []) (Settings.ofFlags none []) [[97], [98], [99], [100]]).run
          brokenOffTree =
        (.ok ([[97], [98], [99], [100]], utf8 "1 ; one\nx" ++ [0xE2, 0x82] ++ utf8 "\n\n\n#t\n"),
          brokenOffTree) := by
  have parsed : ∀ source ∈ brokenOff, Reader.parse source.1 = .ok source.2 := by
    simp only [brokenOff, List.forall_mem_cons, List.not_mem_nil, false_implies, implies_true,
      and_true]
    refine ⟨?_, ?_, ?_, ?_⟩ <;> cbv
  obtain ⟨read, built⟩ := parse_concatenate parsed
  refine ⟨parsed, read, built [] (Settings.ofFlags none []) _ _ brokenOffTree brokenOffTree rfl ?_⟩
  exact .cons rfl (.cons rfl (.cons rfl (.cons rfl .nil)))

end Command

end ClosureLisp
