import ClosureLisp.CommandLine.Repl
import ClosureLisp.Proofs.Lexing
import ClosureLisp.Proofs.Parsing

/-!
# Open parentheses

An interactive session tells by its count of parentheses whether a text is complete. The count goes
over the bytes and knows nothing of tokens, but it is that of the tokens
(`Lexed.parenDepth_eq_netOf`): outside of comments a byte of a parenthesis always is one.

The reader closes what it opens. `Reading.Balances` is the contract that every reading function
keeps, with the number of parentheses that it closes beyond those that it opens itself, and with
what is known if it fails where the text ends. So a text that is read has no open parentheses, and
one that breaks off has some.
-/

namespace ClosureLisp

/-! ## Counting tokens -/

/-- What a lexeme adds to the number of open parentheses. -/
def Lexeme.delta : Lexeme → Int
  | .leftParen => 1
  | .rightParen => -1
  | _ => 0

/-- What tokens add to the number of open parentheses. -/
def netOf (tokens : List Token) : Int :=
  (tokens.map fun token => token.lexeme.delta).sum

theorem netOf_cons (token : Token) (rest : List Token) :
    netOf (token :: rest) = token.lexeme.delta + netOf rest := by
  rw [netOf, List.map_cons, List.sum_cons, netOf]

theorem netOf_of_opening {token : Token} (opening : token.lexeme = .leftParen)
    (rest : List Token) : netOf (token :: rest) = 1 + netOf rest := by
  rw [netOf_cons, opening, Lexeme.delta]

theorem netOf_of_closing {token : Token} (closing : token.lexeme = .rightParen)
    (rest : List Token) : netOf (token :: rest) = -1 + netOf rest := by
  rw [netOf_cons, closing, Lexeme.delta]

theorem netOf_of_symbol {token : Token} {name : Name} (symbol : token.lexeme = .symbol name)
    (rest : List Token) : netOf (token :: rest) = netOf rest := by
  rw [netOf_cons, symbol]
  exact Int.zero_add _

/-- The opening parentheses less the closing ones. -/
theorem netOf_eq_count (tokens : List Token) :
    netOf tokens = (tokens.map Token.lexeme).count .leftParen -
      (tokens.map Token.lexeme).count .rightParen := by
  induction tokens with
  | nil => rfl
  | cons token rest ih =>
      rw [netOf_cons, List.map_cons, List.count_cons, List.count_cons, ih]
      cases token.lexeme <;> simp [Lexeme.delta] <;> omega

/-! ## Counting bytes -/

namespace Glyph

/-- A glyph is one ASCII byte, or it has none and its code point is beyond those too. -/
def IsApart (glyph : Glyph) : Prop :=
  (glyph.code < 0x80 ∧ glyph.bytes = [glyph.code.toUInt8]) ∨
    (0x80 ≤ glyph.code ∧ ∀ byte ∈ glyph.bytes, 0x80 ≤ byte.toNat)

theorem isApart_of_isValidChar {code : Nat} (valid : code.isValidChar) :
    IsApart ⟨code, encode code⟩ := by
  unfold Nat.isValidChar at valid
  by_cases small : code < 0x80
  · exact .inl ⟨small, if_pos small⟩
  · refine .inr ⟨Nat.le_of_not_lt small, ?_⟩
    have high : ∀ number : Nat, 0x80 ≤ number → number < 256 → 0x80 ≤ number.toUInt8.toNat := by
      intro number least fits
      rwa [toNat_toUInt8 fits]
    dsimp only
    unfold encode
    rw [if_neg small]
    split
    · simp only [List.forall_mem_cons, List.not_mem_nil, false_implies, implies_true, and_true]
      exact ⟨high _ (by omega) (by omega), high _ (by omega) (by omega)⟩
    · split
      · simp only [List.forall_mem_cons, List.not_mem_nil, false_implies, implies_true, and_true]
        exact ⟨high _ (by omega) (by omega), high _ (by omega) (by omega),
          high _ (by omega) (by omega)⟩
      · simp only [List.forall_mem_cons, List.not_mem_nil, false_implies, implies_true, and_true]
        exact ⟨high _ (by omega) (by omega), high _ (by omega) (by omega),
          high _ (by omega) (by omega), high _ (by omega) (by omega)⟩

theorem Decodes.isApart {text : Bytes} {glyphs : List Glyph} (decodes : Decodes text glyphs) :
    ∀ glyph ∈ glyphs, glyph.IsApart := by
  induction decodes with
  | nil => exact fun _ listed => absurd listed List.not_mem_nil
  | character valid _ ih => exact List.forall_mem_cons.mpr ⟨isApart_of_isValidChar valid, ih⟩
  | @stray byte rest glyphs invalid _ ih =>
      have wide : 0x80 ≤ replacement := by decide
      refine List.forall_mem_cons.mpr ⟨.inr ⟨wide, ?_⟩, ih⟩
      refine List.forall_mem_singleton.mpr (Nat.le_of_not_lt fun small => ?_)
      -- an ASCII byte is a character
      refine invalid byte.toNat (.inl (by omega)) ⟨rest, ?_⟩
      rw [encode, if_pos small, toUInt8_eq byte rfl, List.singleton_append]

end Glyph

theorem ne_ascii {byte : UInt8} {char : Char} (high : 0x80 ≤ byte.toNat)
    (small : char.toNat < 0x80) : byte ≠ Bytes.ascii char := by
  rintro rfl
  rw [Bytes.ascii, Glyph.toNat_toUInt8 (by omega)] at high
  omega

/-- Bytes beyond ASCII are passed over. -/
theorem parenDepth_append {bytes : Bytes} (high : ∀ byte ∈ bytes, 0x80 ≤ byte.toNat)
    (inComment : Bool) (rest : Bytes) :
    parenDepth inComment (bytes ++ rest) = parenDepth inComment rest := by
  induction bytes with
  | nil => rfl
  | cons byte bytes ih =>
      obtain ⟨first, others⟩ := List.forall_mem_cons.mp high
      rw [List.cons_append]
      cases inComment with
      | true =>
          have noFeed : byte ≠ Bytes.ascii '\n' := ne_ascii first (by decide)
          rw [parenDepth, show (byte != 10) = true from bne_iff_ne.mpr noFeed]
          exact ih others
      | false =>
          rw [parenDepth, if_neg (ne_ascii first (by decide)), if_neg (ne_ascii first (by decide)),
            if_neg (ne_ascii first (by decide))]
          exact ih others

section Glyphs

variable {glyph : Glyph} (apart : glyph.IsApart) (rest : Bytes)

include apart

theorem parenDepth_glyph_comment :
    parenDepth true (glyph.bytes ++ rest) = parenDepth (Lexed.inComment glyph) rest := by
  rw [Lexed.inComment]
  rcases apart with ⟨small, bytes⟩ | ⟨least, high⟩
  · have feed : (glyph.code.toUInt8 != 10) = decide (glyph.code ≠ 10) := by
      rw [Bool.eq_iff_iff, bne_iff_ne, decide_eq_true_eq, Ne, Ne, ← UInt8.toNat_inj,
        Glyph.toNat_toUInt8 (by omega)]
      rfl
    rw [bytes, List.singleton_append, parenDepth, feed]
  · rw [parenDepth_append high, decide_eq_true (show glyph.code ≠ 10 by omega)]

theorem parenDepth_glyph :
    parenDepth false (glyph.bytes ++ rest) =
      if glyph.code = 0x3B then parenDepth true rest
      else if glyph.code = 0x28 then parenDepth false rest + 1
      else if glyph.code = 0x29 then parenDepth false rest - 1
      else parenDepth false rest := by
  rcases apart with ⟨small, bytes⟩ | ⟨least, high⟩
  · have same : ∀ letter : Nat, letter < 0x80 →
        (glyph.code.toUInt8 = letter.toUInt8 ↔ glyph.code = letter) := by
      intro letter fits
      rw [← UInt8.toNat_inj, Glyph.toNat_toUInt8 (by omega), Glyph.toNat_toUInt8 (by omega)]
    rw [bytes, List.singleton_append, parenDepth]
    simp only [← same 0x3B (by decide), ← same 0x28 (by decide), ← same 0x29 (by decide)]
    rfl
  · rw [parenDepth_append high, if_neg (by omega), if_neg (by omega), if_neg (by omega)]

end Glyphs

section Runs

variable {glyphs : List Glyph} (apart : ∀ glyph ∈ glyphs, glyph.IsApart)

include apart

/-- The count goes on behind a comment. -/
theorem parenDepth_comment :
    parenDepth true (Glyph.toBytes glyphs) =
      parenDepth false (Glyph.toBytes (glyphs.dropWhile Lexed.inComment)) := by
  induction glyphs with
  | nil => rfl
  | cons glyph rest ih =>
      obtain ⟨first, others⟩ := List.forall_mem_cons.mp apart
      rw [Glyph.toBytes, List.flatMap_cons, parenDepth_glyph_comment first, List.dropWhile_cons]
      cases inside : Lexed.inComment glyph with
      | true => exact ih others
      | false =>
          have feed : glyph.code = 10 := by simpa [Lexed.inComment] using inside
          rw [if_neg Bool.false_ne_true, Glyph.toBytes, List.flatMap_cons, parenDepth_glyph first,
            feed]
          rfl

/-- The glyphs of a word are passed over. -/
theorem parenDepth_word :
    parenDepth false (Glyph.toBytes glyphs) =
      parenDepth false (Glyph.toBytes (glyphs.dropWhile Lexed.inWord)) := by
  induction glyphs with
  | nil => rfl
  | cons glyph rest ih =>
      obtain ⟨first, others⟩ := List.forall_mem_cons.mp apart
      rw [List.dropWhile_cons]
      split
      · next inside =>
          simp only [Lexed.inWord, Lexed.isDelimiter, Bool.not_eq_true', Bool.or_eq_false_iff,
            decide_eq_false_iff_not] at inside
          obtain ⟨⟨⟨noOpening, noClosing⟩, noSemicolon⟩, -⟩ := inside
          rw [Glyph.toBytes, List.flatMap_cons, parenDepth_glyph first, if_neg noSemicolon,
            if_neg noOpening, if_neg noClosing]
          exact ih others
      · rfl

end Runs

namespace Lexed

theorem delta_classify (word : Bytes) : (classify word).delta = 0 := by
  unfold classify
  repeat' split
  all_goals rfl

/-- Along lexing, the tokens add what the bytes add. -/
theorem netOf_ofGlyphs (place : Position) {glyphs : List Glyph}
    (apart : ∀ glyph ∈ glyphs, glyph.IsApart) :
    netOf (ofGlyphs place glyphs).tokens = parenDepth false (Glyph.toBytes glyphs) := by
  fun_induction ofGlyphs place glyphs with
  | case1 place => rfl
  | case2 place glyph rest semicolon ih =>
      obtain ⟨first, others⟩ := List.forall_mem_cons.mp apart
      rw [ih fun other listed => others other ((List.dropWhile_suffix _).subset listed),
        Glyph.toBytes, Glyph.toBytes, List.flatMap_cons, parenDepth_glyph first, if_pos semicolon]
      exact (parenDepth_comment others).symm
  | case3 place glyph rest noSemicolon blank ih =>
      obtain ⟨first, others⟩ := List.forall_mem_cons.mp apart
      have noOpening : glyph.code ≠ 0x28 := by
        intro code
        rw [code] at blank
        exact absurd blank (by decide)
      have noClosing : glyph.code ≠ 0x29 := by
        intro code
        rw [code] at blank
        exact absurd blank (by decide)
      rw [ih others, Glyph.toBytes, Glyph.toBytes, List.flatMap_cons, parenDepth_glyph first,
        if_neg noSemicolon, if_neg noOpening, if_neg noClosing]
  | case4 place glyph rest noSemicolon noBlank code ih =>
      obtain ⟨first, others⟩ := List.forall_mem_cons.mp apart
      rw [cons, netOf_cons, ih others, Glyph.toBytes, Glyph.toBytes, List.flatMap_cons,
        parenDepth_glyph first, if_neg noSemicolon, if_pos code]
      exact Int.add_comm _ _
  | case5 place glyph rest noSemicolon noBlank noOpening code ih =>
      obtain ⟨first, others⟩ := List.forall_mem_cons.mp apart
      rw [cons, netOf_cons, ih others, Glyph.toBytes, Glyph.toBytes, List.flatMap_cons,
        parenDepth_glyph first, if_neg noSemicolon, if_neg noOpening, if_pos code]
      exact Int.add_comm _ _
  | case6 place glyph rest noSemicolon noBlank noOpening noClosing word =>
      rename_i ih
      obtain ⟨first, others⟩ := List.forall_mem_cons.mp apart
      rw [cons, netOf_cons, delta_classify, Int.zero_add,
        ih fun other listed => others other ((List.dropWhile_suffix _).subset listed),
        ← parenDepth_word others, Glyph.toBytes, Glyph.toBytes, List.flatMap_cons,
        parenDepth_glyph first, if_neg noSemicolon, if_neg noOpening, if_neg noClosing]

/-- The bytes of a text count as its tokens do. -/
theorem parenDepth_eq_netOf (text : Bytes) :
    parenDepth false text = netOf (ofBytes text).tokens := by
  rw [ofBytes, netOf_ofGlyphs _ (Glyph.decodes_ofBytes text).isApart, Glyph.toBytes_ofBytes]

end Lexed

/-! ## Reading -/

/-- None of the tokens stands at a place. -/
def NoneAt (stop : Position) (tokens : List Token) : Prop :=
  ∀ token ∈ tokens, token.place ≠ stop

theorem Lexed.noneAt_stop (text : Bytes) : NoneAt (ofBytes text).stop (ofBytes text).tokens := by
  have splits : Splits [] (Glyph.ofBytes text) (ofBytes text) := splits_ofGlyphs rfl _
  have increasing := (splits.increasing fun glyph listed =>
    ((Glyph.decodes_ofBytes text).isDecoded glyph listed).bytes_ne_nil).1
  intro token listed same
  have earlier := (List.pairwise_append.mp increasing).2.2 _
    (List.mem_map_of_mem listed) _ (List.mem_singleton_self _)
  rw [same] at earlier
  exact Nat.lt_irrefl _ earlier

namespace Reading

variable {α : Type} {bound : Nat} {stop : Position} {tokens : List Token} {level : Int}

/-- A reading passes tokens that add a number to the open parentheses. If it fails at the end of the
text, all tokens together close none that were open before. -/
def Balances (stop : Position) (tokens : List Token) (level : Int) : Reading α bound → Prop
  | .done _ rest _ => NoneAt stop rest ∧ netOf tokens = level + netOf rest
  | .failed error _ => error.place = stop → 0 ≤ netOf tokens

theorem Balances.congr {reading : Reading α bound} {others : List Token}
    (same : netOf tokens = netOf others) :
    reading.Balances stop tokens level ↔ reading.Balances stop others level := by
  cases reading <;> rw [Balances, Balances, same]

theorem Balances.cases {reading : Reading α bound} (balances : reading.Balances stop tokens level) :
    (∃ error left, reading = .failed error left ∧ (error.place = stop → 0 ≤ netOf tokens)) ∨
      ∃ value rest shorter, reading = .done value rest shorter ∧ NoneAt stop rest ∧
        netOf tokens = level + netOf rest := by
  cases reading with
  | failed error left => exact .inl ⟨error, left, rfl, balances⟩
  | done value rest shorter => exact .inr ⟨value, rest, shorter, rfl, balances⟩

end Reading

namespace Reader

theorem readNames_balances {stop : Position} (form : SpecialForm) {tokens : List Token}
    (before : NoneAt stop tokens) : (readNames stop form tokens).Balances stop tokens (-1) := by
  induction tokens with
  | nil => exact fun _ => Int.le_refl 0
  | cons token rest ih =>
      obtain ⟨first, others⟩ := List.forall_mem_cons.mp before
      rw [readNames]
      split
      · next close => exact ⟨others, netOf_of_closing close rest⟩
      · next name symbol =>
          have level := netOf_of_symbol symbol rest
          rcases (ih others).cases with ⟨error, left, read, opened⟩ |
            ⟨names, left, shorter, read, behind, net⟩ <;> rw [read]
          · exact fun place => level ▸ opened place
          · exact ⟨behind, level.trans net⟩
      · exact fun place => absurd place first

theorem readClose_balances {stop : Position} (form : SpecialForm) {tokens : List Token}
    (before : NoneAt stop tokens) : (readClose stop form tokens).Balances stop tokens (-1) := by
  cases tokens with
  | nil => exact fun _ => Int.le_refl 0
  | cons token rest =>
      obtain ⟨first, others⟩ := List.forall_mem_cons.mp before
      rw [readClose]
      split
      · next close => exact ⟨others, netOf_of_closing close rest⟩
      · exact fun place => absurd place first

/-- Reading an expression balances on all tokens of which there are fewer than a bound. -/
def BalancesBelow (stop : Position) (bound : Nat) : Prop :=
  ∀ tokens : List Token, tokens.length < bound → NoneAt stop tokens →
    (readExpr stop tokens).Balances stop tokens 0

section Balances

variable {stop : Position} (start : Position) {bound : Nat} {tokens : List Token}
  (below : BalancesBelow stop bound) (short : tokens.length < bound) (before : NoneAt stop tokens)

include below short before

theorem readOperands_balances : (readOperands stop tokens).Balances stop tokens (-1) := by
  induction tokens using WellFounded.induction (measure List.length).wf with
  | h tokens ih =>
      cases tokens with
      | nil =>
          rw [readOperands]
          exact fun _ => Int.le_refl 0
      | cons token rest =>
          rw [readOperands]
          split
          · next close =>
              exact ⟨(List.forall_mem_cons.mp before).2, netOf_of_closing close rest⟩
          · rcases (below _ short before).cases with ⟨error, left, read, none⟩ |
              ⟨expr, left, shorter, read, behind, net⟩ <;> rw [read]
            · exact none
            · rw [Int.zero_add] at net
              rw [Reading.Balances.congr net]
              rcases (ih left shorter (Nat.lt_trans shorter short) behind).cases with
                ⟨error, last, others, none⟩ | ⟨⟨exprs, close⟩, last, _, others, further⟩ <;>
                simp only [others]
              · exact none
              · exact further

/-- The value or body at the end of a form: an expression and a closing parenthesis. What the form
holds before it opens and closes equally many. -/
theorem readLast_balances (form : SpecialForm) {whole : List Token}
    (level : netOf whole = netOf tokens) :
    (∃ error left, readExpr stop tokens = .failed error left ∧
      (error.place = stop → 0 ≤ netOf whole)) ∨
      ∃ expr left shorter, readExpr stop tokens = .done expr left shorter ∧
        ((∃ error last, readClose stop form left = .failed error last ∧
            (error.place = stop → 0 ≤ netOf whole)) ∨
          ∃ close last shorter', readClose stop form left = .done close last shorter' ∧
            NoneAt stop last ∧ netOf whole = -1 + netOf last) := by
  rw [level]
  rcases (below _ short before).cases with ⟨error, left, read, none⟩ |
    ⟨expr, left, shorter, read, behind, net⟩
  · exact .inl ⟨error, left, read, none⟩
  · rw [net, Int.zero_add]
    exact .inr ⟨expr, left, shorter, read, (readClose_balances form behind).cases⟩

theorem readDefine_balances : (readDefine stop start tokens).Balances stop tokens (-1) := by
  cases tokens with
  | nil =>
      rw [readDefine]
      exact fun _ => Int.le_refl 0
  | cons head rest =>
      obtain ⟨first, others⟩ := List.forall_mem_cons.mp before
      have inside : rest.length < bound := Nat.lt_of_succ_lt short
      rw [readDefine]
      split
      · next signature =>
          have opened := netOf_of_opening signature rest
          rcases (readNames_balances .define others).cases with ⟨error, left, read, none⟩ |
            ⟨names, left, shorter, read, behind, net⟩ <;> rw [read]
          · exact fun place => opened ▸ Int.add_nonneg (by decide) (none place)
          · cases names with
            | nil => exact fun place => absurd place first
            | cons name parameters =>
                have level : netOf (head :: rest) = netOf left := by omega
                rcases readLast_balances below (Nat.lt_trans shorter inside) behind .define level
                  with ⟨error, last, body, none⟩ |
                    ⟨body, last, _, ended, ⟨error, final, closed, none⟩ |
                      ⟨close, final, _, closed, further⟩⟩
                · simp only [body]
                  exact none
                · simp only [ended, closed]
                  exact none
                · simp only [ended, closed]
                  exact further
      · next name symbol =>
          have level := netOf_of_symbol symbol rest
          rcases readLast_balances below inside others .define level with
            ⟨error, left, read, none⟩ | ⟨value, left, _, ended, ⟨error, last, closed, none⟩ |
              ⟨close, last, _, closed, further⟩⟩
          · simp only [read]
            exact none
          · simp only [ended, closed]
            exact none
          · simp only [ended, closed]
            exact further
      · exact fun place => absurd place first

theorem readLambda_balances : (readLambda stop start tokens).Balances stop tokens (-1) := by
  cases tokens with
  | nil =>
      rw [readLambda]
      exact fun _ => Int.le_refl 0
  | cons head rest =>
      obtain ⟨first, others⟩ := List.forall_mem_cons.mp before
      have inside : rest.length < bound := Nat.lt_of_succ_lt short
      rw [readLambda]
      split
      · next opening =>
          have opened := netOf_of_opening opening rest
          rcases (readNames_balances .lambda others).cases with ⟨error, left, read, none⟩ |
            ⟨parameters, left, shorter, read, behind, net⟩ <;> rw [read]
          · exact fun place => opened ▸ Int.add_nonneg (by decide) (none place)
          · have level : netOf (head :: rest) = netOf left := by omega
            rcases readLast_balances below (Nat.lt_trans shorter inside) behind .lambda level with
              ⟨error, last, body, none⟩ |
                ⟨body, last, _, ended, ⟨error, final, closed, none⟩ |
                  ⟨close, final, _, closed, further⟩⟩
            · simp only [body]
              exact none
            · simp only [ended, closed]
              exact none
            · simp only [ended, closed]
              exact further
      · exact fun place => absurd place first

theorem readForm_balances (begun : start ≠ stop) :
    (readForm stop start tokens).Balances stop tokens (-1) := by
  cases tokens with
  | nil =>
      rw [readForm]
      exact fun _ => Int.le_refl 0
  | cons head rest =>
      obtain ⟨first, others⟩ := List.forall_mem_cons.mp before
      have inside : rest.length < bound := Nat.lt_of_succ_lt short
      rw [readForm]
      split
      · next keyword =>
          rw [Reading.Balances.congr (netOf_of_symbol keyword rest)]
          rcases (readOperands_balances below inside others).cases with
            ⟨error, left, read, none⟩ | ⟨⟨operands, close⟩, left, _, read, further⟩ <;>
            simp only [read]
          · exact none
          · cases conditional? ⟨start, close⟩ operands with
            | none => exact fun place => absurd place begun
            | some expr => exact further
      split
      · next keyword =>
          rw [Reading.Balances.congr (netOf_of_symbol keyword rest)]
          rcases (readDefine_balances start below inside others).cases with
            ⟨error, left, read, none⟩ | ⟨expr, left, _, read, further⟩ <;> simp only [read]
          · exact none
          · exact further
      split
      · next keyword =>
          rw [Reading.Balances.congr (netOf_of_symbol keyword rest)]
          rcases (readLambda_balances start below inside others).cases with
            ⟨error, left, read, none⟩ | ⟨expr, left, _, read, further⟩ <;> simp only [read]
          · exact none
          · exact further
      split
      · exact fun place => absurd place first
      · rcases (below _ short before).cases with ⟨error, left, read, none⟩ |
          ⟨callee, left, shorter, read, behind, net⟩ <;> simp only [read]
        · exact none
        · rw [Int.zero_add] at net
          rw [Reading.Balances.congr net]
          rcases (readOperands_balances below (Nat.lt_trans shorter short) behind).cases with
            ⟨error, last, others, none⟩ | ⟨⟨arguments, close⟩, last, _, others, further⟩ <;>
            simp only [others]
          · exact none
          · exact further

end Balances

/-- What follows an opening parenthesis closes it, or it stays open. -/
theorem balancesBelow (stop : Position) (bound : Nat) : BalancesBelow stop bound := by
  induction bound with
  | zero => exact fun _ short => absurd short (Nat.not_lt_zero _)
  | succ bound below =>
      intro tokens short before
      cases tokens with
      | nil =>
          rw [readExpr]
          exact fun _ => Int.le_refl 0
      | cons token rest =>
          obtain ⟨first, others⟩ := List.forall_mem_cons.mp before
          rw [readExpr]
          split
          · next digits integer =>
              cases integer? digits with
              | none => exact fun place => absurd place first
              | some value => exact ⟨others, by rw [netOf_cons, integer]; rfl⟩
          · next value bool => exact ⟨others, by rw [netOf_cons, bool]; rfl⟩
          · next name symbol =>
              exact ⟨others, (netOf_of_symbol symbol rest).trans (Int.zero_add _).symm⟩
          · exact fun place => absurd place first
          · exact fun place => absurd place first
          · next opening =>
              have opened := netOf_of_opening opening rest
              rcases (readForm_balances token.place below (Nat.lt_of_succ_lt_succ short) others
                first).cases with
                ⟨error, left, read, none⟩ | ⟨expr, left, _, read, behind, net⟩ <;> simp only [read]
              · exact fun place => opened ▸ Int.add_nonneg (by decide) (none place)
              · exact ⟨behind, by omega⟩

/-- An expression that has begun and fails at the end of the text has a parenthesis open. -/
theorem netOf_pos_of_failed {stop : Position} {token : Token} {rest left : List Token}
    {error : SourceError} (before : NoneAt stop (token :: rest))
    (failed : readExpr stop (token :: rest) = .failed error left) (place : error.place = stop) :
    0 < netOf (token :: rest) := by
  obtain ⟨first, others⟩ := List.forall_mem_cons.mp before
  have apart : ∀ {cause : ReadFault}, fault token.place cause ≠ error := by
    rintro cause rfl
    exact first place
  rw [readExpr] at failed
  split at failed
  · next digits _ =>
      cases denoted : integer? digits <;> rw [denoted] at failed <;> cases failed
      exact absurd rfl apart
  · cases failed
  · cases failed
  · cases failed
    exact absurd rfl apart
  · cases failed
    exact absurd rfl apart
  · next opening =>
      have opened := netOf_of_opening opening rest
      rcases (readForm_balances token.place (balancesBelow stop _) (Nat.lt_succ_self _) others
        first).cases with
        ⟨other, last, read, none⟩ | ⟨expr, last, _, read, -⟩ <;> simp only [read] at failed
      · cases failed
        have nonneg := none place
        omega
      · cases failed

/-- A program has no open parentheses, and tokens that break off within an expression have some. -/
theorem netOf_of_readAll {stop : Position} {tokens : List Token} (before : NoneAt stop tokens) :
    match readAll stop tokens with
    | .ok _ => netOf tokens = 0
    | .error error => error.place = stop → 0 < netOf tokens := by
  induction tokens using WellFounded.induction (measure List.length).wf with
  | h tokens ih =>
      cases tokens with
      | nil =>
          rw [readAll]
          rfl
      | cons token rest =>
          rw [readAll]
          rcases (balancesBelow stop _ _ (Nat.lt_succ_self _) before).cases with
            ⟨error, left, read, -⟩ | ⟨expr, left, shorter, read, behind, net⟩
          · simp only [read]
            exact netOf_pos_of_failed before read
          · simp only [read]
            rw [net, Int.zero_add]
            have later := ih left shorter behind
            cases remaining : readAll stop left with
            | ok exprs =>
                rw [remaining] at later
                exact later
            | error error =>
                rw [remaining] at later
                exact later

end Reader

/-! ## Interactive sessions -/

namespace Repl

/-- What a session looks at when a line has been entered: the pending lines and the new one. -/
def entered (repl : Repl) (line : Bytes) : Bytes :=
  if repl.pending.isEmpty then line else repl.pending ++ utf8 "\n" ++ line

theorem accept_of_pos {repl : Repl} {line : Bytes}
    (opened : 0 < parenDepth false (repl.entered line)) (fuel : Nat) :
    repl.accept fuel line = ⟨[], [], some { repl with pending := repl.entered line }⟩ :=
  if_pos opened

theorem accept_of_not_pos {repl : Repl} {line : Bytes}
    (closed : ¬ 0 < parenDepth false (repl.entered line)) (fuel : Nat) :
    repl.accept fuel line =
      if (Glyph.trim (repl.entered line)).isEmpty then ⟨[], [], some { repl with pending := [] }⟩
      else repl.evaluate fuel (repl.entered line) :=
  if_neg closed

end Repl

/-- The count by which a session tells whether a text is complete is that of the tokens of the whole
text, whatever unknown words are among them. A text that is a program has no open parentheses, and
a session evaluates it unless it is blank; a text whose first error is where it ends has some, and a
session waits for more. -/
theorem parenDepth_agrees (text : Bytes) :
    parenDepth false text =
        (Lexed.ofBytes text).lexemes.count .leftParen -
          (Lexed.ofBytes text).lexemes.count .rightParen ∧
      (∀ exprs, Reader.parse text = .ok exprs → parenDepth false text = 0) ∧
      (∀ error, Reader.parse text = .error error → error.place = (Lexed.ofBytes text).stop →
        0 < parenDepth false text) ∧
      ∀ (repl : Repl) (line : Bytes) (fuel : Nat), repl.entered line = text →
        (∀ exprs, Reader.parse text = .ok exprs →
          repl.accept fuel line =
            if (Glyph.trim text).isEmpty then ⟨[], [], some { repl with pending := [] }⟩
            else repl.evaluate fuel text) ∧
        ∀ error, Reader.parse text = .error error → error.place = (Lexed.ofBytes text).stop →
          repl.accept fuel line = ⟨[], [], some { repl with pending := text }⟩ := by
  have count := Lexed.parenDepth_eq_netOf text
  have outcome := Reader.netOf_of_readAll (Lexed.noneAt_stop text)
  have complete : ∀ exprs, Reader.parse text = .ok exprs → parenDepth false text = 0 := by
    intro exprs parsed
    rw [show Reader.readAll _ _ = _ from parsed] at outcome
    exact count.trans outcome
  have broken : ∀ error, Reader.parse text = .error error →
      error.place = (Lexed.ofBytes text).stop → 0 < parenDepth false text := by
    intro error failed
    rw [show Reader.readAll _ _ = _ from failed] at outcome
    rw [count]
    exact outcome
  refine ⟨count.trans (netOf_eq_count _), complete, broken, ?_⟩
  rintro repl line fuel rfl
  constructor
  · intro exprs parsed
    exact Repl.accept_of_not_pos (by rw [complete exprs parsed]; decide) fuel
  · intro error failed place
    exact Repl.accept_of_pos (broken error failed place) fuel

/-- A text with a parenthesis in a comment that stands close to a word, and with bytes that are no
character; it breaks off behind the second of two opening parentheses. -/
def brokenText : Bytes :=
  utf8 "(f;)\n" ++ [0xE2, 0x82] ++ utf8 "(g"

/-- A session in which nothing has been entered yet. -/
def freshRepl : Repl :=
  ⟨.compiled (.new {}), [], []⟩

theorem parenDepth_agrees_broken :
    Reader.parse brokenText = .error ⟨⟨9, 2, 5⟩, .malformed .unexpectedEnd⟩ ∧
      (Lexed.ofBytes brokenText).stop = ⟨9, 2, 5⟩ ∧ 0 < parenDepth false brokenText ∧
      freshRepl.accept 0 brokenText = ⟨[], [], some { freshRepl with pending := brokenText }⟩ := by
  have parsed : Reader.parse brokenText = .error ⟨⟨9, 2, 5⟩, .malformed .unexpectedEnd⟩ := by cbv
  have stop : (Lexed.ofBytes brokenText).stop = ⟨9, 2, 5⟩ := by cbv
  obtain ⟨-, -, broken, session⟩ := parenDepth_agrees brokenText
  exact ⟨parsed, stop, broken _ parsed stop.symm,
    (session freshRepl brokenText 0 rfl).2 _ parsed stop.symm⟩

end ClosureLisp
