import ClosureLisp.Source.Lexer

/-!
# How a text is cut into tokens

A text is decoded into glyphs, one for each well-formed character and one for each byte at which
no such character starts. `Lexed.Splits` says how a lexed text lies over the glyphs: what stands
between two tokens is blank or a comment, every token covers a run of glyphs, a word goes on for
as long as it can, and places count bytes, lines and glyphs from the start of the text. Lexing
always gives such a partition, and what the lexer gives out is the front of it that ends with the
first unknown word.
-/

namespace ClosureLisp

namespace Glyph

/-! ## Decoding -/

/-- How a text is decoded: well-formed characters one by one, and every byte that starts none by
itself. -/
inductive Decodes : Bytes → List Glyph → Prop where
  | nil : Decodes [] []
  | character {code : Nat} {rest : Bytes} {glyphs : List Glyph} (valid : code.isValidChar)
      (behind : Decodes rest glyphs) :
      Decodes (encode code ++ rest) (⟨code, encode code⟩ :: glyphs)
  | stray {byte : UInt8} {rest : Bytes} {glyphs : List Glyph}
      (invalid : ∀ code : Nat, code.isValidChar → ¬ encode code <+: byte :: rest)
      (behind : Decodes rest glyphs) : Decodes (byte :: rest) (stray byte :: glyphs)

section Ranges

variable (lead second third fourth : UInt8)

theorem isPair_iff :
    isPair lead second = true ↔ (0xC2 ≤ lead.toNat ∧ lead.toNat ≤ 0xDF) ∧
      0x80 ≤ second.toNat ∧ second.toNat ≤ 0xBF := by
  simp [isPair, isTail, UInt8.le_iff_toNat_le]

theorem isTriple_iff :
    isTriple lead second third = true ↔ (0xE0 ≤ lead.toNat ∧ lead.toNat ≤ 0xEF) ∧
      (0x80 ≤ second.toNat ∧ second.toNat ≤ 0xBF) ∧ (0x80 ≤ third.toNat ∧ third.toNat ≤ 0xBF) ∧
      (lead.toNat ≠ 0xE0 ∨ 0xA0 ≤ second.toNat) ∧ (lead.toNat ≠ 0xED ∨ second.toNat ≤ 0x9F) := by
  simp [isTriple, isTail, UInt8.le_iff_toNat_le, UInt8.lt_iff_toNat_lt, ← UInt8.toNat_inj,
    and_assoc]

theorem isQuadruple_iff :
    isQuadruple lead second third fourth = true ↔ (0xF0 ≤ lead.toNat ∧ lead.toNat ≤ 0xF4) ∧
      (0x80 ≤ second.toNat ∧ second.toNat ≤ 0xBF) ∧ (0x80 ≤ third.toNat ∧ third.toNat ≤ 0xBF) ∧
      (0x80 ≤ fourth.toNat ∧ fourth.toNat ≤ 0xBF) ∧
      (lead.toNat ≠ 0xF0 ∨ 0x90 ≤ second.toNat) ∧ (lead.toNat ≠ 0xF4 ∨ second.toNat ≤ 0x8F) := by
  simp [isQuadruple, isTail, UInt8.le_iff_toNat_le, UInt8.lt_iff_toNat_lt, ← UInt8.toNat_inj,
    and_assoc]

end Ranges

theorem toUInt8_eq (byte : UInt8) {number : Nat} (same : byte.toNat = number) :
    number.toUInt8 = byte := by
  subst same
  simp

theorem toNat_toUInt8 {number : Nat} (small : number < 256) : number.toUInt8.toNat = number := by
  rw [Nat.toUInt8_eq, UInt8.toNat_ofNat']
  exact Nat.mod_eq_of_lt small

section Characters

variable {lead second third fourth : UInt8}

theorem encode_pair (pair : isPair lead second = true) :
    ((lead.toNat % 32) * 64 + tailBits second).isValidChar ∧
      encode ((lead.toNat % 32) * 64 + tailBits second) = [lead, second] := by
  have range := (isPair_iff _ _).mp pair
  unfold Nat.isValidChar encode tailBits
  refine ⟨by omega, ?_⟩
  rw [if_neg (by omega), if_pos (by omega), toUInt8_eq lead (by omega),
    toUInt8_eq second (by omega)]

theorem encode_triple (triple : isTriple lead second third = true) :
    ((lead.toNat % 16) * 4096 + tailBits second * 64 + tailBits third).isValidChar ∧
      encode ((lead.toNat % 16) * 4096 + tailBits second * 64 + tailBits third) =
        [lead, second, third] := by
  have range := (isTriple_iff _ _ _).mp triple
  unfold Nat.isValidChar encode tailBits
  refine ⟨by omega, ?_⟩
  rw [if_neg (by omega), if_neg (by omega), if_pos (by omega), toUInt8_eq lead (by omega),
    toUInt8_eq second (by omega), toUInt8_eq third (by omega)]

theorem encode_quadruple (quadruple : isQuadruple lead second third fourth = true) :
    ((lead.toNat % 8) * 262144 + tailBits second * 4096 + tailBits third * 64 +
        tailBits fourth).isValidChar ∧
      encode ((lead.toNat % 8) * 262144 + tailBits second * 4096 + tailBits third * 64 +
        tailBits fourth) = [lead, second, third, fourth] := by
  have range := (isQuadruple_iff _ _ _ _).mp quadruple
  unfold Nat.isValidChar encode tailBits
  refine ⟨by omega, ?_⟩
  rw [if_neg (by omega), if_neg (by omega), if_neg (by omega), toUInt8_eq lead (by omega),
    toUInt8_eq second (by omega), toUInt8_eq third (by omega), toUInt8_eq fourth (by omega)]

/-- The first glyph is a well-formed character, or else the first byte by itself. -/
theorem first_cases (lead : UInt8) (rest : Bytes) :
    (∃ code : Nat, code.isValidChar ∧ (first lead rest).1 = ⟨code, encode code⟩) ∨
      first lead rest = (stray lead, rest) := by
  unfold first
  split
  · next small =>
      have small : lead.toNat < 0x80 := UInt8.lt_iff_toNat_lt.mp small
      refine .inl ⟨lead.toNat, .inl (by omega), ?_⟩
      rw [encode, if_pos small, toUInt8_eq lead rfl]
  · split
    · exact .inr rfl
    · split
      · next pair => exact .inl ⟨_, (encode_pair pair).1, by rw [(encode_pair pair).2]⟩
      · split
        · exact .inr rfl
        · split
          · next triple =>
              exact .inl ⟨_, (encode_triple triple).1, by rw [(encode_triple triple).2]⟩
          · split
            · exact .inr rfl
            · split
              · next quadruple =>
                  exact .inl ⟨_, (encode_quadruple quadruple).1,
                    by rw [(encode_quadruple quadruple).2]⟩
              · exact .inr rfl

theorem not_lt_of_toNat (large : 0x80 ≤ lead.toNat) : ¬ lead < 0x80 := by
  rw [UInt8.lt_iff_toNat_lt]
  exact Nat.not_lt.mpr large

theorem not_isPair_of_toNat (large : 0xE0 ≤ lead.toNat) : ¬ isPair lead second = true := by
  rw [isPair_iff]
  omega

theorem not_isTriple_of_toNat (large : 0xF0 ≤ lead.toNat) :
    ¬ isTriple lead second third = true := by
  rw [isTriple_iff]
  omega

/-- An encoding is decoded as the character that it stands for, whatever follows it. -/
theorem first_of_encode {code : Nat} (valid : code.isValidChar) {tail : Bytes}
    (encoded : encode code = lead :: tail) (rest : Bytes) :
    first lead (tail ++ rest) = (⟨code, lead :: tail⟩, rest) := by
  unfold Nat.isValidChar at valid
  unfold encode at encoded
  split at encoded
  · cases encoded
    have leads := @toNat_toUInt8 code (by omega)
    unfold first
    rw [if_pos (UInt8.lt_iff_toNat_lt.mpr (by rwa [leads])), leads]
    rfl
  · split at encoded
    · cases encoded
      have leads := @toNat_toUInt8 (0xC0 + code / 64) (by omega)
      have seconds := @toNat_toUInt8 (0x80 + code % 64) (by omega)
      have number : (0xC0 + code / 64) % 32 * 64 + (0x80 + code % 64) % 64 = code := by omega
      unfold first
      rw [if_neg (not_lt_of_toNat (by omega))]
      simp only [List.cons_append, List.nil_append]
      rw [if_pos ((isPair_iff _ _).mpr (by omega)), leads, tailBits, seconds, number]
    · split at encoded
      · cases encoded
        have leads := @toNat_toUInt8 (0xE0 + code / 4096) (by omega)
        have seconds := @toNat_toUInt8 (0x80 + code / 64 % 64) (by omega)
        have thirds := @toNat_toUInt8 (0x80 + code % 64) (by omega)
        have number : (0xE0 + code / 4096) % 16 * 4096 + (0x80 + code / 64 % 64) % 64 * 64 +
            (0x80 + code % 64) % 64 = code := by omega
        unfold first
        rw [if_neg (not_lt_of_toNat (by omega))]
        simp only [List.cons_append, List.nil_append]
        rw [if_neg (not_isPair_of_toNat (by omega)), if_pos ((isTriple_iff _ _ _).mpr (by omega)),
          leads, tailBits, tailBits, seconds, thirds, number]
      · cases encoded
        have leads := @toNat_toUInt8 (0xF0 + code / 262144) (by omega)
        have seconds := @toNat_toUInt8 (0x80 + code / 4096 % 64) (by omega)
        have thirds := @toNat_toUInt8 (0x80 + code / 64 % 64) (by omega)
        have fourths := @toNat_toUInt8 (0x80 + code % 64) (by omega)
        have number : (0xF0 + code / 262144) % 8 * 262144 + (0x80 + code / 4096 % 64) % 64 * 4096 +
            (0x80 + code / 64 % 64) % 64 * 64 + (0x80 + code % 64) % 64 = code := by omega
        unfold first
        rw [if_neg (not_lt_of_toNat (by omega))]
        simp only [List.cons_append, List.nil_append]
        rw [if_neg (not_isPair_of_toNat (by omega)), if_neg (not_isTriple_of_toNat (by omega)),
          if_pos ((isQuadruple_iff _ _ _ _).mpr (by omega)), leads, tailBits, tailBits, tailBits,
          seconds, thirds, fourths, number]

end Characters

theorem encode_ne_nil (code : Nat) : encode code ≠ [] := by
  unfold encode
  repeat' split
  all_goals exact List.cons_ne_nil _ _

/-- A byte that is decoded by itself starts no well-formed character. -/
theorem not_encode_of_stray {lead : UInt8} {rest : Bytes}
    (alone : first lead rest = (stray lead, rest)) {code : Nat} (valid : code.isValidChar) :
    ¬ encode code <+: lead :: rest := by
  rintro ⟨behind, whole⟩
  obtain ⟨start, tail, encoded⟩ := List.exists_cons_of_ne_nil (encode_ne_nil code)
  rw [encoded, List.cons_append, List.cons.injEq] at whole
  obtain ⟨rfl, rfl⟩ := whole
  have decoded := first_of_encode valid encoded behind
  rw [alone] at decoded
  -- The character that has the replacement code point takes three bytes.
  have same : replacement = code := congrArg (fun decoded => decoded.1.code) decoded
  have short : [start] = start :: tail := congrArg (fun decoded => decoded.1.bytes) decoded
  rw [← same, ← short] at encoded
  have length : (encode replacement).length = 1 := congrArg List.length encoded
  exact absurd length (by decide)

theorem decodes_ofBytes (text : Bytes) : Decodes text (ofBytes text) := by
  fun_induction ofBytes text with
  | case1 => exact .nil
  | case2 lead rest ih =>
      have whole := first_append lead rest
      rcases first_cases lead rest with ⟨code, valid, found⟩ | alone
      · rw [found] at whole ⊢
        rw [← whole]
        exact .character valid ih
      · rw [alone] at ih ⊢
        exact .stray (fun code => not_encode_of_stray alone) ih

/-- The glyphs that come out of decoding. -/
inductive IsDecoded : Glyph → Prop where
  | character (code : Nat) : IsDecoded ⟨code, encode code⟩
  | stray (byte : UInt8) : IsDecoded (stray byte)

theorem Decodes.isDecoded {text : Bytes} {glyphs : List Glyph} (decodes : Decodes text glyphs) :
    ∀ glyph ∈ glyphs, glyph.IsDecoded := by
  induction decodes with
  | nil => exact fun _ listed => absurd listed List.not_mem_nil
  | character _ _ ih => exact List.forall_mem_cons.mpr ⟨.character _, ih⟩
  | stray _ _ ih => exact List.forall_mem_cons.mpr ⟨.stray _, ih⟩

namespace IsDecoded

variable {glyph : Glyph}

theorem bytes_ne_nil (decoded : glyph.IsDecoded) : glyph.bytes ≠ [] := by
  cases decoded with
  | character code => exact encode_ne_nil code
  | stray byte => exact List.cons_ne_nil _ _

/-- Only the replacement code point can stand for a byte that is no character. -/
theorem bytes_eq (decoded : glyph.IsDecoded) (other : glyph.code ≠ replacement) :
    glyph.bytes = encode glyph.code := by
  cases decoded with
  | character code => rfl
  | stray byte => exact absurd rfl other

end IsDecoded

theorem toBytes_append (left right : List Glyph) :
    toBytes (left ++ right) = toBytes left ++ toBytes right :=
  List.flatMap_append

end Glyph

/-! ## Places -/

namespace Position

/-- The place behind the glyphs before it: bytes are counted from the start of the text, lines by
the line feeds, and glyphs from the last line feed. -/
def behind (before : List Glyph) : Position where
  offset := (Glyph.toBytes before).length
  line := 1 + before.countP fun glyph => glyph.code = 10
  column := 1 + (before.reverse.takeWhile fun glyph => glyph.code ≠ 10).length

theorem behind_after (before : List Glyph) (glyph : Glyph) :
    (behind before).after glyph = behind (before ++ [glyph]) := by
  have offset : (Glyph.toBytes (before ++ [glyph])).length =
      (Glyph.toBytes before).length + glyph.bytes.length := by
    simp [Glyph.toBytes]
  unfold after
  split
  · next feed => simp [behind, offset, feed, Nat.add_assoc]
  · next other => simp [behind, offset, other, Nat.add_comm]

theorem behind_afterAll (before glyphs : List Glyph) :
    (behind before).afterAll glyphs = behind (before ++ glyphs) := by
  induction glyphs generalizing before with
  | nil => rw [List.append_nil]; rfl
  | cons glyph rest ih =>
      rw [List.append_cons, ← ih, ← behind_after]
      rfl

end Position

namespace Lexed

/-! ## Partitions -/

/-- What may stand between two tokens, and what comes behind it: blanks, and comments up to the
next line feed or the end. -/
inductive Skipped : (gap rest : List Glyph) → Prop where
  | nil {rest : List Glyph} : Skipped [] rest
  | blank {glyph : Glyph} {gap rest : List Glyph} (blank : isBlank glyph.code = true)
      (skipped : Skipped gap rest) : Skipped (glyph :: gap) rest
  | comment {glyph : Glyph} {body gap rest : List Glyph} (semicolon : glyph.code = 0x3B)
      (inside : ∀ other ∈ body, other.code ≠ 10)
      (ended : ∀ other ∈ (gap ++ rest).head?, other.code = 10)
      (skipped : Skipped gap rest) : Skipped (glyph :: body ++ gap) rest

/-- The words that make a token. -/
inductive Spells : Lexeme → Bytes → Prop where
  | integer {word : Bytes} (digits : isInteger word = true) : Spells (.integer word) word
  | truth {word : Bytes} (spelled : word = utf8 "#t" ∨ word = utf8 "#true") :
      Spells (.bool true) word
  | falsity {word : Bytes} (spelled : word = utf8 "#f" ∨ word = utf8 "#false") :
      Spells (.bool false) word
  | unknown {word : Bytes} (hash : word.head? = some 35)
      (other : word ∉ [utf8 "#t", utf8 "#true", utf8 "#f", utf8 "#false"]) :
      Spells (.unknown word) word
  | symbol {word : Bytes} (plain : word.head? ≠ some 35) (other : isInteger word = false) :
      Spells (.symbol word) word

/-- The glyphs that a token covers, and what comes behind them: one parenthesis, or a word that
ends at a delimiter or at the end. -/
inductive Covers : Lexeme → (run rest : List Glyph) → Prop where
  | leftParen {glyph : Glyph} {rest : List Glyph} (code : glyph.code = 0x28) :
      Covers .leftParen [glyph] rest
  | rightParen {glyph : Glyph} {rest : List Glyph} (code : glyph.code = 0x29) :
      Covers .rightParen [glyph] rest
  | word {lexeme : Lexeme} {run rest : List Glyph} (nonempty : run ≠ [])
      (inside : ∀ glyph ∈ run, isDelimiter glyph = false)
      (ended : ∀ glyph ∈ rest.head?, isDelimiter glyph = true)
      (spelled : Spells lexeme (Glyph.toBytes run)) : Covers lexeme run rest

/-- How a lexed text lies over glyphs when others come before them: gaps and runs take turns, and
each token stands at the place where its run starts. -/
inductive Splits : (before glyphs : List Glyph) → Lexed → Prop where
  | stop {before gap : List Glyph} (skipped : Skipped gap []) :
      Splits before gap ⟨[], .behind (before ++ gap)⟩
  | token {before gap run rest : List Glyph} {lexeme : Lexeme} {lexed : Lexed}
      (skipped : Skipped gap (run ++ rest)) (covered : Covers lexeme run rest)
      (onward : Splits (before ++ gap ++ run) rest lexed) :
      Splits before (gap ++ run ++ rest) (cons ⟨lexeme, .behind (before ++ gap)⟩ lexed)

theorem spells_classify (word : Bytes) : Spells (classify word) word := by
  unfold classify
  split
  · next hash =>
      split
      · next spelled => exact .truth (by simpa using spelled)
      · next noTrue =>
          split
          · next spelled => exact .falsity (by simpa using spelled)
          · next noFalse =>
              refine .unknown hash ?_
              simp at noTrue noFalse ⊢
              exact ⟨noTrue.1, noTrue.2, noFalse⟩
  · next plain =>
      split
      · next digits => exact .integer digits
      · next other => exact .symbol plain (by simpa using other)

/-- Something more may be skipped in front. -/
theorem Splits.skip (piece : List Glyph) {before rest : List Glyph} {lexed : Lexed}
    (more : ∀ gap back, rest = gap ++ back → Skipped gap back → Skipped (piece ++ gap) back)
    (splits : Splits (before ++ piece) rest lexed) : Splits before (piece ++ rest) lexed := by
  cases splits with
  | stop skipped =>
      rw [List.append_assoc]
      exact .stop (more rest [] (List.append_nil _).symm skipped)
  | @token _ gap run back _ _ skipped covered onward =>
      rw [List.append_assoc before] at onward ⊢
      rw [List.append_assoc gap, ← List.append_assoc piece, ← List.append_assoc]
      exact .token (more gap (run ++ back) (List.append_assoc _ _ _) skipped) covered onward

/-- A run of glyphs that is as long as it can be stops at a glyph that does not belong to it. -/
theorem not_of_mem_head?_dropWhile {keep : Glyph → Bool} {glyphs : List Glyph} :
    ∀ glyph ∈ (glyphs.dropWhile keep).head?, keep glyph = false := by
  intro glyph stops
  have found := List.head?_dropWhile_not keep glyphs
  rw [Option.mem_def] at stops
  rw [stops] at found
  simpa using found

/-- A token in front of what has been split. -/
theorem Splits.cover {before run rest : List Glyph} {lexeme : Lexeme} {lexed : Lexed}
    (covered : Covers lexeme run rest) (onward : Splits (before ++ run) rest lexed) :
    Splits before (run ++ rest) (cons ⟨lexeme, .behind before⟩ lexed) := by
  have splits := @Splits.token before [] run rest lexeme lexed .nil covered (by
    rwa [List.append_nil])
  rwa [List.append_nil] at splits

/-- Lexing splits the glyphs into gaps and runs. -/
theorem splits_ofGlyphs {before : List Glyph} {place : Position} (stands : place = .behind before)
    (glyphs : List Glyph) : Splits before glyphs (ofGlyphs place glyphs) := by
  fun_induction ofGlyphs place glyphs generalizing before with
  | case1 place =>
      subst stands
      have done := @Splits.stop before [] .nil
      rwa [List.append_nil] at done
  | case2 place glyph rest semicolon ih =>
      subst stands
      have next := @ih (before ++ glyph :: rest.takeWhile inComment) (by
        rw [Position.behind_after, Position.behind_afterAll, List.append_assoc]
        rfl)
      have whole := Splits.skip (glyph :: rest.takeWhile inComment) ?_ next
      · rwa [List.cons_append, List.takeWhile_append_dropWhile] at whole
      · intro gap back left skipped
        refine .comment semicolon ?_ ?_ skipped
        · intro other listed
          simpa [inComment] using List.all_eq_true.mp List.all_takeWhile other listed
        · rw [← left]
          intro other stops
          simpa [inComment] using not_of_mem_head?_dropWhile other stops
  | case3 place glyph rest noSemicolon blank ih =>
      subst stands
      exact .skip [glyph] (fun gap back _ skipped => .blank blank skipped)
        (ih (Position.behind_after before glyph))
  | case4 place glyph rest noSemicolon noBlank code ih =>
      subst stands
      exact .cover (.leftParen code) (ih (Position.behind_after before glyph))
  | case5 place glyph rest noSemicolon noBlank noOpening code ih =>
      subst stands
      exact .cover (.rightParen code) (ih (Position.behind_after before glyph))
  | case6 place glyph rest noSemicolon noBlank noOpening noClosing word =>
      rename_i ih
      subst stands
      have covered : Covers (classify (Glyph.toBytes word)) word (rest.dropWhile inWord) := by
        refine .word (List.cons_ne_nil _ _) ?_ ?_ (spells_classify _)
        · refine List.forall_mem_cons.mpr ⟨?_, fun other listed => ?_⟩
          · simp [isDelimiter, noSemicolon, noBlank, noOpening, noClosing]
          · simpa [inWord] using List.all_eq_true.mp List.all_takeWhile other listed
        · intro other stops
          simpa [inWord] using not_of_mem_head?_dropWhile other stops
      have whole := Splits.cover covered (ih (Position.behind_afterAll before word))
      rwa [List.cons_append, List.takeWhile_append_dropWhile] at whole

/-! ## Only one partition -/

theorem eq_classify_of_spells {lexeme : Lexeme} {word : Bytes} (spells : Spells lexeme word) :
    lexeme = classify word := by
  unfold classify
  cases spells with
  | integer digits =>
      have plain : word.head? ≠ some 35 := by
        intro hash
        obtain ⟨rest, rfl⟩ := List.head?_eq_some_iff.mp hash
        simp [isInteger, isDigit] at digits
      rw [if_neg plain, if_pos digits]
  | truth spelled => rcases spelled with rfl | rfl <;> decide
  | falsity spelled => rcases spelled with rfl | rfl <;> decide
  | unknown hash other =>
      simp only [List.mem_cons, List.not_mem_nil, or_false, not_or] at other
      simp [hash, other]
  | symbol plain other => rw [if_neg plain, if_neg (by simp [other])]

/-- A run that all belongs and is followed by a glyph that does not is taken as a whole. -/
theorem span_append {keep : Glyph → Bool} {run rest : List Glyph}
    (inside : ∀ glyph ∈ run, keep glyph = true)
    (ended : ∀ glyph ∈ rest.head?, keep glyph = false) :
    (run ++ rest).takeWhile keep = run ∧ (run ++ rest).dropWhile keep = rest := by
  induction run with
  | nil =>
      cases rest with
      | nil => exact ⟨rfl, rfl⟩
      | cons glyph rest => simp [ended glyph rfl]
  | cons glyph run ih =>
      obtain ⟨first, others⟩ := List.forall_mem_cons.mp inside
      obtain ⟨taken, left⟩ := ih others
      simp [first, taken, left]

/-- What is skipped makes no token. -/
theorem ofGlyphs_of_skipped {gap rest : List Glyph} (skipped : Skipped gap rest)
    (place : Position) : ofGlyphs place (gap ++ rest) = ofGlyphs (place.afterAll gap) rest := by
  induction skipped generalizing place with
  | nil => rfl
  | @blank glyph gap rest blank _ ih =>
      have noSemicolon : glyph.code ≠ 0x3B := by
        intro code
        rw [code] at blank
        exact absurd blank (by decide)
      rw [List.cons_append, ofGlyphs, if_neg noSemicolon, if_pos blank, ih]
      rfl
  | @comment glyph body gap rest semicolon inside ended _ ih =>
      obtain ⟨taken, left⟩ := @span_append inComment body (gap ++ rest)
        (fun other listed => by simpa [inComment] using inside other listed)
        (fun other stops => by simpa [inComment] using ended other stops)
      rw [List.cons_append, List.cons_append, List.append_assoc, ofGlyphs, if_pos semicolon, taken,
        left, ih]
      simp [Position.afterAll]

/-- What a token covers makes that token. -/
theorem ofGlyphs_of_covers {lexeme : Lexeme} {run rest : List Glyph}
    (covers : Covers lexeme run rest) (place : Position) :
    ofGlyphs place (run ++ rest) = cons ⟨lexeme, place⟩ (ofGlyphs (place.afterAll run) rest) := by
  cases covers with
  | leftParen code =>
      rw [List.singleton_append, ofGlyphs, if_neg (by omega), if_neg (by rw [code]; decide),
        if_pos code]
      rfl
  | rightParen code =>
      rw [List.singleton_append, ofGlyphs, if_neg (by omega), if_neg (by rw [code]; decide),
        if_neg (by omega), if_pos code]
      rfl
  | word nonempty inside ended spelled =>
      obtain ⟨glyph, run, rfl⟩ := List.exists_cons_of_ne_nil nonempty
      obtain ⟨first, others⟩ := List.forall_mem_cons.mp inside
      obtain ⟨taken, left⟩ := @span_append inWord run rest
        (fun other listed => by simpa [inWord] using others other listed)
        (fun other stops => by simpa [inWord] using ended other stops)
      simp only [isDelimiter, Bool.or_eq_false_iff, decide_eq_false_iff_not] at first
      obtain ⟨⟨⟨noOpening, noClosing⟩, noSemicolon⟩, noBlank⟩ := first
      rw [List.cons_append, ofGlyphs, if_neg noSemicolon, if_neg (by simp [noBlank]),
        if_neg noOpening, if_neg noClosing, eq_classify_of_spells spelled]
      simp only [taken, left]

/-- There is no other partition. -/
theorem Splits.eq_ofGlyphs {before glyphs : List Glyph} {lexed : Lexed}
    (splits : Splits before glyphs lexed) : lexed = ofGlyphs (.behind before) glyphs := by
  induction splits with
  | @stop before gap skipped =>
      have whole := ofGlyphs_of_skipped skipped (.behind before)
      rw [List.append_nil, Position.behind_afterAll, ofGlyphs] at whole
      exact whole.symm
  | @token before gap run rest lexeme lexed skipped covered _ ih =>
      rw [List.append_assoc, ofGlyphs_of_skipped skipped, ofGlyphs_of_covers covered,
        Position.behind_afterAll, Position.behind_afterAll, ← ih]

/-! ## In bytes -/

/-- The offsets of the tokens and of the end. -/
def offsets (lexed : Lexed) : List Nat :=
  lexed.tokens.map (fun token => token.place.offset) ++ [lexed.stop.offset]

/-- The spellings of a token. -/
def spellings : Lexeme → List Bytes
  | .integer digits => [digits]
  | .bool true => [utf8 "#t", utf8 "#true"]
  | .bool false => [utf8 "#f", utf8 "#false"]
  | .symbol name => [name]
  | .leftParen => [utf8 "("]
  | .rightParen => [utf8 ")"]
  | .unknown word => [word]

theorem Covers.mem_spellings {lexeme : Lexeme} {run rest : List Glyph}
    (covers : Covers lexeme run rest) (decoded : ∀ glyph ∈ run, glyph.IsDecoded) :
    Glyph.toBytes run ∈ spellings lexeme := by
  cases covers with
  | leftParen code =>
      have bytes := (decoded _ (List.mem_singleton_self _)).bytes_eq (by rw [code]; decide)
      simp [Glyph.toBytes, bytes, code, spellings]
      decide
  | rightParen code =>
      have bytes := (decoded _ (List.mem_singleton_self _)).bytes_eq (by rw [code]; decide)
      simp [Glyph.toBytes, bytes, code, spellings]
      decide
  | word nonempty inside ended spelled =>
      cases spelled with
      | integer | unknown | symbol => exact List.mem_singleton_self _
      | truth spelled | falsity spelled => simpa [spellings] using spelled

/-- Every token covers glyphs, and stands at the place where they start. -/
theorem Splits.exists_covers {before glyphs : List Glyph} {lexed : Lexed}
    (splits : Splits before glyphs lexed) :
    ∀ token ∈ lexed.tokens, ∃ front run back, before ++ glyphs = front ++ run ++ back ∧
      token.place = .behind front ∧ Covers token.lexeme run back := by
  induction splits with
  | stop => exact fun _ listed => absurd listed List.not_mem_nil
  | @token before gap run rest lexeme lexed _ covered _ ih =>
      have whole : before ++ (gap ++ run ++ rest) = before ++ gap ++ run ++ rest := by
        simp only [List.append_assoc]
      rw [whole]
      exact List.forall_mem_cons.mpr ⟨⟨before ++ gap, run, rest, rfl, rfl, covered⟩, ih⟩

theorem Splits.stop_eq {before glyphs : List Glyph} {lexed : Lexed}
    (splits : Splits before glyphs lexed) : lexed.stop = .behind (before ++ glyphs) := by
  induction splits with
  | stop => rfl
  | token _ _ _ ih =>
      simp only [List.append_assoc] at ih ⊢
      exact ih

theorem Covers.run_ne_nil {lexeme : Lexeme} {run rest : List Glyph}
    (covers : Covers lexeme run rest) : run ≠ [] := by
  cases covers with
  | leftParen | rightParen => exact List.cons_ne_nil _ _
  | word nonempty _ _ _ => exact nonempty

theorem toBytes_ne_nil {glyphs : List Glyph} (nonempty : glyphs ≠ [])
    (each : ∀ glyph ∈ glyphs, glyph.bytes ≠ []) : Glyph.toBytes glyphs ≠ [] := by
  obtain ⟨glyph, rest, rfl⟩ := List.exists_cons_of_ne_nil nonempty
  rw [Glyph.toBytes, List.flatMap_cons]
  exact List.append_ne_nil_of_left_ne_nil (each glyph List.mem_cons_self) _

theorem Splits.increasing {before glyphs : List Glyph} {lexed : Lexed}
    (splits : Splits before glyphs lexed) (each : ∀ glyph ∈ glyphs, glyph.bytes ≠ []) :
    lexed.offsets.Pairwise (· < ·) ∧
      ∀ offset ∈ lexed.offsets, (Glyph.toBytes before).length ≤ offset := by
  induction splits with
  | @stop before gap _ =>
      refine ⟨List.pairwise_singleton _ _, fun offset listed => ?_⟩
      rw [List.mem_singleton.mp listed]
      simp [Position.behind, Glyph.toBytes_append]
  | @token before gap run rest lexeme lexed _ covered _ ih =>
      obtain ⟨inside, behind⟩ := List.forall_mem_append.mp each
      obtain ⟨increasing, least⟩ := ih behind
      have run_ne := toBytes_ne_nil covered.run_ne_nil (List.forall_mem_append.mp inside).2
      have positive := List.length_pos_iff.mpr run_ne
      simp only [Glyph.toBytes_append, List.length_append] at least
      constructor
      · refine List.pairwise_cons.mpr ⟨fun offset listed => ?_, increasing⟩
        have lower := least offset listed
        simp only [Position.behind, Glyph.toBytes_append, List.length_append]
        omega
      · refine List.forall_mem_cons.mpr ⟨?_, fun offset listed => ?_⟩
        · simp [Position.behind, Glyph.toBytes_append]
        · have lower := least offset listed
          omega

/-- How a lexed text lies over a text and its glyphs. -/
structure Partitions (lexed : Lexed) (text : Bytes) (glyphs : List Glyph) : Prop where
  /-- The glyphs are the decoded text. -/
  decodes : Glyph.Decodes text glyphs
  /-- A byte outside every character and the null character are glyphs of one byte, and end no
  word. -/
  ordinary : ∀ glyph ∈ glyphs, glyph.isStray = true ∨ glyph.code = 0 →
    glyph.bytes.length = 1 ∧ isDelimiter glyph = false
  /-- The glyphs are split into gaps and tokens. -/
  splits : Splits [] glyphs lexed
  increasing : lexed.offsets.Pairwise (· < ·)
  /-- Every token covers bytes that spell it, from its offset on. -/
  covers : ∀ token ∈ lexed.tokens, ∃ front run back, text = front ++ run ++ back ∧
    token.place.offset = front.length ∧ run ≠ [] ∧ run ∈ spellings token.lexeme
  /-- The end stands behind everything. -/
  stop : lexed.stop = .behind glyphs ∧ lexed.stop.offset = text.length

theorem ordinary_of_isDecoded {glyph : Glyph} (decoded : glyph.IsDecoded)
    (odd : glyph.isStray = true ∨ glyph.code = 0) :
    glyph.bytes.length = 1 ∧ isDelimiter glyph = false := by
  rcases odd with stray | null
  · simp only [Glyph.isStray, Bool.and_eq_true, decide_eq_true_eq] at stray
    refine ⟨stray.2, ?_⟩
    rw [isDelimiter, stray.1]
    decide
  · rw [decoded.bytes_eq (by rw [null]; decide), isDelimiter, null]
    decide

/-- Giving out ends with the first that is a last one, and there is one: the end of the text. -/
theorem giveOut_ends (stop : Position) (tokens : List Token) :
    ∃ front last behind, tokens.map .found ++ [.stop stop] = front ++ last :: behind ∧
      giveOut stop tokens = front ++ [last] ∧ (∀ scan ∈ front, scan.isLast = false) ∧
      last.isLast = true := by
  induction tokens with
  | nil => exact ⟨[], .stop stop, [], rfl, rfl, fun _ listed => absurd listed List.not_mem_nil, rfl⟩
  | cons token rest ih =>
      rw [giveOut]
      split
      · next ends => exact ⟨[], .found token, _, rfl, rfl,
          fun _ listed => absurd listed List.not_mem_nil, ends⟩
      · next goesOn =>
          obtain ⟨front, last, behind, whole, given, before, ends⟩ := ih
          refine ⟨.found token :: front, last, behind, ?_, ?_, ?_, ends⟩
          · rw [List.map_cons, List.cons_append, whole, List.cons_append]
          · rw [given, List.cons_append]
          · exact List.forall_mem_cons.mpr ⟨Bool.not_eq_true _ ▸ goesOn, before⟩

/-- Lexing cuts every text into tokens, blanks and comments. -/
theorem partitions_ofBytes (text : Bytes) :
    (ofBytes text).Partitions text (Glyph.ofBytes text) := by
  have decodes := Glyph.decodes_ofBytes text
  have whole := Glyph.toBytes_ofBytes text
  have splits : Splits [] (Glyph.ofBytes text) (ofBytes text) := splits_ofGlyphs rfl _
  refine ⟨decodes, ?_, splits, ?_, ?_, splits.stop_eq, ?_⟩
  · exact fun glyph listed => ordinary_of_isDecoded (decodes.isDecoded glyph listed)
  · exact (splits.increasing fun glyph listed =>
      (decodes.isDecoded glyph listed).bytes_ne_nil).1
  · intro token listed
    obtain ⟨front, run, back, glyphs, place, covers⟩ := splits.exists_covers token listed
    rw [List.nil_append] at glyphs
    have decoded : ∀ glyph ∈ run, glyph.IsDecoded := fun glyph inside =>
      decodes.isDecoded glyph (by simp [glyphs, inside])
    refine ⟨Glyph.toBytes front, Glyph.toBytes run, Glyph.toBytes back, ?_, ?_, ?_,
      covers.mem_spellings decoded⟩
    · rw [← whole, glyphs, Glyph.toBytes_append, Glyph.toBytes_append]
    · rw [place, Position.behind]
    · exact toBytes_ne_nil covers.run_ne_nil fun glyph inside => (decoded glyph inside).bytes_ne_nil
  · rw [splits.stop_eq, List.nil_append, Position.behind, whole]

/-- Lexing cuts every text into tokens, blanks and comments, and there is no other way to cut it.
What comes behind an unknown word is cut too; the lexer gives out the front of this that ends with
the first such word or else with the end of the text. -/
theorem ofBytes_partitions (text : Bytes) :
    (ofBytes text).Partitions text (Glyph.ofBytes text) ∧
      (∀ other : Lexed, Splits [] (Glyph.ofBytes text) other ↔ other = ofBytes text) ∧
      ∃ front last behind, (ofBytes text).scans = front ++ last :: behind ∧
        givenOut text = front ++ [last] ∧ (∀ scan ∈ front, scan.isLast = false) ∧
        last.isLast = true :=
  ⟨partitions_ofBytes text,
    fun _ => ⟨Splits.eq_ofGlyphs, fun same => same ▸ splits_ofGlyphs rfl _⟩, giveOut_ends _ _⟩

end Lexed

end ClosureLisp
