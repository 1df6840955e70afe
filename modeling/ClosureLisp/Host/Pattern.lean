import ClosureLisp.Host.Path

/-!
# Name patterns

Patterns for the names of files. A star stands for any bytes, a question mark for one
character, brackets for one character out of ranges or, behind a caret, outside of them;
a backslash takes the next character as it is. What stands behind a star is taken at the leftmost
place where it can stand, and no earlier star is tried again if the rest then does not fit.
-/

namespace ClosureLisp

/-- One part of a pattern between its stars. -/
inductive PatternPart where
  | any
  | oneOf (negated : Bool) (ranges : List (Nat × Nat))
  | literal (byte : UInt8)
  deriving DecidableEq, Repr

/-- A pattern for names: the parts in front of the first star, and those behind each star. -/
structure Pattern where
  front : List PatternPart
  starred : List (List PatternPart)
  deriving DecidableEq, Repr

namespace Pattern

/-- The pattern of no parts. -/
def empty : Pattern :=
  ⟨[], []⟩

/-- A pattern behind further parts. -/
def behind (parts : List PatternPart) (pattern : Pattern) : Pattern :=
  { pattern with front := parts ++ pattern.front }

/-- A pattern behind a star. -/
def behindStar (pattern : Pattern) : Pattern :=
  ⟨[], pattern.front :: pattern.starred⟩

/-- Whether a byte makes a text a pattern. -/
def isMeta (byte : UInt8) : Bool :=
  byte == Bytes.ascii '*' || byte == Bytes.ascii '?' || byte == Bytes.ascii '[' ||
    byte == Bytes.ascii '\\'

/-- Whether a text holds anything that makes it a pattern. -/
def hasMeta (text : Bytes) : Bool :=
  text.any isMeta

/-- Whether a glyph is the given character. -/
def isChar (glyph : Glyph) (char : Char) : Bool :=
  glyph.code == char.toNat

/-- A character of a range, and the rest, which must not be empty. -/
def rangeChar? : List Glyph → Option (Nat × List Glyph)
  | [] => none
  | glyph :: rest =>
      if isChar glyph '-' || isChar glyph ']' then none
      else
        match if isChar glyph '\\' then rest else glyph :: rest with
        | [] => none
        | _ :: [] => none
        | taken :: rest => if taken.isStray then none else some (taken.code, rest)

/-- The ranges up to the closing bracket, of which there must be at least one, and the rest. -/
def ranges? : (fuel : Nat) → (found : List (Nat × Nat)) → List Glyph →
    Option (List (Nat × Nat) × List Glyph)
  | 0, _, _ => none
  | fuel + 1, found, glyphs =>
      match glyphs.head? with
      | none => none
      | some first =>
          if isChar first ']' && !found.isEmpty then some (found, glyphs.tail)
          else
            match rangeChar? glyphs with
            | none => none
            | some (low, rest) =>
                if rest.head?.any (isChar · '-') then
                  match rangeChar? rest.tail with
                  | none => none
                  | some (high, rest) => ranges? fuel (found ++ [(low, high)]) rest
                else ranges? fuel (found ++ [(low, low)]) rest

/-- The parts of a pattern; there are none if a bracket is left open or a backslash ends it. -/
def ofGlyphs? : (fuel : Nat) → List Glyph → Option Pattern
  | _, [] => some empty
  | 0, _ :: _ => none
  | fuel + 1, glyph :: rest =>
      if isChar glyph '*' then (ofGlyphs? fuel rest).map behindStar
      else if isChar glyph '?' then (ofGlyphs? fuel rest).map (behind [.any])
      else if isChar glyph '[' then
        let negated := rest.head?.any (isChar · '^')
        match ranges? rest.length [] (if negated then rest.tail else rest) with
        | none => none
        | some (ranges, rest) => (ofGlyphs? fuel rest).map (behind [.oneOf negated ranges])
      else if isChar glyph '\\' then
        match rest with
        | [] => none
        | taken :: rest => (ofGlyphs? fuel rest).map (behind (taken.bytes.map .literal))
      else (ofGlyphs? fuel rest).map (behind (glyph.bytes.map .literal))

/-- The pattern that a text describes, if it is well-formed. -/
def parse? (text : Bytes) : Option Pattern :=
  let glyphs := Glyph.ofBytes text
  ofGlyphs? glyphs.length glyphs

/-- Whether a code lies in one of the ranges. -/
def inRanges (ranges : List (Nat × Nat)) (code : Nat) : Bool :=
  ranges.any fun (low, high) => low ≤ code && code ≤ high

/-- What a part leaves of a name, if the name starts with it. -/
def partRest? (part : PatternPart) (name : Name) : Option Name :=
  match part, name with
  | _, [] => none
  | .any, lead :: rest => some (Glyph.first lead rest).2
  | .oneOf negated ranges, lead :: rest =>
      if inRanges ranges (Glyph.first lead rest).1.code != negated then
        some (Glyph.first lead rest).2
      else none
  | .literal expected, byte :: rest => if byte = expected then some rest else none

/-- What parts leave of a name, if the name starts with them. -/
def rest? : List PatternPart → Name → Option Name
  | [], name => some name
  | part :: parts, name => (partRest? part name).bind (rest? parts)

/-- What the parts behind a star leave of a name at the leftmost place where they can stand. The
last ones may leave nothing. -/
def seek? (last : Bool) (parts : List PatternPart) : Name → Option Name
  | [] => (rest? parts []).filter fun rest => !last || rest.isEmpty
  | byte :: name =>
      ((rest? parts (byte :: name)).filter fun rest => !last || rest.isEmpty).or
        (seek? last parts name)

/-- Whether a name fits parts that each stand behind a star. -/
def fitsStarred : List (List PatternPart) → Name → Bool
  | [], name => name.isEmpty
  | parts :: starred, name =>
      match seek? starred.isEmpty parts name with
      | none => false
      | some rest => fitsStarred starred rest

/-- Whether a name fits a pattern. -/
def fits (pattern : Pattern) (name : Name) : Bool :=
  match rest? pattern.front name with
  | none => false
  | some rest => fitsStarred pattern.starred rest

end Pattern

end ClosureLisp
