import ClosureLisp.Text.Bytes

/-!
# TOML literals

A TOML document as it is written: statements with dotted keys and the literals that they
assign. What the statements add up to is a matter of `Toml.Document`.
-/

namespace ClosureLisp.Toml

/-- A key of a table. -/
abbrev Key := Bytes

/-- A dotted key, or the way from the root of a document to a table or a value. -/
abbrev KeyPath := List Key

/-- A value as it is written. Numbers with a fraction, dates and times are only checked, not
kept. -/
inductive Literal where
  | text (content : Bytes)
  | integer (value : Int)
  | float
  | boolean (value : Bool)
  | moment
  | array (items : List Literal)
  | table (entries : List (KeyPath × Literal))
  deriving Repr

/-- Whether a literal is an array. -/
def Literal.isArray : Literal → Bool
  | .array _ => true
  | _ => false

/-- A line of a document: a header that opens a table, a header that adds a table to an array
of tables, or an assignment. -/
inductive Statement where
  | openTable (path : KeyPath)
  | addTable (path : KeyPath)
  | assign (path : KeyPath) (value : Literal)
  deriving Repr

end ClosureLisp.Toml
