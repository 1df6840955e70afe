import ClosureLisp.Toml.Syntax

/-!
# TOML documents

What the statements of a document add up to. Tables are kept by number, the root being
number 0: the table that a literal describes is written down entry by entry below its key
and, apart from that, once more as the value of the literal, and either of the two may end
up under the key.

Two notes are kept about key paths, not about tables, so they also hold for the tables that
come to stand at the same path later. A path is *provisional* while what stands there came
about on the way to something else; then one more statement may define it. A path is *noted
as an array* if the last value assigned there was one; what stands there provisionally then
gives way to the definition, and otherwise it stays. A note about a key that is empty goes to
the table that holds it.
-/

namespace ClosureLisp.Toml

/-- A value of a key. -/
inductive Datum where
  | text (content : Bytes)
  | integer (value : Int)
  | float
  | boolean (value : Bool)
  | moment
  | array (items : List Datum)
  | table (number : Nat)
  | tables (numbers : List Nat)
  deriving Repr

/-- The table that further keys lead into: of an array of tables, the last one. -/
def Datum.table? : Datum → Option Nat
  | .table number => some number
  | .tables numbers => numbers.getLast?
  | _ => none

/-- Keys with their values, in the order in which they came. -/
abbrev Table := List (Key × Datum)

namespace Table

/-- Gives a key a value. -/
def put (key : Key) (value : Datum) : Table → Table
  | [] => [(key, value)]
  | (other, old) :: rest =>
      if other = key then (key, value) :: rest else (other, old) :: put key value rest

end Table

/-- A document: its tables by number, and what is noted about key paths. -/
structure Document where
  tables : Array Table
  provisional : List KeyPath
  arrays : List KeyPath

namespace Document

/-- The document without statements. -/
def empty : Document :=
  ⟨#[[]], [], []⟩

/-- The entries of a table. -/
def entries (document : Document) (number : Nat) : Table :=
  document.tables[number]?.getD []

/-- The value of a key in a table. -/
def get? (document : Document) (number : Nat) (key : Key) : Option Datum :=
  (document.entries number).lookup key

/-- Gives a key of a table a value. -/
def put (document : Document) (number : Nat) (key : Key) (value : Datum) : Document :=
  { document with tables := document.tables.modify number (Table.put key value) }

/-- A further table. -/
def newTable (document : Document) : Nat × Document :=
  (document.tables.size, { document with tables := document.tables.push [] })

/-- Notes that a path is provisional. -/
def expect (document : Document) (path : KeyPath) : Document :=
  { document with provisional := path :: document.provisional }

/-- Notes that a path is defined. -/
def settle (document : Document) (path : KeyPath) : Document :=
  { document with provisional := document.provisional.filter (· ≠ path) }

/-- The path that a note about a key goes to. -/
def notedPath (context : KeyPath) (key : Key) : KeyPath :=
  if key.isEmpty && !context.isEmpty then context else context ++ [key]

/-- Notes whether a key was assigned an array. -/
def note (document : Document) (context : KeyPath) (key : Key) (isArray : Bool) : Document :=
  let path := notedPath context key
  let others := document.arrays.filter (· ≠ path)
  { document with arrays := if isArray then path :: others else others }

/-- The table that a path leads to from a table. -/
def follow? (document : Document) (number : Nat) : KeyPath → Option Nat
  | [] => some number
  | key :: path =>
      match (document.get? number key).bind Datum.table? with
      | none => none
      | some number => document.follow? number path

/-- Defines a key in the table that a path leads to. A key that has a value can be defined only
if it is provisional. -/
def define? (document : Document) (context : KeyPath) (key : Key) (value : Datum) :
    Option Document :=
  match document.follow? 0 context with
  | none => none
  | some number =>
      let path := context ++ [key]
      match document.get? number key with
      | none => some (document.put number key value)
      | some _ =>
          if path ∉ document.provisional then none
          else if path ∈ document.arrays then some ((document.settle path).put number key value)
          else some (document.settle path)

/-- Follows a path from a table that was reached by another one, making provisional tables
where there is nothing. -/
def prepare? (document : Document) (number : Nat) (before : KeyPath) :
    KeyPath → Option (Nat × Document)
  | [] => some (number, document)
  | key :: path =>
      let here := before ++ [key]
      match document.get? number key with
      | some value =>
          match value.table? with
          | none => none
          | some next => document.prepare? next here path
      | none =>
          let (next, document) := document.newTable
          (document.expect here |>.put number key (.table next)).prepare? next here path

/-- Defines a table, making its parents. -/
def openTable? (document : Document) (path : KeyPath) : Option Document :=
  match path.getLast? with
  | none => none
  | some key =>
      match document.prepare? 0 [] path.dropLast with
      | none => none
      | some (_, document) =>
          let (number, document) := document.newTable
          document.define? path.dropLast key (.table number)

/-- Adds a table to an array of tables, making its parents and the array. -/
def addTable? (document : Document) (path : KeyPath) : Option Document :=
  match path.getLast? with
  | none => none
  | some key =>
      match document.prepare? 0 [] path.dropLast with
      | none => none
      | some (holder, document) =>
          let (number, document) := document.newTable
          match document.get? holder key with
          | none => some (document.put holder key (.tables [number]))
          | some (.tables numbers) => some (document.put holder key (.tables (numbers ++ [number])))
          | some _ => none

/-- Goes through the leading keys of a dotted key, each of which is opened as a provisional
table. -/
def enter? (document : Document) (context : KeyPath) : KeyPath → Option (KeyPath × Document)
  | [] => some (context, document)
  | key :: path =>
      let here := context ++ [key]
      match (document.expect here).openTable? here with
      | none => none
      | some document => document.enter? here path

/-- Writes a value below a table under a dotted key, whatever was there. -/
def store? (document : Document) (number : Nat) (value : Datum) : KeyPath → Option Document
  | [] => none
  | [key] => some (document.put number key value)
  | key :: next :: path =>
      match document.get? number key with
      | none =>
          let (inner, document) := document.newTable
          (document.put number key (.table inner)).store? inner value (next :: path)
      | some (.table inner) => document.store? inner value (next :: path)
      | some _ => none

mutual

/-- The value of a literal that is assigned to a key. An entry of a table is also defined below
the key; inside an array, each table is added to an array of tables there. -/
def evaluate? (document : Document) (context : KeyPath) (key : Key) (inArray : Bool) :
    Literal → Option (Datum × Document)
  | .text content => some (.text content, document)
  | .integer value => some (.integer value, document)
  | .float => some (.float, document)
  | .boolean value => some (.boolean value, document)
  | .moment => some (.moment, document)
  | .array items =>
      match evaluateItems? (document.note context key true) context key items with
      | none => none
      | some (values, document) => some (.array values, document)
  | .table entries =>
      let path := context ++ [key]
      let expecting := document.expect path
      match if inArray then expecting.addTable? path else expecting.openTable? path with
      | none => none
      | some document =>
          let (number, document) := document.newTable
          match evaluateEntries? document path number entries with
          | none => none
          | some document => some (.table number, document)

/-- The values of the items of an array that is assigned to a key. -/
def evaluateItems? (document : Document) (context : KeyPath) (key : Key) :
    List Literal → Option (List Datum × Document)
  | [] => some ([], document)
  | item :: rest =>
      match evaluate? document context key true item with
      | none => none
      | some (value, document) =>
          match evaluateItems? document context key rest with
          | none => none
          | some (values, document) => some (value :: values, document)

/-- Defines entries at a path and writes them into a table as well. -/
def evaluateEntries? (document : Document) (context : KeyPath) (number : Nat) :
    List (KeyPath × Literal) → Option Document
  | [] => some document
  | (path, literal) :: rest =>
      match path.getLast?, document.enter? context path.dropLast with
      | some key, some (inner, document) =>
          match evaluate? document inner key false literal with
          | none => none
          | some (value, document) =>
              match document.define? inner key value with
              | none => none
              | some document =>
                  match (document.note inner key literal.isArray).store? number value path with
                  | none => none
                  | some document => evaluateEntries? document context number rest
      | _, _ => none

end

/-- Assigns a literal to a dotted key in the table that a path leads to. -/
def assign? (document : Document) (context path : KeyPath) (literal : Literal) :
    Option Document :=
  match path.getLast?, document.enter? context path.dropLast with
  | some key, some (inner, document) =>
      match evaluate? document inner key false literal with
      | none => none
      | some (value, document) =>
          (document.define? inner key value).map (·.note inner key literal.isArray)
  | _, _ => none

/-- Adds statements, given the path that the last header opened. -/
def addAll? (document : Document) (context : KeyPath) : List Statement → Option Document
  | [] => some document
  | .openTable path :: rest =>
      match document.openTable? path with
      | none => none
      | some document => (document.note path [] false).addAll? path rest
  | .addTable path :: rest =>
      match document.addTable? path with
      | none => none
      | some document => (document.note path [] false).addAll? path rest
  | .assign path literal :: rest =>
      match document.assign? context path literal with
      | none => none
      | some document => document.addAll? context rest

end Document

/-- The document that a text describes, if it is well-formed and defines nothing twice. -/
def parse? (text : Bytes) : Option Document :=
  (statements? text).bind (Document.empty.addAll? [])

end ClosureLisp.Toml
