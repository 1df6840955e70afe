import ClosureLisp.Bundle.Compile
import ClosureLisp.Bundle.Wire
import ClosureLisp.Canon.Encode

/-!
# Bundle stores

Compiled programs kept by the identity of the program, so that a program that differs from
a kept one in layout or local names only is not compiled again. Bundles are kept as bytes,
and one that turns out not to be safe to run is dropped when it is asked for.
-/

namespace ClosureLisp

/-- What was being done with a store. -/
inductive StoreAction where
  | querying
  | saving
  | deleting
  | listing
  deriving DecidableEq, Repr

/-- Why a store gives no answer. -/
inductive StoreFault where
  | notFound
  | closed (action : StoreAction)
  deriving DecidableEq, Repr

/-- The wording of a store fault. -/
def StoreFault.message : StoreFault → Bytes
  | .notFound => utf8 "cache: bundle not found"
  | .closed action =>
      (match action with
        | .querying => utf8 "querying bundle"
        | .saving => utf8 "saving bundle"
        | .deleting => utf8 "deleting bundle"
        | .listing => utf8 "listing bundles") ++ utf8 ": sql: database is closed"

/-- Bundles by key, in the order of the keys. -/
structure BundleStore where
  entries : List (Digest × Bytes)
  isOpen : Bool
  deriving DecidableEq

namespace BundleStore

/-- An open store without bundles. -/
def empty : BundleStore :=
  ⟨[], true⟩

/-- The bytes kept under a key. -/
def data? (store : BundleStore) (key : Digest) : Option Bytes :=
  (store.entries.find? fun entry => entry.1 = key).map Prod.snd

/-- Entries without a key. -/
def without (key : Digest) (entries : List (Digest × Bytes)) : List (Digest × Bytes) :=
  entries.filter fun entry => entry.1 ≠ key

/-- Entries with one more, at its place in the order. -/
def insert (key : Digest) (data : Bytes) : List (Digest × Bytes) → List (Digest × Bytes)
  | [] => [(key, data)]
  | entry :: rest =>
      if Bytes.lexLE entry.1.toBytes key.toBytes then entry :: insert key data rest
      else (key, data) :: entry :: rest

/-- Keeps bytes under a key, in place of others. -/
def withData (store : BundleStore) (key : Digest) (data : Bytes) : BundleStore :=
  { store with entries := insert key data (without key store.entries) }

/-- Drops a key. -/
def dropKey (store : BundleStore) (key : Digest) : BundleStore :=
  { store with entries := without key store.entries }

/-- The bundle under a key. One that is not safe to run is dropped and counts as missing. -/
def get (store : BundleStore) (key : Digest) : Except StoreFault Bundle × BundleStore :=
  if store.isOpen then
    match store.data? key with
    | none => (.error .notFound, store)
    | some data =>
        match Bundle.decode data with
        | .ok bundle => (.ok bundle, store)
        | .error _ => (.error .notFound, store.dropKey key)
  else (.error (.closed .querying), store)

/-- Keeps a bundle under a key. -/
def put (store : BundleStore) (key : Digest) (bundle : Bundle) :
    Except StoreFault Unit × BundleStore :=
  if store.isOpen then (.ok (), store.withData key bundle.encode)
  else (.error (.closed .saving), store)

/-- Drops the bundle under a key, if there is one. -/
def delete (store : BundleStore) (key : Digest) : Except StoreFault Unit × BundleStore :=
  if store.isOpen then (.ok (), store.dropKey key) else (.error (.closed .deleting), store)

/-- The keys in order, each with the number of bytes kept under it. -/
def list (store : BundleStore) : Except StoreFault (List (Digest × Nat)) :=
  if store.isOpen then .ok (store.entries.map fun (key, data) => (key, data.length))
  else .error (.closed .listing)

/-- Replaces the bytes under a key that is there, behind the back of the store. -/
def tamper (store : BundleStore) (key : Digest) (data : Bytes) : Bool × BundleStore :=
  match store.data? key with
  | none => (false, store)
  | some _ => (true, store.withData key data)

/-- A closed store. -/
def close (store : BundleStore) : BundleStore :=
  { store with isOpen := false }

/-- An open store. -/
def reopen (store : BundleStore) : BundleStore :=
  { store with isOpen := true }

/-- The bundle of a program: the kept one, or else a newly compiled one, which is then kept. -/
def compileExprs (store : BundleStore) (source : Bytes) (exprs : List Expr) :
    Except SourceError Bundle × BundleStore :=
  let key := Canon.programDigest exprs
  match store.get key with
  | (.ok bundle, store) => (.ok bundle, store)
  | (.error _, store) =>
      match Bundle.ofExprs source exprs with
      | .error error => (.error error, store)
      | .ok bundle => (.ok bundle, (store.put key bundle).2)

/-- Reads a source and compiles it with a store. -/
def compile (store : BundleStore) (source : Bytes) : Except SourceError Bundle × BundleStore :=
  match Reader.parse source with
  | .error error => (.error error, store)
  | .ok exprs => store.compileExprs source exprs

/-! ## Stores as files -/

/-- The first line of a file that holds a store. -/
def fileHeader : Bytes := utf8 "closure lisp bundle store\n"

/-- A store as the content of a file. -/
def toFile (store : BundleStore) : Bytes :=
  fileHeader ++
    (Cbor.Item.map (store.entries.map fun (key, data) => (.bytes key.toBytes, .bytes data))).encode

/-- An entry of a store. -/
def entry? : Cbor.Item × Cbor.Item → Option (Digest × Bytes)
  | (.bytes key, .bytes data) => some (Digest.ofBytes key, data)
  | _ => none

/-- The store that the content of a file describes. An empty file is an empty store. -/
def ofFile? (content : Bytes) : Option BundleStore :=
  if content.isEmpty then some empty
  else
    match (Bytes.dropLeading? fileHeader content).bind Cbor.Item.decode? with
    | some (.map pairs) => (pairs.mapM entry?).map fun entries => ⟨entries, true⟩
    | _ => none

end BundleStore

end ClosureLisp
