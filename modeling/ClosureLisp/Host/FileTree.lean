import ClosureLisp.Host.Files

/-!
# File trees

A file system as a value: what stands at each list of components from the root. Paths are
resolved component by component, so that a double dot behind a file or behind nothing
leads nowhere. `FileTree.files` provides the operations on files over such a value.
-/

namespace ClosureLisp

/-- What stands at a place of a file tree. -/
inductive TreeEntry where
  | file (content : Bytes)
  | directory
  deriving DecidableEq, Repr

/-- A file system; the root is always there. -/
structure FileTree where
  entries : List (List Name × TreeEntry)
  deriving DecidableEq, Repr

namespace FileTree

/-- A file system without files. -/
def empty : FileTree :=
  ⟨[]⟩

/-- What stands at a place. -/
def entry? (tree : FileTree) (place : List Name) : Option TreeEntry :=
  if place.isEmpty then some .directory
  else (tree.entries.find? fun entry => entry.1 = place).map Prod.snd

/-- Puts something at a place. -/
def put (tree : FileTree) (place : List Name) (entry : TreeEntry) : FileTree :=
  ⟨tree.entries.filter (fun other => other.1 ≠ place) ++ [(place, entry)]⟩

/-- Puts a directory at a place where there is nothing. -/
def ensureDirectory (tree : FileTree) (place : List Name) : FileTree :=
  match tree.entry? place with
  | some _ => tree
  | none => tree.put place .directory

/-- Puts directories at a place and at all places above it. -/
def ensureDirectories (tree : FileTree) (place : List Name) : FileTree :=
  (List.range (place.length + 1)).foldl (fun tree count => tree.ensureDirectory (place.take count))
    tree

/-- The names directly below a place. -/
def namesBelow (tree : FileTree) (place : List Name) : List Name :=
  tree.entries.filterMap fun entry =>
    if entry.1.dropLast = place then entry.1.getLast? else none

/-- Follows components from a place. What is passed through has to be a directory. -/
def follow (tree : FileTree) (place : List Name) : List Name → Except FileCause (List Name)
  | [] => .ok place
  | name :: rest =>
      match tree.entry? place with
      | none => .error .missing
      | some (.file _) => .error .notDirectory
      | some .directory =>
          if name.isEmpty || name = Path.current then tree.follow place rest
          else if name = Path.parent then tree.follow place.dropLast rest
          else tree.follow (place ++ [name]) rest

/-- The place that a path leads to, as seen from a directory. -/
def resolve (tree : FileTree) (here : List Name) (path : Path) : Except FileCause (List Name) :=
  if path.isEmpty then .error .missing
  else tree.follow (if Path.isAbsolute path then [] else here) (Path.components path)

/-- What a path leads to. -/
def lookup (tree : FileTree) (here : List Name) (path : Path) :
    Except FileCause (List Name × TreeEntry) :=
  match tree.resolve here path with
  | .error cause => .error cause
  | .ok place =>
      match tree.entry? place with
      | none => .error .missing
      | some entry => .ok (place, entry)

/-- The kind of what a path leads to. -/
def kind? (tree : FileTree) (here : List Name) (path : Path) : Option FileKind :=
  match tree.lookup here path with
  | .ok (_, .file _) => some .file
  | .ok (_, .directory) => some .directory
  | .error _ => none

/-- The names directly below a path. -/
def names (tree : FileTree) (here : List Name) (path : Path) : List Name :=
  match tree.lookup here path with
  | .ok (place, .directory) => tree.namesBelow place
  | _ => []

/-- The content of a file. -/
def read (tree : FileTree) (here : List Name) (path : Path) : Except FileFault Bytes :=
  match tree.lookup here path with
  | .ok (_, .file content) => .ok content
  | .ok (_, .directory) => .error ⟨.reading, path, .isDirectory⟩
  | .error cause => .error ⟨.opening, path, cause⟩

/-- Makes a directory inside an existing one. -/
def makeDirectory (tree : FileTree) (here : List Name) (path : Path) :
    Except FileFault Unit × FileTree :=
  match tree.resolve here path with
  | .error cause => (.error ⟨.making, path, cause⟩, tree)
  | .ok place =>
      match tree.entry? place, tree.entry? place.dropLast with
      | some _, _ => (.error ⟨.making, path, .notDirectory⟩, tree)
      | none, some .directory => (.ok (), tree.put place .directory)
      | none, some (.file _) => (.error ⟨.making, path, .notDirectory⟩, tree)
      | none, none => (.error ⟨.making, path, .missing⟩, tree)

/-- Writes a file, replacing what it held. -/
def write (tree : FileTree) (here : List Name) (path : Path) (content : Bytes) :
    Except FileFault Unit × FileTree :=
  match tree.resolve here path with
  | .error cause => (.error ⟨.opening, path, cause⟩, tree)
  | .ok place =>
      match tree.entry? place, tree.entry? place.dropLast with
      | some .directory, _ => (.error ⟨.opening, path, .isDirectory⟩, tree)
      | some (.file _), _ => (.ok (), tree.put place (.file content))
      | none, some .directory => (.ok (), tree.put place (.file content))
      | none, some (.file _) => (.error ⟨.opening, path, .notDirectory⟩, tree)
      | none, none => (.error ⟨.opening, path, .missing⟩, tree)

/-- The operations on files over a file tree, as seen from a directory. -/
def files (here : List Name) : Files (StateM FileTree) where
  kind? path := return (← get).kind? here path
  names path := return (← get).names here path
  read path := return (← get).read here path
  makeDirectory path := modifyGet fun tree => tree.makeDirectory here path
  write path content := modifyGet fun tree => tree.write here path content

end FileTree

end ClosureLisp
