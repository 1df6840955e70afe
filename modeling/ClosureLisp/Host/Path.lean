import ClosureLisp.Source.Token

/-!
# Paths

Paths of files, with slashes between their components. `Path.clean` gives the shortest
path with the same meaning as far as the text alone shows it: empty components and single
dots go away, and a double dot cancels the component in front of it.
-/

namespace ClosureLisp

/-- A path of a file or directory. -/
abbrev Path := Bytes

namespace Path

/-- The byte between two components. -/
def slash : UInt8 := Bytes.ascii '/'

/-- The path of the current directory. -/
def current : Path := utf8 "."

/-- The component that leads to the parent directory. -/
def parent : Name := utf8 ".."

/-- Whether a path starts at the root. -/
def isAbsolute (path : Path) : Bool :=
  path.head? == some slash

/-- The components of a path. The first one of an absolute path is empty. -/
def components (path : Path) : List Name :=
  Bytes.splitOn slash path

/-- Components as a path. -/
def ofComponents (names : List Name) : Path :=
  Bytes.join [slash] names

/-- Adds a component to those kept so far, the latest first. -/
def cleanStep (rooted : Bool) (kept : List Name) (name : Name) : List Name :=
  if name.isEmpty || name = current then kept
  else if name = parent then
    match kept with
    | [] => if rooted then [] else [parent]
    | last :: rest => if last = parent then parent :: kept else rest
  else name :: kept

/-- The shortest path with the same meaning. -/
def clean (path : Path) : Path :=
  let kept := (components path).foldl (cleanStep (isAbsolute path)) []
  let body := ofComponents kept.reverse
  if isAbsolute path then slash :: body else if kept.isEmpty then current else body

/-- A path below another one. The second path is never taken for an absolute one. -/
def join (first second : Path) : Path :=
  if first.isEmpty && second.isEmpty then []
  else if first.isEmpty then clean second
  else clean (first ++ slash :: second)

/-- The last component of a path. -/
def base (path : Path) : Name :=
  if path.isEmpty then current
  else
    match (components path).reverse.dropWhile List.isEmpty with
    | [] => [slash]
    | name :: _ => name

/-- The path without its last component. -/
def directory (path : Path) : Path :=
  match (components path).dropLast with
  | [] => current
  | names => clean (ofComponents names ++ [slash])

/-- A path as seen from the root, given the current directory. -/
def absolute (here path : Path) : Path :=
  if isAbsolute path then clean path else join here path

/-- The leading parts of components in front of which the given ones stand, longest first. -/
def leadingFrom (before : List Name) : List Name → List Path
  | [] => []
  | name :: rest =>
      let path := before ++ [name]
      leadingFrom path rest ++ (if path = [[]] then [] else [ofComponents path])

/-- The path itself, its parent, and so on, without the root. -/
def leadingParts (path : Path) : List Path :=
  leadingFrom [] (components path)

/-- A clean absolute path, its parent, and so on up to the root. -/
def ancestors (path : Path) : List Path :=
  (leadingParts path).filter (· ≠ [slash]) ++ [[slash]]

end Path

end ClosureLisp
