import GadgetBuild.Command.FileAccess
import GadgetBuild.Table
import GadgetBuild.Text.Search

/-!
Trees of files, as a directory and what is below it. There is a directory wherever a file lies
below one.
-/

namespace GadgetBuild

inductive FileContent where
  | text (t : Text)
  /-- Bytes that are no text. -/
  | binary
  deriving DecidableEq, Repr

/-- Files by the names on their paths, with slashes between them. -/
abbrev FileTree := Table FileContent

namespace FileTree

/-- Where a path leads: from a directory so many levels above the tree, or in it, by these names. -/
structure Location where
  above : Nat
  names : List Text
  deriving DecidableEq, Repr

/-- What lies at a location. -/
inductive Node where
  | directory
  | file (content : FileContent)
  | missing
  deriving DecidableEq, Repr

def Location.key (l : Location) : Text :=
  List.intercalate ['/'] l.names

/-- One name further. -/
def Location.enter (l : Location) (name : Text) : Location :=
  if name = ".".toList then l
  else if name = "..".toList then
    if l.names = [] then ⟨l.above + 1, []⟩ else ⟨l.above, l.names.dropLast⟩
  else ⟨l.above, l.names ++ [name]⟩

/-- What lies at a location. Nothing is known of what is above the tree but the directories. -/
def node (t : FileTree) (l : Location) : Node :=
  if l.names = [] then .directory
  else if 0 < l.above then .missing
  else
    match t.get? l.key with
    | some content => .file content
    | none => if t.any fun f => (l.key ++ ['/']).isPrefixOf f.1 then .directory else .missing

/-- Follows the names of a path. All but the last have to lead to directories. -/
def follow (t : FileTree) (l : Location) : List Text → Except FileError Location
  | [] => .ok l
  | [name] => .ok (l.enter name)
  | name :: rest =>
    match t.node (l.enter name) with
    | .directory => follow t (l.enter name) rest
    | .file _ => .error .notDirectory
    | .missing => .error .notFound

def locate (t : FileTree) (path : Text) : Except FileError Location :=
  let start : Location := if path.head? = some '/' then ⟨1, []⟩ else ⟨0, []⟩
  t.follow start ((path.pieces ['/']).filter (· ≠ []))

/-- A path that names a directory by its form. -/
def endsInSlash (path : Text) : Bool :=
  path.getLast? = some '/'

def read (t : FileTree) (path : Text) : Except FileError Text := do
  let l ← t.locate path
  match t.node l with
  | .directory => throw .isDirectory
  | .missing => throw .notFound
  | .file content =>
    if endsInSlash path then throw .notDirectory
    match content with
    | .text text => return text
    | .binary => throw .notUtf8

/-- The tree with a text in a file. A file above the tree is written and forgotten. -/
def write (t : FileTree) (path content : Text) : Except FileError FileTree := do
  let l ← t.locate path
  if t.node l = .directory ∨ endsInSlash path then throw .isDirectory
  if 0 < l.above then return t
  return t.put l.key (.text content)

/-- Access to the files of a tree that is threaded through. -/
def access : FileAccess (StateM FileTree) where
  read path := do return (← get).read path
  write path content := do
    match (← get).write path content with
    | .error e => return .error e
    | .ok t =>
      set t
      return .ok ()

/-- The files of a tree that another does not have, or has with other contents. -/
def changes (before after : FileTree) : List (Text × FileContent) :=
  after.filter fun f => before.get? f.1 ≠ some f.2

end FileTree
end GadgetBuild
