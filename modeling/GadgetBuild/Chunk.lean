import GadgetBuild.Failure
import GadgetBuild.Format
import GadgetBuild.Json.Quote
import GadgetBuild.Overlay.Tracing
import GadgetBuild.Settings
import GadgetBuild.Table
import GadgetBuild.Text.Blank
import GadgetBuild.Text.Search

/-!
Chunks of a build in two formats. The main chunk is shipped in the one format and loads the others
in the other one.
-/

namespace GadgetBuild

/-- What a chunk is and what it takes from others. -/
structure Chunk where
  name : Text
  filename : Text
  isEntry : Bool
  /-- The files that are imported. -/
  imports : List Text
  /-- The names that are taken from each. -/
  importedBindings : Table (List Text)
  deriving DecidableEq, Repr

namespace Chunk

/-- The chunk that holds the entry. -/
def mainName : Text := "main".toList

/-- The files of the chunks that are to be loaded on demand only. -/
def unhoisted (names : List Text) (chunks : Table Chunk) : List Text :=
  (chunks.filter fun c => c.2.name ∈ names).map (·.1)

/-- Drops the bindings of files from which nothing is taken, up to the first that is in use. -/
def dropBindings (c : Chunk) : List Text → Chunk × Except Failure Unit
  | [] => (c, .ok ())
  | file :: files =>
    match c.importedBindings.get? file with
    | some (_ :: _) => (c, .error (.unhoistedChunkInUse file))
    | _ => dropBindings { c with importedBindings := c.importedBindings.erase file } files

/-- The line by which a file is loaded at once. -/
def requireStatement (file : Text) : Text :=
  "require('./".toList ++ file ++ "');\n".toList

/-- The places of a needle in code. -/
def placesOf (needle code : Text) : List Span :=
  (code.occurrences fun t => (Text.after? needle t).map fun _ => (needle, ())).map fun o =>
    ⟨o.start, o.stop⟩

/-- Removes the lines that load a file at once. There has to be one. -/
def removeRequires (code file : Text) (o : Overlay) : Except Failure (Overlay × List Span) := do
  let places := placesOf (requireStatement file) code
  let o ← (o.applyAll (places.map .remove)).mapError Failure.edit
  if places = [] then throw (.unhoistedRequireNotFound (requireStatement file))
  return (o, places)

/-- Removes the lines that load each of the files, and tells where they were. -/
def removeAllRequires (code : Text) : List Text → Overlay → Except Failure (Overlay × List Span)
  | [], o => .ok (o, [])
  | file :: files, o => do
    let (o, places) ← removeRequires code file o
    let (o, others) ← removeAllRequires code files o
    return (o, places ++ others)

/-- The end of a path to a file of the one format, with the closing quote and parenthesis. -/
def pathEnd? (t : Text) : Option Text := do
  let t ← Text.after? ".cjs".toList t
  match t with
  | q :: t =>
    if q ≠ '"' ∧ q ≠ '\'' then none
    match t with
    | ')' :: _ => return ".cjs".toList ++ [q, ')']
    | b :: ')' :: _ => if isBlank b then return ".cjs".toList ++ [q, b, ')'] else none
    | _ => none
  | [] => none

/-- The nearest end of a path behind at least one character of the line: the characters before it,
and the end itself. -/
def nearestPathEnd? : Text → Option (Text × Text)
  | [] => none
  | c :: t =>
    if c = '\n' then none
    else
      match pathEnd? t with
      | some e => some ([c], e)
      | none => (nearestPathEnd? t).map fun (before, e) => (c :: before, e)

/-- A dynamic import of a file of the one format, and the offset in it of the first letter of the
extension. -/
def dynamicImport? (t : Text) : Option (Text × Nat) := do
  let lead := "import(".toList
  let t ← Text.after? lead t
  let (before, e) ← nearestPathEnd? t
  return (lead ++ before ++ e, Text.size (lead ++ before ++ ['.']))

/-- Turns the files of dynamic imports into those of the other format. A match may run into a line
that was removed. -/
def redirectImports (code : Text) (removed : List Span) (o : Overlay) : Except Failure Overlay := do
  let letters := (code.occurrences dynamicImport?).map fun i => i.start + i.value
  let letters := letters.filter fun i => removed.all fun s => i < s.start || s.stop ≤ i
  (o.applyAll (letters.map fun i => .remove ⟨i, i + 1⟩)).mapError Failure.edit

/-- The chunk and its code as they are written out. Only the main chunk of a build in two formats
changes; what was dropped from it before a failure stays dropped. -/
def render (s : Settings) (format : Format) (chunks : Table Chunk) (code : Text) (c : Chunk) :
    Chunk × Except Failure (Option Traced) :=
  if format ≠ .cjs ∨ !s.esmChunks ∨ c.name ≠ mainName then (c, .ok none)
  else
    let files := (s.esmUnhoistChunks.map fun names => unhoisted names chunks).getD []
    match c.dropBindings files with
    | (c, .error e) => (c, .error e)
    | (c, .ok ()) =>
      let c := { c with imports := c.imports.filter (· ∉ files) }
      let result := do
        let (o, removed) ← removeAllRequires code files (.ofText code)
        let o ← redirectImports code removed o
        return some (← (o.trace c.filename).mapError Failure.edit)
      (c, result)

/-- What stands before and behind the path of a dynamic import in a build in two formats. -/
def aroundDynamicImport (s : Settings) : Option (Text × Text) :=
  if s.esmChunks then some ("import(".toList ++ Json.quote s.baseUrl ++ " + ".toList, [')'])
  else none

end Chunk
end GadgetBuild
