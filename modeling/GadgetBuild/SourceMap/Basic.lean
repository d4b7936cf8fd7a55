import GadgetBuild.Json.Basic
import GadgetBuild.SourceMap.Position
import GadgetBuild.SourceMap.Quantity

/-!
Source maps with one source. A map links places of a generated text to places of the source, in
the order of the generated text.
-/

namespace GadgetBuild.SourceMap

/-- A place of the generated text and the place of the source that it comes from. -/
structure Link where
  generated : Position
  source : Position
  deriving DecidableEq, Repr

/-- The difference between two naturals, as a quantity. -/
def difference (new old : Nat) : Text :=
  quantity ((new : Int) - (old : Int))

/-- A link written as its differences from the one before. The column starts anew on each generated
line, and the source is always the first. -/
def Link.since (link before : Link) : Text :=
  let column := if before.generated.line = link.generated.line then before.generated.column else 0
  difference link.generated.column column ++ quantity 0 ++
    difference link.source.line before.source.line ++
    difference link.source.column before.source.column

/-- What stands between two links: a comma on one line, and a semicolon for each line break. -/
def Link.gap (link before : Link) : Text :=
  if link.generated.line = before.generated.line then [',']
  else List.replicate (link.generated.line - before.generated.line) ';'

/-- The links behind `before`. A link equal to the one before it says nothing and is left out. -/
def encodeBehind (before : Link) : List Link → Text
  | [] => []
  | link :: links =>
    if link = before then encodeBehind before links
    else link.gap before ++ link.since before ++ encodeBehind link links

/-- Links in their written form. The first stands as if behind a link between the two starts. -/
def encode : List Link → Text
  | [] => []
  | link :: links =>
    List.replicate link.generated.line ';' ++ link.since ⟨.zero, .zero⟩ ++ encodeBehind link links

end SourceMap

/-- A generated text's links to the source it came from. -/
structure SourceMap where
  source : Text
  content : Text
  links : List SourceMap.Link
  deriving DecidableEq, Repr

/-- A map as the object that is written to files. -/
def SourceMap.value (m : SourceMap) : Json.Value :=
  .object [
    ("version".toList, .number (.integer 3)),
    ("names".toList, .list []),
    ("sources".toList, .list [.text m.source]),
    ("sourcesContent".toList, .list [.text m.content]),
    ("mappings".toList, .text (SourceMap.encode m.links))]

end GadgetBuild
