import GadgetBuild.Overlay.Basic

/-!
The source map of an overlay. Text that was kept is linked at the start of each of its lines in a
segment, new text in place of old is linked as a whole, and inserted text is linked nowhere.
-/

namespace GadgetBuild.Overlay

open SourceMap (Position Link)

/-- Links the first character of each line that is not a line feed itself. `fresh` says that the
line has no link yet. -/
def linksOfLines (fresh : Bool) (generated source : Position) : Text → List Link
  | [] => []
  | c :: t =>
    if c = '\n' then linksOfLines true (generated.step c) (source.step c) t
    else if fresh then
      ⟨generated, source⟩ :: linksOfLines false (generated.step c) (source.step c) t
    else linksOfLines false (generated.step c) (source.step c) t

namespace Segment

/-- The links of what is shown for the segment, which starts at the two positions. -/
def links (s : Segment) (generated source : Position) : List Link :=
  match s.content with
  | none => linksOfLines true generated source s.text
  | some [] => []
  | some (_ :: _) => [⟨generated, source⟩]

end Segment

/-- The links of segments shown one behind the other. -/
def linksOf (origin : Nat → Position) : Position → List Segment → List Link
  | _, [] => []
  | generated, s :: rest =>
    let body := generated.advance s.lead
    s.links body (origin s.start) ++
      linksOf origin ((body.advance s.body).advance s.trail) rest

/-- The place in the text where a segment starts. -/
def Weave.origin (w : Weave) (start : Nat) : Position :=
  Position.zero.advance ((w.segments.takeWhile (·.start ≠ start)).flatMap (·.text))

def Weave.links (w : Weave) : Option (List Link) :=
  w.shown.map (linksOf w.origin (Position.zero.advance w.lead))

/-- The source map from the rendered text back to the text. -/
def sourceMap (o : Overlay) (source : Text) : Option SourceMap :=
  o.weave.links.map fun links => ⟨source, o.text, links⟩

end GadgetBuild.Overlay

namespace GadgetBuild

/-- Code with the map to the source it was made of. -/
structure Traced where
  code : Text
  map : SourceMap
  deriving DecidableEq, Repr

def Overlay.trace (o : Overlay) (source : Text) : Except Overlay.Fault Traced :=
  match o.render, o.sourceMap source with
  | some code, some map => .ok ⟨code, map⟩
  | _, _ => .error .stuck

end GadgetBuild
