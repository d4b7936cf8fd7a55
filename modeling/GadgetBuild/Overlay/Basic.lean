import GadgetBuild.Overlay.History
import GadgetBuild.Overlay.Weave

/-!
Overlays: a text under edits. Each edit names offsets of that text, however many edits were
made before, and a rejected edit changes nothing.
-/

namespace GadgetBuild

structure Overlay where
  text : Text
  weave : Overlay.Weave
  history : Overlay.History
  deriving DecidableEq, Repr

namespace Overlay

def ofText (t : Text) : Overlay :=
  ⟨t, .ofText t, .empty⟩

def apply (o : Overlay) (e : Edit) : Except Fault Overlay := do
  (o.history.check o.text e).mapError .rejected
  match o.weave.apply e with
  | none => throw .stuck
  | some w => return { o with weave := w, history := o.history.record e }

/-- Applies edits in turn, up to the first that has no outcome. -/
def applyAll (o : Overlay) (edits : List Edit) : Except Fault Overlay :=
  edits.foldlM apply o

/-- The text under its edits, if it comes to an end. -/
def render (o : Overlay) : Option Text :=
  o.weave.render

end Overlay
end GadgetBuild
