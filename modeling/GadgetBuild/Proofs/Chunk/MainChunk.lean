import GadgetBuild.Proofs.Chunk.DynamicImports
import GadgetBuild.Proofs.Chunk.Requires

/-!
The main chunk of a build in two formats. The search from the left, without overlap, comes to a rule
about each call of `import` by itself: a call that the search passes over lies before the end of a
path that is also the nearest one behind it.
-/

namespace GadgetBuild.Chunk

namespace IsNearest

end IsNearest

/-- The files of the chunks that are to be loaded on demand only, in the order of the chunks. -/
def onDemand (s : Settings) (chunks : Table Chunk) : List Text :=
  (s.esmUnhoistChunks.map fun names => unhoisted names chunks).getD []

section

variable {s : Settings} {chunks : Table Chunk} {c : Chunk} {code : Text}
  (hesm : s.esmChunks = true) (hmain : c.name = mainName)

include hesm hmain

theorem render_eq : render s .cjs chunks code c =
    match c.dropBindings (onDemand s chunks) with
    | (c, .error e) => (c, .error e)
    | (c, .ok ()) => ({ c with imports := c.imports.filter (· ∉ onDemand s chunks) }, do
        let (o, removed) ← removeAllRequires code (onDemand s chunks) (.ofText code)
        let o ← redirectImports code removed o
        return some (← (o.trace c.filename).mapError Failure.edit)) := by
  unfold render
  rw [if_neg (by simp [hesm, hmain])]
  rfl

end

end GadgetBuild.Chunk
