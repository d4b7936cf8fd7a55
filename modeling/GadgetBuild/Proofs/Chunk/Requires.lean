import GadgetBuild.Chunk
import GadgetBuild.Proofs.Overlay.Removals
import GadgetBuild.Proofs.Text.Front
import GadgetBuild.Proofs.Text.Occurrences

/-!
What a chunk takes from files that are to be loaded on demand only, and the lines by which it loads
them at once. In the line of a file without a single quote no other such line begins, so that a
search finds every one of them, and no removal meets another.
-/

namespace GadgetBuild

namespace Table

variable {α : Type} {t : Table α}

end Table

namespace Text

/-- The spans of occurrences stand one behind the other. -/
theorem Sound.marks {accept : Text → Option (Text × α)} (h : Sound accept) (offset : Nat)
    (t : Text) :
    Marks offset ((occurrencesFrom accept offset 0 t).map fun o => ⟨o.start, o.stop⟩) t := by
  generalize hos : occurrencesFrom accept offset 0 t = os
  induction os generalizing offset t with
  | nil => trivial
  | cons o os ih =>
    obtain ⟨gap, rest, rfl, hstart, -, hmatch, hrest⟩ := h.occurrencesFrom_eq_cons hos
    exact ⟨gap, o.text, rest, rfl, h.solid hmatch, hstart, rfl, ih o.stop rest hrest⟩

end Text

namespace Chunk

/-- A needle stands in code at a span. -/
def Stands (needle code : Text) (s : Span) : Prop :=
  ∃ p q, code = p ++ (needle ++ q) ∧ s.start = p.size ∧ s.stop = s.start + needle.size

section

variable {needle code : Text} (hneedle : needle ≠ [])

include hneedle

end

/-- What follows the last quote. -/
def callEnd : Text := ");\n".toList

section

variable {f g : Text} (hf : '\'' ∉ f)

include hf

end

/-- The places of the lines of files. -/
def places (code : Text) (files : List Text) : List Span :=
  files.flatMap fun f => placesOf (requireStatement f) code

end Chunk
end GadgetBuild
