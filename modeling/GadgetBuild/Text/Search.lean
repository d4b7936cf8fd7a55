import GadgetBuild.Text

/-!
Searching a text from the left, without overlap: the pieces between the occurrences of a needle,
and the occurrences of any shape that a recogniser accepts.
-/

namespace GadgetBuild.Text

/-- The pieces of a text between the occurrences of `needle`. The first argument counts the
characters of the last occurrence that are still to be passed over. -/
def piecesFrom (needle : Text) : Nat → Text → List Text
  | _, [] => [[]]
  | skip + 1, _ :: t => piecesFrom needle skip t
  | 0, c :: t =>
    if needle.isPrefixOf (c :: t) then [] :: piecesFrom needle (needle.length - 1) t
    else
      match piecesFrom needle 0 t with
      | [] => [[c]]
      | p :: ps => (c :: p) :: ps

def pieces (t needle : Text) : List Text :=
  piecesFrom needle 0 t

/-- How often `needle` occurs. -/
def count (t needle : Text) : Nat :=
  (t.pieces needle).length - 1

/-- Every occurrence of `needle` gives way to `new`. -/
def replace (t needle new : Text) : Text :=
  List.intercalate new (t.pieces needle)

/-- A stretch of a text that a recogniser accepted, and what it stands for. -/
structure Occurrence (α : Type) where
  start : Nat
  text : Text
  value : α
  deriving DecidableEq, Repr

/-- The offset behind an occurrence. -/
def Occurrence.stop {α : Type} (o : Occurrence α) : Nat :=
  o.start + size o.text

/-- The occurrences of what `accept` recognises at the front of a text. `offset` is where the text
begins, and the second number counts the characters of the last occurrence still to be passed. -/
def occurrencesFrom {α : Type} (accept : Text → Option (Text × α)) :
    Nat → Nat → Text → List (Occurrence α)
  | _, _, [] => []
  | offset, skip + 1, c :: t => occurrencesFrom accept (offset + c.utf8Size) skip t
  | offset, 0, c :: t =>
    match accept (c :: t) with
    | none => occurrencesFrom accept (offset + c.utf8Size) 0 t
    | some (found, value) =>
      ⟨offset, found, value⟩ ::
        occurrencesFrom accept (offset + c.utf8Size) (found.length - 1) t

def occurrences {α : Type} (accept : Text → Option (Text × α)) (t : Text) : List (Occurrence α) :=
  occurrencesFrom accept 0 0 t

end GadgetBuild.Text
