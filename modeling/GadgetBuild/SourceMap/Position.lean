import GadgetBuild.Text

/-!
Places in a text as a source map counts them: lines end at line feeds only, and columns are
UTF-16 units.
-/

namespace GadgetBuild.SourceMap

structure Position where
  line : Nat
  column : Nat
  deriving DecidableEq, Repr

namespace Position

def zero : Position := ⟨0, 0⟩

/-- The UTF-16 units of a character. -/
def units (c : Char) : Nat :=
  if c.toNat < 0x10000 then 1 else 2

/-- The place behind a character. -/
def step (p : Position) (c : Char) : Position :=
  if c = '\n' then ⟨p.line + 1, 0⟩ else ⟨p.line, p.column + units c⟩

/-- The place behind a text. -/
def advance (p : Position) (t : Text) : Position :=
  t.foldl step p

@[simp] theorem advance_nil (p : Position) : p.advance [] = p := rfl

@[simp] theorem advance_cons (p : Position) (c : Char) (t : Text) :
    p.advance (c :: t) = (p.step c).advance t := rfl

@[simp] theorem advance_append (p : Position) (s t : Text) :
    p.advance (s ++ t) = (p.advance s).advance t := by
  simp [advance, List.foldl_append]

end Position
end GadgetBuild.SourceMap
