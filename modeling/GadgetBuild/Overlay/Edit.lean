import GadgetBuild.Text

/-!
Edits of a text, and why one is rejected. Every offset is one of the text before any edit.
-/

namespace GadgetBuild

/-- The characters from `start` up to `stop`. -/
structure Span where
  start : Nat
  stop : Nat
  deriving DecidableEq, Repr

namespace Overlay

/-- The character that an insertion clings to: the one before its offset or the one behind it. -/
inductive Side where
  | left
  | right
  deriving DecidableEq, Repr

/-- Where an insertion goes among those at the same offset and side. -/
inductive Place where
  | front
  | back
  deriving DecidableEq, Repr

inductive Edit where
  | insert (side : Side) (place : Place) (index : Nat) (content : Text)
  | update (span : Span) (content : Text)
  | remove (span : Span)
  | relocate (span : Span) (index : Nat)
  deriving DecidableEq, Repr

inductive Rejection where
  /-- The edit meets a span that was already edited or moved. -/
  | overlapping (span : Span)
  /-- The target of a move lies in the moved span or at one of its ends. -/
  | intoItself (span : Span) (index : Nat)
  /-- The span is no part of the text, which has `size` bytes. -/
  | outOfRange (span : Span) (size : Nat)
  deriving DecidableEq, Repr

/-- Why an edit has no outcome. -/
inductive Fault where
  /-- Nothing was changed. -/
  | rejected (why : Rejection)
  /-- The links of the segments break off or go round in a circle where the edit follows them. -/
  | stuck
  deriving DecidableEq, Repr

/-- A span in messages. -/
def spanText (s : Span) : Text :=
  Text.ofNat s.start ++ "..".toList ++ Text.ofNat s.stop

def Rejection.message : Rejection → Text
  | .overlapping s =>
    "Cannot edit ".toList ++ spanText s ++ ": the range was already edited".toList
  | .intoItself s i =>
    "Cannot move ".toList ++ spanText s ++ " to ".toList ++ Text.ofNat i ++
      ": the target lies inside the range".toList
  | .outOfRange s n =>
    "Invalid range ".toList ++ spanText s ++ " for source of length ".toList ++ Text.ofNat n

/-- Who is stuck says nothing. -/
def Fault.message : Fault → Text
  | .rejected r => r.message
  | .stuck => []

end Overlay
end GadgetBuild
