import GadgetBuild.Overlay.Edit

/-!
Which spans of a text were edited and which were moved, and what that forbids: a character is
edited at most once and moved at most once, nothing goes inside an edited span, and an edit covers
no part of a moved span without lying inside it.
-/

namespace GadgetBuild.Overlay

/-- Spans in increasing order, none of them empty. -/
abbrev Spans := List Span

namespace Spans

def insert (s : Span) : Spans → Spans
  | [] => [s]
  | r :: spans => if r.start < s.start then r :: insert s spans else s :: r :: spans

/-- The last span that begins before `stop`, if it ends behind `start`. For an empty range that is
a span with the offset strictly inside. -/
def meeting (start stop : Nat) (spans : Spans) : Option Span :=
  (spans.filter (fun s => s.start < stop)).getLast?.filter fun s => start < s.stop

end Spans

structure History where
  edited : Spans
  moved : Spans
  deriving DecidableEq, Repr

namespace History

def empty : History := ⟨[], []⟩

/-- A span has to lie in the text and to cut no character. -/
def checkRange (text : Text) (s : Span) : Except Rejection Unit :=
  if s.start ≤ s.stop ∧ s.stop ≤ text.size ∧ Text.isBoundary s.start text ∧
      Text.isBoundary s.stop text then .ok ()
  else .error (.outOfRange s text.size)

/-- Fails when a span was found. -/
def forbid : Option Span → Except Rejection Unit
  | none => .ok ()
  | some s => .error (.overlapping s)

/-- An edited span lies inside one moved span or clear of them all. -/
def checkReplacement (h : History) (s : Span) : Except Rejection Unit := do
  forbid (h.edited.meeting s.start s.stop)
  forbid ((h.moved.meeting s.start s.stop).filter fun m => s.start < m.start ∨ m.stop < s.stop)

def check (text : Text) (h : History) : Edit → Except Rejection Unit
  | .insert _ _ i _ => do
    checkRange text ⟨i, i⟩
    forbid (h.edited.meeting i i)
  | .update s _ => do
    checkRange text s
    if s.start = s.stop then throw (.outOfRange s text.size)
    h.checkReplacement s
  | .remove s => do
    checkRange text s
    if s.start = s.stop then return
    h.checkReplacement s
  | .relocate s i => do
    checkRange text s
    checkRange text ⟨i, i⟩
    if s.start = s.stop then return
    if s.start ≤ i ∧ i ≤ s.stop then throw (.intoItself s i)
    forbid (h.edited.meeting s.start s.start)
    forbid (h.edited.meeting s.stop s.stop)
    forbid (h.edited.meeting i i)
    forbid (h.moved.meeting s.start s.stop)
    forbid (h.moved.meeting i i)

/-- Remembers an accepted edit. Empty spans leave no trace. -/
def record (h : History) : Edit → History
  | .insert _ _ _ _ => h
  | .update s _ => if s.start = s.stop then h else { h with edited := h.edited.insert s }
  | .remove s => if s.start = s.stop then h else { h with edited := h.edited.insert s }
  | .relocate s _ => if s.start = s.stop then h else { h with moved := h.moved.insert s }

end History
end GadgetBuild.Overlay
