import GadgetBuild.Overlay.Chain
import GadgetBuild.Overlay.Edit
import GadgetBuild.SourceMap.Basic

/-!
A text cut into segments that are shown in an order of their own, with other texts between them and
in place of them.
-/

namespace GadgetBuild.Overlay

/-- Puts a text among those inserted at the same place before. -/
def Place.add (p : Place) (content old : Text) : Text :=
  match p with
  | .front => content ++ old
  | .back => old ++ content

/-- A part of the text. `lead` and `trail` are shown right before and right behind it, wherever it
goes; `content` is shown in its place. -/
structure Segment where
  start : Nat
  text : Text
  lead : Text
  content : Option Text
  trail : Text
  deriving DecidableEq, Repr

namespace Segment

def stop (s : Segment) : Nat :=
  s.start + s.text.size

/-- What is shown for the text of the segment. -/
def body (s : Segment) : Text :=
  s.content.getD s.text

def render (s : Segment) : Text :=
  s.lead ++ s.body ++ s.trail

/-- An offset that is in the segment but not at its ends. -/
def straddles (s : Segment) (i : Nat) : Bool :=
  s.start < i && i < s.stop

/-- The segment in two parts, if `i` is inside it. -/
def cut (i : Nat) (s : Segment) : List Segment :=
  if s.straddles i then
    [{ s with text := s.text.upTo (i - s.start), trail := [] },
      ⟨i, s.text.beyond (i - s.start), [], s.content.map fun _ => [], s.trail⟩]
  else [s]

/-- Shows nothing for the segment. -/
def wipe (s : Segment) : Segment :=
  { s with lead := [], content := some [], trail := [] }

end Segment

structure Weave where
  segments : List Segment
  chain : Chain
  lead : Text
  trail : Text
  deriving DecidableEq, Repr

namespace Weave

def ofText (t : Text) : Weave :=
  ⟨[⟨0, t, [], none, []⟩], .single 0, [], []⟩

/-- The offset behind the last segment of the text. -/
def size (w : Weave) : Nat :=
  Text.size (w.segments.flatMap (·.text))

/-- Cuts the segment that has `i` inside. -/
def split (i : Nat) (w : Weave) : Weave :=
  match w.segments.find? (·.straddles i) with
  | none => w
  | some s =>
    { w with
      segments := w.segments.flatMap (Segment.cut i)
      chain := w.chain.insertAfter s.start i }

/-- Changes the segments that `which` picks. -/
def modify (which : Segment → Bool) (f : Segment → Segment) (w : Weave) : Weave :=
  { w with segments := w.segments.map fun s => if which s then f s else s }

/-- The segment that ends at `i`, by its start. -/
def endingAt? (w : Weave) (i : Nat) : Option Nat :=
  (w.segments.find? (·.stop = i)).map (·.start)

/-- The segment that starts at `i`, by its start. -/
def startingAt? (w : Weave) (i : Nat) : Option Nat :=
  (w.segments.find? (·.start = i)).map (·.start)

/-- An insertion to the left of the first character stands before everything, and one to the right
of the last behind everything. -/
def insert (side : Side) (place : Place) (i : Nat) (content : Text) (w : Weave) : Weave :=
  match side with
  | .left =>
    if i = 0 then { w with lead := place.add content w.lead }
    else (w.split i).modify (·.stop = i) fun s => { s with trail := place.add content s.trail }
  | .right =>
    if i = w.size then { w with trail := place.add content w.trail }
    else (w.split i).modify (·.start = i) fun s => { s with lead := place.add content s.lead }

/-- The segments shown behind `a` and before `b`, if the links lead from the one to the other. -/
def between (w : Weave) (a b : Nat) : Option (List Nat) :=
  w.chain.walk (some b) w.segments.length (w.chain.next.get a)

/-- Puts `f` of the first segment of a span in its place, and wipes what is shown between the first
and the last. The last of several keeps its text. -/
def replace (span : Span) (f : Segment → Segment) (w : Weave) : Option Weave := do
  let w := (w.split span.start).split span.stop
  let b ← w.endingAt? span.stop
  let w := w.modify (·.start = span.start) f
  if b = span.start then return w
  let inner ← w.between span.start b
  return w.modify (fun s => inner.contains s.start) Segment.wipe

def update (span : Span) (content : Text) (w : Weave) : Option Weave :=
  w.replace span fun s => { s with content := some content }

def remove (span : Span) (w : Weave) : Option Weave :=
  w.replace span Segment.wipe

/-- Shows a span before the segment that starts at `i`, or behind all others. -/
def relocate (span : Span) (i : Nat) (w : Weave) : Option Weave := do
  let w := ((w.split span.start).split span.stop).split i
  let b ← w.endingAt? span.stop
  let chain ← w.chain.move span.start b (w.startingAt? i)
  return { w with chain := chain }

/-- Makes an edit. Where the links do not lead on as they should, there is no outcome. -/
def apply (w : Weave) : Edit → Option Weave
  | .insert side place i content => some (w.insert side place i content)
  | .update span content => if span.start = span.stop then some w else w.update span content
  | .remove span => if span.start = span.stop then some w else w.remove span
  | .relocate span i => if span.start = span.stop then some w else w.relocate span i

/-- The segments in the order in which they are shown, unless the links go round in a circle. A
walk with more steps than there are segments comes to one of them twice. -/
def shown (w : Weave) : Option (List Segment) := do
  let starts ← w.chain.walk none w.segments.length (some w.chain.first)
  return starts.filterMap fun a => w.segments.find? (·.start = a)

def render (w : Weave) : Option Text :=
  w.shown.map fun l => w.lead ++ l.flatMap Segment.render ++ w.trail

end Weave
end GadgetBuild.Overlay
