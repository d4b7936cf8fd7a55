/-!
The order in which the segments of a text are shown, as links from each segment to its neighbours.
A segment goes by the offset where it starts.
-/

namespace GadgetBuild.Overlay

/-- Neighbours by segment; the entry set last counts. -/
abbrev Links := List (Nat × Option Nat)

namespace Links

def get (l : Links) (a : Nat) : Option Nat :=
  match l with
  | [] => none
  | (k, v) :: l => if k = a then v else get l a

def set (l : Links) (a : Nat) (v : Option Nat) : Links :=
  (a, v) :: l

/-- Sets the neighbour of a segment that may be missing. -/
def setAt (l : Links) (a : Option Nat) (v : Option Nat) : Links :=
  match a with
  | none => l
  | some a => l.set a v

end Links

structure Chain where
  first : Nat
  last : Nat
  next : Links
  prev : Links
  deriving DecidableEq, Repr

namespace Chain

/-- The chain of one segment. -/
def single (a : Nat) : Chain :=
  ⟨a, a, [], []⟩

/-- Puts the new segment `b` right behind `a`. -/
def insertAfter (c : Chain) (a b : Nat) : Chain where
  first := c.first
  last := if c.last = a then b else c.last
  next := (c.next.set b (c.next.get a)).set a (some b)
  prev := (c.prev.setAt (c.next.get a) (some b)).set b (some a)

/-- Takes the run from `a` to `b` out of its place and links it in before `target`, or last. The
links are set one after the other, each as the ones before left it. There is no outcome when the run
has to leave an end of the chain to its neighbour on the other side, and has none. -/
def move (c : Chain) (a b : Nat) (target : Option Nat) : Option Chain :=
  if target = none ∧ c.last = b then some c
  else do
    let oldLeft := c.prev.get a
    let oldRight := c.next.get b
    let newLeft := target.elim (some c.last) c.prev.get
    let next := (c.next.setAt oldLeft oldRight).setAt newLeft (some a)
    let prev := (c.prev.setAt oldRight oldLeft).setAt target (some b)
    let first ← (if prev.get a = none then next.get b else some c.first)
    let last ← (if next.get b = none then prev.get a else some c.last)
    return {
      first := if newLeft = none then a else first
      last := if target = none then b else last
      next := next.set b target
      prev := prev.set a newLeft }

/-- The segments from a link on up to `stop`, or up to the last one. There is no answer when `n`
steps do not lead there. -/
def walk (c : Chain) (stop : Option Nat) : Nat → Option Nat → Option (List Nat)
  | 0, link => if link = stop then some [] else none
  | n + 1, link =>
    if link = stop then some []
    else do
      let a ← link
      return a :: (← c.walk stop n (c.next.get a))

end Chain
end GadgetBuild.Overlay
