import GadgetBuild.Text

/-!
White space: the characters with the Unicode property `White_Space`, and texts without it at
their ends.
-/

namespace GadgetBuild

/-- The Unicode property `White_Space`. -/
def isBlank (c : Char) : Bool :=
  let n := c.toNat
  (0x09 ≤ n && n ≤ 0x0D) || n == 0x20 || n == 0x85 || n == 0xA0 || n == 0x1680 ||
    (0x2000 ≤ n && n ≤ 0x200A) || n == 0x2028 || n == 0x2029 || n == 0x202F || n == 0x205F ||
    n == 0x3000

namespace Text

def trimStart (t : Text) : Text :=
  t.dropWhile isBlank

def trimEnd (t : Text) : Text :=
  (t.reverse.dropWhile isBlank).reverse

def trim (t : Text) : Text :=
  trimEnd (trimStart t)

/-- The run of characters that are not blank at the front of a text. -/
def word? (t : Text) : Option (Text × Unit) :=
  match t.takeWhile (fun c => !isBlank c) with
  | [] => none
  | w => some (w, ())

end Text
end GadgetBuild
