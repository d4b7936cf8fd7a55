import GadgetBuild.Text

/-!
Variable-length quantities: an integer in digits of five bits, the lowest first, each but the last
marked as continued. The sign is the lowest bit of all.
-/

namespace GadgetBuild.SourceMap

/-- The digit of six bits. -/
def digitChar (n : Nat) : Char :=
  if n < 26 then Char.ofNat (0x41 + n)
  else if n < 52 then Char.ofNat (0x61 + (n - 26))
  else if n < 62 then Char.ofNat (0x30 + (n - 52))
  else if n = 62 then '+'
  else '/'

def quantityDigits (n : Nat) : Text :=
  if h : n < 32 then [digitChar n]
  else digitChar (32 + n % 32) :: quantityDigits (n / 32)
termination_by n
decreasing_by omega

/-- An integer as a variable-length quantity. -/
def quantity (d : Int) : Text :=
  quantityDigits (if d < 0 then 2 * d.natAbs + 1 else 2 * d.natAbs)

end GadgetBuild.SourceMap
