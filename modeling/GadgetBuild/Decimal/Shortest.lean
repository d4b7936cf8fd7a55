import GadgetBuild.Text
import GadgetBuild.Decimal.Binary64

/-!
The shortest decimal that reads back as a double, and its text.
-/

namespace GadgetBuild.Decimal

/-- The decimal `digits * 10 ^ exponent`. -/
structure Scaled where
  digits : Nat
  exponent : Int
  deriving DecidableEq, Repr

/-- How the text of a decimal is laid out. -/
structure Layout where
  /-- The exponents of the leading digit that are written without an exponent part. -/
  leastPositional : Int
  greatestPositional : Int

namespace Binary64

/-- Four times the mantissa, with the ends of the interval of reals that round to the double, all in
units of a quarter of the last place. Below a power of two the doubles are twice as dense. -/
def interval (x : Binary64) : Nat × Nat × Nat :=
  let m := 4 * x.mantissa
  let below := if x.mantissa = twoTo 52 ∧ leastExponent < x.exponent then 1 else 2
  (m - below, m, m + 2)

/-- The exponent of the leading decimal digit of a quotient that is not zero. -/
def leadingExponent (num den : Nat) : Nat → Int
  | 0 => 0
  | tries + 1 =>
    if den ≤ num then ((Nat.toDigits 10 (num / den)).length : Int) - 1
    else leadingExponent (num * 10) den tries - 1

/-- The decimal of `places` digits that is nearest to the double and reads back as it. -/
def onGrid (x : Binary64) (leading : Int) (places : Nat) : Option Scaled :=
  let unit : Int := leading + 1 - places
  let (low, mid, high) := x.interval
  let quarter : Int := x.exponent - 2
  -- both sides of a comparison are scaled to naturals: `left` counts quarters, `right` grid units
  let left := (if 0 ≤ quarter then twoTo quarter.toNat else 1) *
    (if 0 ≤ unit then 1 else tenTo (-unit).toNat)
  let right := (if 0 ≤ quarter then 1 else twoTo (-quarter).toNat) *
    (if 0 ≤ unit then tenTo unit.toNat else 1)
  let even := x.mantissa % 2 = 0
  let fits (d : Nat) : Bool :=
    let p := d * right
    if even then low * left ≤ p && p ≤ high * left else low * left < p && p < high * left
  let d := mid * left / right
  let gapBelow := mid * left - d * right
  let gapAbove := (d + 1) * right - mid * left
  match fits d, fits (d + 1) with
  | false, false => none
  | true, false => some ⟨d, unit⟩
  | false, true => some ⟨d + 1, unit⟩
  | true, true =>
    some ⟨if gapBelow < gapAbove then d else if gapAbove < gapBelow then d + 1 else d + d % 2, unit⟩

/-- The shortest decimal that reads back; seventeen digits always do. -/
def shortest (x : Binary64) : Scaled :=
  if x.mantissa = 0 then ⟨0, 0⟩
  else
    let (num, den) := x.fraction
    let leading := leadingExponent num den 400
    ((List.range 17).findSome? fun n => onGrid x leading (n + 1)).getD ⟨0, 0⟩

end Binary64

/-- Trailing zeros of the digits move into the exponent. -/
def Scaled.stripped (s : Scaled) : Scaled :=
  let text := Nat.toDigits 10 s.digits
  let zeros := (text.reverse.takeWhile (· = '0')).length
  if s.digits = 0 then s else ⟨s.digits / tenTo zeros, s.exponent + zeros⟩

/-- The text of a decimal in a layout. An integral value ends in `.0`, and an exponent has its sign
and no leading zeros. -/
def Scaled.text (layout : Layout) (s : Scaled) : Text :=
  let s := s.stripped
  let digits := Nat.toDigits 10 s.digits
  let count : Int := digits.length
  let leading : Int := s.exponent + count - 1
  if s.digits = 0 then "0.0".toList
  else if layout.leastPositional ≤ leading ∧ leading ≤ layout.greatestPositional then
    if count - 1 ≤ leading then
      digits ++ List.replicate s.exponent.toNat '0' ++ ".0".toList
    else if 0 ≤ leading then
      digits.take (leading.toNat + 1) ++ '.' :: digits.drop (leading.toNat + 1)
    else
      "0.".toList ++ List.replicate (-leading - 1).toNat '0' ++ digits
  else
    digits.take 1 ++ (if digits.length = 1 then [] else '.' :: digits.drop 1) ++
      'e' :: (if leading < 0 then '-' else '+') :: Text.ofNat leading.natAbs

/-- The text of a double. -/
def Binary64.text (layout : Layout) (x : Binary64) : Text :=
  (if x.negative then ['-'] else []) ++ x.shortest.text layout

end GadgetBuild.Decimal
