/-!
Finite doubles in exact arithmetic. Every operation is the exact result rounded to the nearest
double, ties to the even one; a result past the largest double is `none`.
-/

namespace GadgetBuild.Decimal

/-- A power of two. -/
def twoTo (n : Nat) : Nat :=
  Nat.pow 2 n

/-- A power of ten. -/
def tenTo (n : Nat) : Nat :=
  Nat.pow 10 n

/-- The double `mantissa * 2 ^ exponent`, negative or not. The mantissa is below `2 ^ 53`, and at
least `2 ^ 52` unless the exponent is the least one. -/
structure Binary64 where
  negative : Bool
  mantissa : Nat
  exponent : Int
  deriving DecidableEq, Repr

namespace Binary64

def leastExponent : Int := -1074

def greatestExponent : Int := 971

/-- The quotient rounded to the nearest integer, a tie to the even one. -/
def roundQuotient (num den : Nat) : Nat :=
  let q := num / den
  let twice := 2 * (num % den)
  if twice < den then q
  else if den < twice then q + 1
  else if q % 2 = 0 then q else q + 1

/-- The quotient in units of `2 ^ exponent`, as a fraction of naturals. -/
def inUnits (num den : Nat) (exponent : Int) : Nat × Nat :=
  if 0 ≤ exponent then (num, den * twoTo exponent.toNat)
  else (num * twoTo (-exponent).toNat, den)

/-- The exponent that gives a quotient a mantissa of 53 bits, or the least exponent. -/
def exponentFor (num den : Nat) : Int :=
  let high : Int := (Nat.log2 num : Int) - Nat.log2 den - 52
  let (n, d) := inUnits num den high
  max leastExponent (if n / d < twoTo 52 then high - 1 else high)

/-- The double nearest to a quotient. -/
def nearest (negative : Bool) (num den : Nat) : Option Binary64 :=
  if num = 0 then some ⟨negative, 0, leastExponent⟩
  else
    let e := exponentFor num den
    let (n, d) := inUnits num den e
    let m := roundQuotient n d
    let (m, e) := if m = twoTo 53 then (twoTo 52, e + 1) else (m, e)
    if greatestExponent < e then none else some ⟨negative, m, e⟩

/-- The magnitude as a fraction of naturals. -/
def fraction (x : Binary64) : Nat × Nat :=
  if 0 ≤ x.exponent then (x.mantissa * twoTo x.exponent.toNat, 1)
  else (x.mantissa, twoTo (-x.exponent).toNat)

def mul (x y : Binary64) : Option Binary64 :=
  let (a, b) := x.fraction
  let (c, d) := y.fraction
  nearest (x.negative != y.negative) (a * c) (b * d)

/-- The quotient by a double that is not zero. -/
def div (x y : Binary64) : Option Binary64 :=
  let (a, b) := x.fraction
  let (c, d) := y.fraction
  nearest (x.negative != y.negative) (a * d) (b * c)

/-- The greatest power of ten that is a double. -/
def topPower : Nat := 308

/-- `x * 10 ^ exponent`, rounded after every step; steps reach over at most `topPower` places. A
double is zero after three steps down, so `steps` bounds nothing that matters. -/
def scale : Nat → Binary64 → Int → Option Binary64
  | 0, x, _ => some x
  | steps + 1, x, exponent =>
    if exponent.natAbs ≤ topPower then
      (nearest false (tenTo exponent.natAbs) 1).bind fun power =>
        if 0 ≤ exponent then x.mul power else x.div power
    else if x.mantissa = 0 then some x
    else if 0 ≤ exponent then none
    else
      (nearest false (tenTo topPower) 1).bind fun power =>
        (x.div power).bind fun y => scale steps y (exponent + topPower)

/-- The double read from a decimal: the significand is rounded first, then scaled. -/
def ofDecimal (negative : Bool) (significand : Nat) (exponent : Int) : Option Binary64 :=
  (nearest negative significand 1).bind fun x => scale 8 x exponent

end Binary64
end GadgetBuild.Decimal
