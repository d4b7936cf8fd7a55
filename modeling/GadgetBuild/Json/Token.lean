import GadgetBuild.Json.Basic

/-!
The tokens of a JSON text. A text that stops making sense ends in the token `bad`; the tokens
before it are still there.
-/

namespace GadgetBuild.Json

inductive Token where
  | openList
  | closeList
  | openObject
  | closeObject
  | comma
  | colon
  | null
  | bool (b : Bool)
  | number (n : Number)
  | text (t : Text)
  | bad
  deriving DecidableEq, Repr

/-- The white space between tokens. -/
def isSpace (c : Char) : Bool :=
  c = ' ' || c = '\t' || c = '\n' || c = '\r'

/-- The value of a hexadecimal digit of either case. -/
def hexDigit? (c : Char) : Option Nat :=
  let n := c.toNat
  if 0x30 ≤ n ∧ n ≤ 0x39 then some (n - 0x30)
  else if 0x41 ≤ n ∧ n ≤ 0x46 then some (n - 0x41 + 10)
  else if 0x61 ≤ n ∧ n ≤ 0x66 then some (n - 0x61 + 10)
  else none

/-- Four hexadecimal digits at the front of a text. -/
def hexUnit? (t : Text) : Option Nat :=
  let unit := t.take 4
  if unit.length = 4 then
    (unit.mapM hexDigit?).map fun ds => ds.foldl (fun n d => 16 * n + d) 0
  else none

/-- What stands behind a backslash: the character, and how many characters spell it. Two halves of
a character outside the first plane need each other. -/
def escape? : Text → Option (Char × Nat)
  | 'u' :: t =>
    (hexUnit? t).bind fun high =>
      if 0xDC00 ≤ high ∧ high ≤ 0xDFFF then none
      else if 0xD800 ≤ high ∧ high ≤ 0xDBFF then
        match Text.after? ['\\', 'u'] (t.drop 4) with
        | none => none
        | some t =>
          (hexUnit? t).bind fun low =>
            if 0xDC00 ≤ low ∧ low ≤ 0xDFFF then
              some (Char.ofNat (0x10000 + (high - 0xD800) * 0x400 + (low - 0xDC00)), 11)
            else none
      else some (Char.ofNat high, 5)
  | '"' :: _ => some ('"', 1)
  | '\\' :: _ => some ('\\', 1)
  | '/' :: _ => some ('/', 1)
  | 'b' :: _ => some ('\x08', 1)
  | 'f' :: _ => some ('\x0c', 1)
  | 'n' :: _ => some ('\n', 1)
  | 'r' :: _ => some ('\r', 1)
  | 't' :: _ => some ('\t', 1)
  | _ => none

/-- The text of a string literal behind its opening quote, and the number of characters up to and
with the closing one. `skip` counts the characters of an escape still to be passed over. -/
def literalFrom : Nat → Text → Option (Text × Nat)
  | _, [] => none
  | skip + 1, _ :: t => (literalFrom skip t).map fun (s, n) => (s, n + 1)
  | 0, c :: t =>
    if c = '"' then some ([], 1)
    else if c = '\\' then
      (escape? t).bind fun (d, n) => (literalFrom n t).map fun (s, m) => (d :: s, m + 1)
    else if c.toNat < 0x20 then none
    else (literalFrom 0 t).map fun (s, n) => (c :: s, n + 1)

def isDigit (c : Char) : Bool :=
  '0' ≤ c && c ≤ '9'

def digitValue (c : Char) : Nat :=
  c.toNat - '0'.toNat

/-- The greatest integer that a number keeps exactly. -/
def greatestInteger : Nat := Decimal.twoTo 64 - 1

/-- Takes up digits while the number fits; the other part counts the digits that did not. -/
def absorb : Nat → List Char → Nat × Nat
  | n, [] => (n, 0)
  | n, c :: cs =>
    if 10 * n + digitValue c ≤ greatestInteger then absorb (10 * n + digitValue c) cs
    else (n, (c :: cs).length)

/-- The parts of a number as written. -/
structure Numeral where
  negative : Bool
  whole : List Char
  fraction : Option (List Char)
  /-- The digits of the exponent, and whether it is negative. -/
  power : Option (Bool × List Char)

/-- The number a numeral stands for, unless it is out of the range of doubles. -/
def Numeral.value? (w : Numeral) : Option Number :=
  let (n, excess) := absorb 0 w.whole
  let digits := w.fraction.getD []
  let (m, left) := absorb n digits
  let exponent : Int := (excess : Int) - ((digits.length : Int) - left)
  let power : Int :=
    match w.power with
    | none => 0
    | some (down, ds) =>
      let p : Int := ds.foldl (fun p c => 10 * p + digitValue c) 0
      if down then -p else p
  if w.fraction = none ∧ w.power = none ∧ excess = 0 ∧
      (!w.negative ∨ (1 ≤ n ∧ n ≤ Decimal.twoTo 63)) then
    some (.integer (if w.negative then -n else n))
  else (Decimal.Binary64.ofDecimal w.negative m (exponent + power)).map .real

/-- The digits at the front of a text. -/
def digits (t : Text) : List Char :=
  t.takeWhile isDigit

/-- The fraction at the front of a text and its length; a point needs a digit behind it. -/
def fraction? : Text → Option (Option (List Char) × Nat)
  | '.' :: t => if digits t = [] then none else some (some (digits t), 1 + (digits t).length)
  | _ => some (none, 0)

/-- The exponent at the front of a text and its length. -/
def power? : Text → Option (Option (Bool × List Char) × Nat)
  | [] => some (none, 0)
  | e :: t =>
    if e = 'e' ∨ e = 'E' then
      let (down, sign) :=
        match t with
        | '-' :: _ => (true, 1)
        | '+' :: _ => (false, 1)
        | _ => (false, 0)
      let ds := digits (t.drop sign)
      if ds = [] then none else some (some (down, ds), 1 + sign + ds.length)
    else some (none, 0)

/-- The number at the front of a text and its length. A zero in front of other digits is not one. -/
def number? (t : Text) : Option (Number × Nat) :=
  let sign := if t.head? = some '-' then 1 else 0
  let body := t.drop sign
  let whole := digits body
  if whole = [] ∨ (whole.head? = some '0' ∧ 1 < whole.length) then none
  else
    let rest := body.drop whole.length
    (fraction? rest).bind fun (fraction, n) =>
      (power? (rest.drop n)).bind fun (power, m) =>
        (Numeral.value? ⟨sign = 1, whole, fraction, power⟩).map fun v =>
          (v, sign + whole.length + n + m)

/-- A word at the front of a text. -/
def wordToken? (word : Text) (token : Token) (t : Text) : Option (Token × Nat) :=
  (Text.after? word t).map fun _ => (token, word.length)

/-- The token at the front of a text that does not start with white space, and its length. -/
def token? (t : Text) : Option (Token × Nat) :=
  match t with
  | [] => none
  | '[' :: _ => some (.openList, 1)
  | ']' :: _ => some (.closeList, 1)
  | '\x7b' :: _ => some (.openObject, 1)
  | '\x7d' :: _ => some (.closeObject, 1)
  | ',' :: _ => some (.comma, 1)
  | ':' :: _ => some (.colon, 1)
  | '"' :: r => (literalFrom 0 r).map fun (s, n) => (.text s, n + 1)
  | 'n' :: _ => wordToken? "null".toList .null t
  | 't' :: _ => wordToken? "true".toList (.bool true) t
  | 'f' :: _ => wordToken? "false".toList (.bool false) t
  | _ => (number? t).map fun (v, n) => (.number v, n)

/-- The tokens of a text. `skip` counts the characters of the last token still to be passed. -/
def tokensFrom : Nat → Text → List Token
  | _, [] => []
  | skip + 1, _ :: t => tokensFrom skip t
  | 0, c :: t =>
    if isSpace c then tokensFrom 0 t
    else
      match token? (c :: t) with
      | none => [.bad]
      | some (token, n) => token :: tokensFrom (n - 1) t

def tokens (t : Text) : List Token :=
  tokensFrom 0 t

end GadgetBuild.Json
