import GadgetBuild.Decimal.Shortest

/-!
JSON values. A number is an integer of 64 bits, signed or not, or else a double.
-/

namespace GadgetBuild.Json

inductive Number where
  | integer (n : Int)
  | real (x : Decimal.Binary64)
  deriving DecidableEq, Repr

inductive Value where
  | null
  | bool (b : Bool)
  | number (n : Number)
  | text (t : Text)
  | list (items : List Value)
  | object (fields : List (Text × Value))

/-- Reals are positional from five places behind the point to sixteen digits before it. -/
def realLayout : Decimal.Layout := ⟨-5, 15⟩

/-- The text of an integer. -/
def integerText (n : Int) : Text :=
  if n < 0 then '-' :: Text.ofNat n.natAbs else Text.ofNat n.natAbs

def Number.text : Number → Text
  | .integer n => integerText n
  | .real x => x.text realLayout

/-- Puts a field in its place among fields that increase by key; a field of that key gives way. -/
def insertField {α : Type} (key : Text) (value : α) : List (Text × α) → List (Text × α)
  | [] => [(key, value)]
  | (k, v) :: fields =>
    if key < k then (key, value) :: (k, v) :: fields
    else if key = k then (key, value) :: fields
    else (k, v) :: insertField key value fields

/-- Fields in the order of their keys, the last of each key. -/
def orderFields {α : Type} (fields : List (Text × α)) : List (Text × α) :=
  fields.foldl (fun ordered f => insertField f.1 f.2 ordered) []

/-- The value of a field. -/
def Value.field? (key : Text) : Value → Option Value
  | .object fields => (fields.find? (·.1 = key)).map (·.2)
  | _ => none

end GadgetBuild.Json
