import GadgetBuild.Json.Basic
import GadgetBuild.Options.Basic
import GadgetBuild.Text.Quoted

/-!
Why options cannot be read, and the words for it.
-/

namespace GadgetBuild.Options

/-- What a reader may want at a place. -/
inductive Wanted where
  | text
  | texts
  | flag
  | count
  | options
  deriving DecidableEq, Repr

/-- What stands there instead. -/
inductive Found where
  | null
  | flag (b : Bool)
  | number (n : Json.Number)
  | text (t : Text)
  | list
  | object
  deriving DecidableEq, Repr

inductive Problem where
  | notJson
  | unknownField (key : Text)
  | missingField (field : Field)
  | duplicateField (field : Field)
  | wrongType (found : Found) (wanted : Wanted)
  | negativeCount (n : Int)
  | tooShort (length : Nat)
  | tooLong (length : Nat)
  deriving DecidableEq, Repr

def Wanted.message : Wanted → Text
  | .text => "a string".toList
  | .texts => "a sequence".toList
  | .flag => "a boolean".toList
  | .count => "u64".toList
  | .options => "struct PluginOptions".toList

/-- A text between backticks. -/
def ticked (t : Text) : Text :=
  '`' :: t ++ ['`']

def Found.message : Found → Text
  | .null => "null".toList
  | .flag b => "boolean ".toList ++ ticked (if b then "true".toList else "false".toList)
  | .number (.integer n) => "integer ".toList ++ ticked (Json.integerText n)
  | .number (.real x) => "floating point ".toList ++ ticked (x.text Json.realLayout)
  | .text t => "string ".toList ++ t.quoted
  | .list => "sequence".toList
  | .object => "map".toList

/-- The keys of all fields, with commas between them. -/
def fieldList : Text :=
  List.intercalate ", ".toList (Field.all.map fun f => ticked f.key)

def Problem.message : Problem → Text
  | .notJson => "expected value".toList
  | .unknownField key =>
    "unknown field ".toList ++ ticked key ++ ", expected one of ".toList ++ fieldList
  | .missingField f => "missing field ".toList ++ ticked f.key
  | .duplicateField f => "duplicate field ".toList ++ ticked f.key
  | .wrongType found wanted =>
    "invalid type: ".toList ++ found.message ++ ", expected ".toList ++ wanted.message
  | .negativeCount n =>
    "invalid value: integer ".toList ++ ticked (Json.integerText n) ++ ", expected ".toList ++
      Wanted.count.message
  | .tooShort n =>
    "invalid length ".toList ++ Text.ofNat n ++ ", expected ".toList ++
      Wanted.options.message ++ " with ".toList ++ Text.ofNat Field.all.length ++
      " elements".toList
  | .tooLong n =>
    "invalid length ".toList ++ Text.ofNat n ++ ", expected fewer elements in array".toList

end GadgetBuild.Options
