import GadgetBuild.Json.Basic
import GadgetBuild.Json.Quote

/-!
The two written forms of a value: compact, and with one entry a line, indented by tabs.
-/

namespace GadgetBuild.Json

def boolText (b : Bool) : Text :=
  if b then "true".toList else "false".toList

mutual

/-- A value without any white space. -/
def compact : Value → Text
  | .null => "null".toList
  | .bool b => boolText b
  | .number n => n.text
  | .text t => quote t
  | .list [] => "[]".toList
  | .list (v :: vs) => '[' :: compact v ++ compactItems vs ++ [']']
  | .object [] => "\x7b\x7d".toList
  | .object ((k, v) :: fs) =>
    '\x7b' :: quote k ++ ':' :: compact v ++ compactFields fs ++ ['\x7d']

/-- The items behind the first. -/
def compactItems : List Value → Text
  | [] => []
  | v :: vs => ',' :: compact v ++ compactItems vs

def compactFields : List (Text × Value) → Text
  | [] => []
  | (k, v) :: fs => ',' :: quote k ++ ':' :: compact v ++ compactFields fs

end

/-- A line break and the tabs of a depth. -/
def indent (depth : Nat) : Text :=
  '\n' :: List.replicate depth '\t'

mutual

/-- A value whose entries stand on lines of their own, one tab deeper than `depth`. -/
def tabbed (depth : Nat) : Value → Text
  | .null => "null".toList
  | .bool b => boolText b
  | .number n => n.text
  | .text t => quote t
  | .list [] => "[]".toList
  | .list (v :: vs) =>
    '[' :: indent (depth + 1) ++ tabbed (depth + 1) v ++ tabbedItems (depth + 1) vs ++
      indent depth ++ [']']
  | .object [] => "\x7b\x7d".toList
  | .object ((k, v) :: fs) =>
    '\x7b' :: indent (depth + 1) ++ quote k ++ ':' :: ' ' :: tabbed (depth + 1) v ++
      tabbedFields (depth + 1) fs ++ indent depth ++ ['\x7d']

/-- The items behind the first, on lines of depth `depth`. -/
def tabbedItems (depth : Nat) : List Value → Text
  | [] => []
  | v :: vs => ',' :: indent depth ++ tabbed depth v ++ tabbedItems depth vs

def tabbedFields (depth : Nat) : List (Text × Value) → Text
  | [] => []
  | (k, v) :: fs =>
    ',' :: indent depth ++ quote k ++ ':' :: ' ' :: tabbed depth v ++ tabbedFields depth fs

end

/-- A list of texts with one entry a line. -/
def tabbedTexts (ts : List Text) : Text :=
  tabbed 0 (.list (ts.map .text))

end GadgetBuild.Json
