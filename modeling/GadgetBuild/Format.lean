import GadgetBuild.Json.Basic

/-!
The module formats of a build's output.
-/

namespace GadgetBuild

inductive Format where
  | esm
  | cjs
  deriving DecidableEq, Repr

namespace Format

def ofName? (name : Text) : Option Format :=
  if name = "esm".toList ∨ name = "es".toList then some .esm
  else if name = "cjs".toList then some .cjs
  else none

/-- A format in a value: its name, or an object with its name as the only key and nothing there. -/
def ofValue? : Json.Value → Option Format
  | .text name => ofName? name
  | .object [(name, .null)] => ofName? name
  | _ => none

def name : Format → Text
  | .esm => "es".toList
  | .cjs => "cjs".toList

end Format
end GadgetBuild
