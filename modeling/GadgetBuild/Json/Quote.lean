import GadgetBuild.Text

/-!
String literals that JSON and the generated code share.
-/

namespace GadgetBuild.Json

/-- One character of a literal. Quotes, backslashes and controls are escaped, nothing else. -/
def escapeChar (c : Char) : Text :=
  if c = '"' then ['\\', '"']
  else if c = '\\' then ['\\', '\\']
  else if c = '\x08' then ['\\', 'b']
  else if c = '\x0c' then ['\\', 'f']
  else if c = '\n' then ['\\', 'n']
  else if c = '\r' then ['\\', 'r']
  else if c = '\t' then ['\\', 't']
  else if c.toNat < 0x20 then
    ['\\', 'u', '0', '0', Nat.digitChar (c.toNat / 16), Nat.digitChar (c.toNat % 16)]
  else [c]

/-- A text as a string literal. -/
def quote (t : Text) : Text :=
  '"' :: t.flatMap escapeChar ++ ['"']

end GadgetBuild.Json
