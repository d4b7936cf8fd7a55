import GadgetBuild.Text

/-!
What the command line can ask for.
-/

namespace GadgetBuild

inductive Command where
  /-- Turns the imports of one module into calls of `require`. -/
  | require (file : Text) (modules : List Text) (sourceMap out : Option Text)
  /-- Puts a bundle into its template. -/
  | wrap (file config : Text) (template out : Option Text)
  deriving DecidableEq, Repr

namespace Command

/-- The file that the result goes to instead of the standard output. -/
def out : Command → Option Text
  | .require _ _ _ out => out
  | .wrap _ _ _ out => out

end Command
end GadgetBuild
