import GadgetBuild.Text

/-!
Access to text files, and why it fails.
-/

namespace GadgetBuild

inductive FileError where
  | notFound
  | notDirectory
  | isDirectory
  | notUtf8
  | other (message : Text)
  deriving DecidableEq, Repr

def FileError.message : FileError → Text
  | .notFound => "No such file or directory (os error 2)".toList
  | .notDirectory => "Not a directory (os error 20)".toList
  | .isDirectory => "Is a directory (os error 21)".toList
  | .notUtf8 => "stream did not contain valid UTF-8".toList
  | .other message => message

/-- Reading and writing whole files by path. -/
structure FileAccess (m : Type → Type) where
  read : Text → m (Except FileError Text)
  write : Text → Text → m (Except FileError Unit)

end GadgetBuild
