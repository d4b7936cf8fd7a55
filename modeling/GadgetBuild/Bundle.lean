import GadgetBuild.Format
import GadgetBuild.Table
import GadgetBuild.Template

/-!
Bundles: the files that a build writes.
-/

namespace GadgetBuild

/-- A file of a bundle. -/
inductive Output where
  | chunk (name filename : Text) (isEntry : Bool) (code : Text) (imports : List Text)
  | asset (filename source : Text)
  deriving DecidableEq, Repr

abbrev Bundle := Table Output

namespace Bundle

/-- Puts the entries into the template, up to the first failure. -/
def wrapEntries (s : Settings) : Bundle → Bundle × Except Failure Unit
  | [] => ([], .ok ())
  | (key, .chunk name filename true code imports) :: rest =>
    match Template.wrap s code with
    | .error e => ((key, .chunk name filename true code imports) :: rest, .error e)
    | .ok code =>
      let (rest, result) := wrapEntries s rest
      ((key, .chunk name filename true code imports) :: rest, result)
  | output :: rest =>
    let (rest, result) := wrapEntries s rest
    (output :: rest, result)

/-- In a build in two formats, the entries are shipped in the one and the other chunks in the
other. Assets are shipped with both. -/
def isShipped (format : Format) : Output → Bool
  | .chunk _ _ isEntry _ _ =>
    match format with
    | .cjs => isEntry
    | .esm => !isEntry
  | .asset _ _ => true

/-- A bundle as it is written in a format. After a failure nothing is dropped. -/
def finish (s : Settings) (format : Format) (b : Bundle) : Bundle × Except Failure Unit :=
  match wrapEntries s b with
  | (b, .error e) => (b, .error e)
  | (b, .ok ()) => (if s.esmChunks then b.filter fun o => isShipped format o.2 else b, .ok ())

end Bundle
end GadgetBuild
