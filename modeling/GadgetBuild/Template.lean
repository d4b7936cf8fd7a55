import GadgetBuild.Failure
import GadgetBuild.Json.Printer
import GadgetBuild.Lines
import GadgetBuild.Settings
import GadgetBuild.Text.Blank
import GadgetBuild.Text.Search

/-!
Templates: code around a bundle. String literals in the template hold the places of the module
list, the banner, the footer and the bundle itself.
-/

namespace GadgetBuild.Template

/-- The template of a build that names none. -/
def standard : Text :=
  "'header';\n// <nowiki>\nmw.loader.using( 'modules', function ( require ) \x7b\n".toList ++
    "\t'script';\n\x7d );\n// </nowiki>\n'footer';\n".toList

def modulesMark : Text := "'modules'".toList

def headerMark : Text := "'header';\n".toList

def footerMark : Text := "'footer';".toList

def scriptMark : Text := "'script'".toList

/-- Every line of a text as a comment. -/
def commentLines (t : Text) : Text :=
  List.intercalate ['\n'] ((t.pieces ['\n']).map fun line => Text.trim ("// ".toList ++ line))

/-- What stands for the banner: its comment lines, with a line feed behind them. -/
def header (banner : Option Text) : Text :=
  let lines := ((banner.map commentLines).getD []).trimEnd
  if lines = [] then [] else lines ++ ['\n']

def footer (footer : Option Text) : Text :=
  ((footer.map commentLines).getD []).trimStart

/-- A line break and nothing else. -/
def isLineBreak (t : Text) : Bool :=
  t = ['\n'] || t = ['\r', '\n']

/-- The pieces between the places of the footer. A line break behind the last place goes with it
when the template ends there. -/
def footerPieces : List Text → List Text
  | [] => []
  | [only] => [only]
  | [before, last] => [before, if isLineBreak last then [] else last]
  | p :: q :: r :: rest => p :: footerPieces (q :: r :: rest)

/-- The template with all in place but the bundle. -/
def expand (s : Settings) : Text :=
  let t := s.template.getD standard
  let t := t.replace modulesMark (Json.tabbedTexts s.modules)
  let t := t.replace headerMark (header s.banner)
  List.intercalate (footer s.footer) (footerPieces (t.pieces footerMark))

/-- What stays of a text that ends right before the bundle's place: all up to the start of the first
blank line in front of the place. There is none if the place is not indented. -/
def beforeScriptLine? (t : Text) : Option Text :=
  let kept := t.trimEnd
  let blanks := t.drop kept.length
  if kept = [] then if blanks = [] then none else some []
  else
    match blanks.dropWhile (· ≠ '\n') with
    | _ :: _ :: _ => some (kept ++ blanks.takeWhile (· ≠ '\n') ++ ['\n'])
    | _ => none

/-- The parts of an expanded template around the line of the bundle. -/
def aroundScript (t : Text) : Except Failure (Text × Text) :=
  match t.pieces scriptMark with
  | [before, ';' :: behind] =>
    match beforeScriptLine? before with
    | some before => .ok (before, behind)
    | none => .error .scriptNotOnOwnLine
  | [_, _] => .error .scriptNotOnOwnLine
  | pieces => .error (.placeholderCount (pieces.length - 1))

/-- The code of a bundle in the template. -/
def wrap (s : Settings) (code : Text) : Except Failure Text := do
  let (before, behind) ← aroundScript (expand s)
  return Sources.join [before, code, behind]

end GadgetBuild.Template
