import GadgetBuild.Command.Arguments
import GadgetBuild.Command.FileAccess
import GadgetBuild.Json.Printer
import GadgetBuild.Options.Reader
import GadgetBuild.Plugin

/-!
Running commands over any access to files. The first thing that goes wrong ends a run, and nothing
is printed then but what went wrong.
-/

namespace GadgetBuild.Command

variable {m : Type → Type} [Monad m]

def readFile (files : FileAccess m) (path : Text) : ExceptT Cause m Text := do
  match ← files.read path with
  | .ok t => return t
  | .error e => throw (.other ("Failed to read ".toList ++ path ++ ": ".toList ++ e.message))

def writeFile (files : FileAccess m) (path content : Text) : ExceptT Cause m Unit := do
  match ← files.write path content with
  | .ok () => return
  | .error e => throw (.other ("Failed to write ".toList ++ path ++ ": ".toList ++ e.message))

/-- Takes a result into a run. -/
def orFail {α : Type} : Except Failure α → ExceptT Cause m α
  | .ok a => return a
  | .error f => throw (.failure f)

/-- The settings of a gadget that is one file. -/
def moduleSettings (file : Text) (modules : List Text) : Settings :=
  Options.settings
    ⟨[], file, none, none, none, some modules, none, none, none, none, none⟩

/-- The code of a file that calls `require` for the imports in it. The modules count as imported by
the file, whether it imports them or not. -/
def withRequires (file : Text) (modules : List Text) (code : Text) :
    Except Failure (Option Traced) :=
  let plugin := Plugin.gadget (moduleSettings file modules)
  let importers := modules.foldl (fun s name => (plugin.resolve name (some file) s).1) plugin.start
  plugin.transform file code importers

/-- The name of the file that a path leads to, if the path tells it. -/
def fileName? (path : Text) : Option Text :=
  match ((path.pieces ['/']).filter fun name => name ≠ [] ∧ name ≠ ['.']).getLast? with
  | some name => if name = ['.', '.'] then none else some name
  | none => none

/-- The code of an entry in its template: what the bundle with that file alone holds for it. -/
def wrapped (settings : Settings) (file code : Text) : Except Failure Text := do
  let filename := (fileName? file).getD settings.name
  let entry : Output := .chunk settings.name filename true code []
  match (Plugin.gadget settings).finishBundle .cjs [(filename, entry)] with
  | (_, .error f) => throw f
  | (bundle, .ok ()) =>
    match bundle.get? filename with
    | some (.chunk _ _ _ code _) => return code
    | _ => return []

/-- The code that a command makes. -/
def produce (files : FileAccess m) : Command → ExceptT Cause m Text
  | .require file modules sourceMap _ => do
    let code ← readFile files file
    match ← orFail (withRequires file modules code) with
    | none => return code
    | some result =>
      match sourceMap with
      | none => pure ()
      | some path => writeFile files path (Json.compact result.map.value)
      return result.code
  | .wrap file config template _ => do
    let text ← readFile files config
    let options ←
      match Options.ofText text with
      | .ok o => pure o
      | .error p =>
        throw (.other ("Invalid options in ".toList ++ config ++ ": ".toList ++ p.message))
    let options ←
      match template with
      | none => pure options
      | some path => do
        let t ← readFile files path
        pure { options with template := some t }
    let code ← readFile files file
    orFail (wrapped options.settings file code)

/-- Makes the code and puts it where it goes. What is left is to be printed. -/
def run (files : FileAccess m) (c : Command) : ExceptT Cause m Text := do
  let code ← produce files c
  match c.out with
  | none => return code
  | some path =>
    writeFile files path code
    return []

/-- What a program leaves behind. -/
structure Report where
  exitCode : Nat
  stdout : Text
  stderr : Text
  deriving DecidableEq, Repr

/-- A text in a color of the terminal. -/
def painted (color t : Text) : Text :=
  "\x1b[".toList ++ color ++ 'm' :: t ++ "\x1b[0m".toList

/-- The line that tells where the result went. -/
def wroteLine (path elapsed : Text) : Text :=
  '\n' :: painted "32".toList "✔".toList ++ " Wrote ".toList ++ painted "36".toList path ++
    " in ".toList ++ elapsed ++ ['\n']

def errorLine (c : Cause) : Text :=
  painted "31".toList "Error:".toList ++ ' ' :: c.message ++ ['\n']

def versionLine : Text := "mw_userscript_cli 0.1.0\n".toList

def usage : Text :=
  "Usage: mw-userscript [OPTIONS] <COMMAND>\n\n".toList ++
    "Commands:\n  rewrite <FILE> [-u <USING>]... [--sourcemap <SOURCEMAP>] [-o <OUT>]\n".toList ++
    "  wrap <FILE> -c <CONFIG> [-t <TEMPLATE>] [-o <OUT>]\n\n".toList ++
    "Options:\n  -s, --silent\n  -h, --help\n  -V, --version\n".toList

/-- The whole program. `elapsed` tells how long it took. -/
def execute (files : FileAccess m) (elapsed : m Text) (arguments : List Text) : m Report := do
  match ofArguments false arguments with
  | .error .version => return ⟨0, versionLine, []⟩
  | .error .help => return ⟨0, usage, []⟩
  | .error .invalid => return ⟨2, [], usage⟩
  | .ok c =>
    match ← (run files c).run with
    | .error cause => return ⟨1, [], errorLine cause⟩
    | .ok code =>
      match c.out with
      | none => return ⟨0, code, []⟩
      | some path => return ⟨0, code, wroteLine path (← elapsed)⟩

end GadgetBuild.Command
