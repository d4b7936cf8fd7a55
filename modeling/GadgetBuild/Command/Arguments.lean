import GadgetBuild.Command.Basic
import GadgetBuild.Text.Search

/-!
Reading arguments. An option's value may be attached to it or follow it, but what follows has no
value's place if it starts with a hyphen; behind two hyphens everything is a file.
-/

namespace GadgetBuild.Command

/-- Why no command is run. -/
inductive Stop where
  | version
  | help
  | invalid
  deriving DecidableEq, Repr

/-- The commands by name. -/
inductive Verb where
  | require
  | wrap
  deriving DecidableEq, Repr

/-- The options that have a value. -/
inductive Setting where
  | modules
  | sourceMap
  | config
  | template
  | out
  deriving DecidableEq, Repr

def Verb.ofName? (name : Text) : Option Verb :=
  if name = "rewrite".toList then some .require
  else if name = "wrap".toList then some .wrap
  else none

/-- The options of a command, with their long names, and their letters if they have one. -/
def Verb.settings : Verb → List (Setting × Text × Option Char)
  | .require => [(.modules, "using".toList, some 'u'), (.sourceMap, "sourcemap".toList, none),
      (.out, "out".toList, some 'o')]
  | .wrap => [(.config, "config".toList, some 'c'), (.template, "template".toList, some 't'),
      (.out, "out".toList, some 'o')]

def Verb.ofLong? (v : Verb) (name : Text) : Option Setting :=
  (v.settings.find? (·.2.1 = name)).map (·.1)

def Verb.ofLetter? (v : Verb) (letter : Char) : Option Setting :=
  (v.settings.find? (·.2.2 = some letter)).map (·.1)

/-- What was read so far. -/
structure Given where
  silent : Bool
  file : Option Text
  values : List (Setting × Text)
  deriving DecidableEq, Repr

namespace Given

def empty : Given := ⟨false, none, []⟩

def get? (g : Given) (s : Setting) : Option Text :=
  (g.values.find? (·.1 = s)).map (·.2)

/-- Modules may be given many times and with any name; other values are files, each given once. -/
def put (g : Given) (s : Setting) (value : Text) : Except Stop Given :=
  if s ≠ .modules ∧ (value = [] ∨ (g.get? s).isSome) then .error .invalid
  else .ok { g with values := g.values ++ [(s, value)] }

def putFile (g : Given) (file : Text) : Except Stop Given :=
  if file = [] ∨ g.file.isSome then .error .invalid else .ok { g with file := some file }

def quiet (g : Given) : Except Stop Given :=
  if g.silent then .error .invalid else .ok { g with silent := true }

end Given

/-- An argument that cannot be a value on its own. -/
def isOption (a : Text) : Bool :=
  a.head? = some '-' && a ≠ ['-']

/-- Letters behind one hyphen. The last may be an option whose value is still to come. -/
def readLetters (v : Verb) (g : Given) : Text → Except Stop (Given × Option Setting)
  | [] => .ok (g, none)
  | c :: cs =>
    match v.ofLetter? c with
    | some s =>
      match cs with
      | [] => .ok (g, some s)
      | '=' :: value => (g.put s value).map (·, none)
      | value => (g.put s value).map (·, none)
    | none =>
      if c = 's' then g.quiet.bind fun g => readLetters v g cs
      else if c = 'h' then .error .help
      else .error .invalid

/-- A name behind two hyphens, with its value if one is attached. -/
def readLong (v : Verb) (g : Given) (a : Text) : Except Stop (Given × Option Setting) :=
  let name := a.takeWhile (· ≠ '=')
  let value := (a.dropWhile (· ≠ '=')).tail?
  match v.ofLong? name, value with
  | some s, some value => (g.put s value).map (·, none)
  | some s, none => .ok (g, some s)
  | none, some _ => .error .invalid
  | none, none =>
    if name = "silent".toList then g.quiet.map (·, none)
    else if name = "help".toList then .error .help
    else .error .invalid

/-- The arguments of a command. `waiting` is the option whose value comes next. -/
def readArguments (v : Verb) (waiting : Option Setting) (g : Given) : List Text → Except Stop Given
  | [] => if waiting.isSome then .error .invalid else .ok g
  | a :: rest =>
    match waiting with
    | some s =>
      if isOption a then .error .invalid
      else (g.put s a).bind fun g => readArguments v none g rest
    | none =>
      if a = "--".toList then rest.foldlM Given.putFile g
      else if !isOption a then (g.putFile a).bind fun g => readArguments v none g rest
      else
        let read :=
          match a with
          | '-' :: '-' :: long => readLong v g long
          | _ => readLetters v g a.tail
        read.bind fun (g, waiting) => readArguments v waiting g rest

/-- The command of what was given, if all is there that it needs. -/
def ofGiven (v : Verb) (g : Given) : Except Stop Command :=
  match v, g.file with
  | _, none => .error .invalid
  | .require, some file =>
    let modules := (g.values.filter (·.1 = .modules)).map (·.2)
    .ok (.require file modules (g.get? .sourceMap) (g.get? .out))
  | .wrap, some file =>
    match g.get? .config with
    | none => .error .invalid
    | some config => .ok (.wrap file config (g.get? .template) (g.get? .out))

/-- The letters before a command. -/
def readLeadingLetters (silent : Bool) : Text → Except Stop Bool
  | [] => .ok silent
  | c :: cs =>
    if c = 's' then if silent then .error .invalid else readLeadingLetters true cs
    else if c = 'V' then .error .version
    else if c = 'h' then .error .help
    else .error .invalid

/-- The arguments of the program. -/
def ofArguments (silent : Bool) : List Text → Except Stop Command
  | [] => .error .invalid
  | a :: rest =>
    match Verb.ofName? a with
    | some v => (readArguments v none .empty rest).bind (ofGiven v)
    | none =>
      if a = "help".toList then
        if rest.length ≤ 1 ∧ rest.all fun name => (Verb.ofName? name).isSome then .error .help
        else .error .invalid
      else if a = "--silent".toList then
        if silent then .error .invalid else ofArguments true rest
      else if a = "--version".toList then .error .version
      else if a = "--help".toList then .error .help
      else if isOption a ∧ !"--".toList.isPrefixOf a then
        (readLeadingLetters silent a.tail).bind fun silent => ofArguments silent rest
      else .error .invalid

end GadgetBuild.Command
