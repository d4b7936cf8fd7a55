import GadgetBuild.Text

/-!
Modules that the wiki's loader provides at run time, and the ids under which they are imported
until then.
-/

namespace GadgetBuild

/-- What a virtual id begins with. -/
def virtualLead : Text := "\x00mw-userscript:".toList

/-- The same in the spelling of code that was served, where a NUL cannot stand. -/
def servedLead : Text := "/@id/__x00__mw-userscript:".toList

/-- A module that is loaded and not bundled. -/
structure ExternalModule where
  name : Text
  deriving DecidableEq, Repr

namespace ExternalModule

def virtualId (m : ExternalModule) : Text :=
  virtualLead ++ m.name

/-- Either spelling of a virtual id's beginning at the front of a text, and what follows it. -/
def afterLead? (t : Text) : Option (Text × Text) :=
  match Text.after? virtualLead t with
  | some rest => some (virtualLead, rest)
  | none => (Text.after? servedLead t).map fun rest => (servedLead, rest)

/-- The name in a virtual id of either spelling. It is not empty. -/
def nameOf? (id : Text) : Option Text :=
  match afterLead? id with
  | none => none
  | some (_, name) => if name = [] then none else some name

def ofVirtualId? (id : Text) : Option ExternalModule :=
  (nameOf? id).map ExternalModule.mk

end ExternalModule

/-- The names of the modules that are external in a build, each once. -/
structure Externals where
  names : List Text
  deriving DecidableEq, Repr

namespace Externals

def vue : Text := "vue".toList

def vueScope : Text := "@vue".toList

/-- The packages of Vue import each other through its scope, so that listing Vue lists the scope. -/
def ofList (listed : List Text) : Externals :=
  let names := listed.eraseDups
  ⟨if vue ∈ names ∧ vueScope ∉ names then names ++ [vueScope] else names⟩

/-- The scope of a package, with its sign: what stands before the first slash. -/
def scopeOf? (source : Text) : Option Text :=
  match source with
  | '@' :: t => if '/' ∈ t then some ('@' :: t.takeWhile (· ≠ '/')) else none
  | _ => none

/-- A name stands for itself, and a scope for every package in it. -/
def contains (e : Externals) (source : Text) : Bool :=
  source ∈ e.names || (scopeOf? source).any (· ∈ e.names)

def resolve? (e : Externals) (source : Text) : Option ExternalModule :=
  if e.contains source then some ⟨source⟩ else none

end Externals
end GadgetBuild
