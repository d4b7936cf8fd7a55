import GadgetBuild.Failure
import GadgetBuild.Format
import GadgetBuild.Settings
import GadgetBuild.Text.Quoted

/-!
The configuration of the build tool, and what a build adds to it. The user's own choices stay.
-/

namespace GadgetBuild

/-- What is asked of an import. -/
structure ImportQuery where
  source : Text
  importer : Option Text
  isResolved : Bool
  deriving DecidableEq, Repr

/-- Which imports are left out of the bundle. -/
inductive External where
  | name (name : Text)
  | names (names : List Text)
  | predicate (holds : ImportQuery → Bool)

namespace External

def isExternal (e : External) (q : ImportQuery) : Bool :=
  match e with
  | .name n => n = q.source
  | .names ns => q.source ∈ ns
  | .predicate holds => holds q

/-- The same with more names. -/
def extend (more : List Text) : Option External → External
  | none => .names more
  | some (.name n) => .names (n :: more)
  | some (.names ns) => .names (ns ++ more)
  | some (.predicate holds) => .predicate fun q => holds q || q.source ∈ more

/-- The text that shows it in messages. -/
def describe : External → Text
  | .name n => "Name(".toList ++ n.quoted ++ [')']
  | .names ns =>
    "Names([".toList ++ List.intercalate ", ".toList (ns.map Text.quoted) ++ "])".toList
  | .predicate _ => "Predicate(Fn)".toList

end External

structure LibOptions where
  entry : Text
  name : Text
  fileName : Text
  formats : List Format
  deriving DecidableEq, Repr

inductive Lib where
  | disabled
  | enabled (options : LibOptions)
  deriving DecidableEq, Repr

structure OutputOptions where
  chunkFileNames : Option Text
  minifyInternalExports : Option Bool
  entryFileNames : Option Text
  deriving DecidableEq, Repr

structure BundlerOptions where
  external : Option External
  output : Option OutputOptions

structure BuildOptions where
  bundler : Option BundlerOptions
  target : Option Text
  cssCodeSplit : Option Bool
  lib : Option Lib

structure DependencyOptions where
  entries : Option (List Text)
  exclude : Option (List Text)
  deriving DecidableEq, Repr

structure Config where
  build : Option BuildOptions
  dependencies : Option DependencyOptions

def OutputOptions.empty : OutputOptions := ⟨none, none, none⟩

def BundlerOptions.empty : BundlerOptions := ⟨none, none⟩

def BuildOptions.empty : BuildOptions := ⟨none, none, none, none⟩

def DependencyOptions.empty : DependencyOptions := ⟨none, none⟩

namespace Config

def empty : Config := ⟨none, none⟩

def defaultTarget : Text := "es6".toList

/-- Chunks keep their names, so that code can name them. -/
def chunkFileNames : Text := "[name].js".toList

/-- The bundler's options with the external modules, and for two formats with plain file names. -/
def mergeBundler (s : Settings) (b : BundlerOptions) : BundlerOptions where
  external := some (External.extend s.externals.names b.external)
  output :=
    if s.esmChunks then
      some { b.output.getD .empty with
        chunkFileNames := some chunkFileNames
        minifyInternalExports := some false }
    else b.output

/-- What every build needs, whether it is a library or not. -/
def mergeBuild (s : Settings) (b : BuildOptions) : BuildOptions where
  bundler := some (mergeBundler s (b.bundler.getD .empty))
  target := some (b.target.getD defaultTarget)
  cssCodeSplit := some (b.cssCodeSplit.getD true)
  lib := b.lib

def headEntry (d : DependencyOptions) : Option Text :=
  d.entries.bind (·.head?)

/-- The dependencies with the external modules left alone, and an entry if there is none. -/
def mergeDependencies (s : Settings) (d : DependencyOptions) : DependencyOptions where
  entries := if (headEntry d).isSome then d.entries else some [s.entry]
  exclude := some (d.exclude.getD [] ++ s.externals.names)

/-- A gadget is a library with one entry. -/
def libOf (s : Settings) (d : DependencyOptions) : Lib :=
  .enabled {
    entry := (headEntry d).getD s.entry
    name := s.name
    fileName := s.name
    formats := .cjs :: if s.esmChunks then [.esm] else [] }

/-- The configuration with what a build needs, and whether to warn that it already was that of a
library. Such a library is never changed, and a disabled one only if the settings say so. -/
def merge (s : Settings) (c : Config) : Config × Option Failure :=
  let build := mergeBuild s (c.build.getD .empty)
  let merged : Config := { c with build := some build }
  let dependencies := c.dependencies.getD .empty
  let withLib : Config :=
    ⟨some { build with lib := some (libOf s dependencies) },
      some (mergeDependencies s dependencies)⟩
  match build.lib with
  | none => (withLib, none)
  | some lib =>
    if !s.ignoreBuildOptions then (merged, some .libAlreadyConfigured)
    else
      match lib with
      | .enabled _ => (merged, none)
      | .disabled => (withLib, none)

end Config
end GadgetBuild
