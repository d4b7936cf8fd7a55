import GadgetBuild.Text

/-!
The options of a build, as its user writes them.
-/

namespace GadgetBuild

structure Options where
  name : Text
  entry : Text
  /-- The code that the bundle is put into; there is a default one. -/
  template : Option Text
  banner : Option Text
  footer : Option Text
  /-- The modules that the loader provides. -/
  modules : Option (List Text)
  ignoreBuildOptions : Option Bool
  /-- For how many seconds the loader stays in debug mode. -/
  debugCookieAge : Option Nat
  esmChunks : Option Bool
  /-- The chunks that are loaded on demand only. -/
  esmUnhoistChunks : Option (List Text)
  baseUrl : Option Text
  deriving DecidableEq, Repr

namespace Options

inductive Field where
  | name
  | entry
  | template
  | banner
  | footer
  | modules
  | ignoreBuildOptions
  | debugCookieAge
  | esmChunks
  | esmUnhoistChunks
  | baseUrl
  deriving DecidableEq, Repr

namespace Field

/-- The fields in the order in which a list gives them. -/
def all : List Field :=
  [.name, .entry, .template, .banner, .footer, .modules, .ignoreBuildOptions, .debugCookieAge,
    .esmChunks, .esmUnhoistChunks, .baseUrl]

def key : Field → Text
  | .name => "name".toList
  | .entry => "entry".toList
  | .template => "template".toList
  | .banner => "banner".toList
  | .footer => "footer".toList
  | .modules => "using".toList
  | .ignoreBuildOptions => "ignoreBuildOptions".toList
  | .debugCookieAge => "resourceLoaderDebugCookieAge".toList
  | .esmChunks => "esmChunks".toList
  | .esmUnhoistChunks => "esmUnhoistChunks".toList
  | .baseUrl => "baseUrl".toList

def ofKey? (key : Text) : Option Field :=
  all.find? (·.key = key)

end Field
end Options
end GadgetBuild
