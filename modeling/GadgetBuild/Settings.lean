import GadgetBuild.External
import GadgetBuild.Options.Basic

/-!
The settings of a build: options with every default in place.
-/

namespace GadgetBuild

structure Settings where
  name : Text
  entry : Text
  template : Option Text
  banner : Option Text
  footer : Option Text
  modules : List Text
  externals : Externals
  ignoreBuildOptions : Bool
  /-- Positive. -/
  debugCookieAge : Option Nat
  esmChunks : Bool
  esmUnhoistChunks : Option (List Text)
  /-- Empty, or with a slash at its end. -/
  baseUrl : Text
  deriving DecidableEq, Repr

/-- A base with a slash at its end, so that a path can follow. -/
def closeUrl (url : Text) : Text :=
  if url = [] ∨ url.getLast? = some '/' then url else url ++ ['/']

def Options.settings (o : Options) : Settings where
  name := o.name
  entry := o.entry
  template := o.template
  banner := o.banner
  footer := o.footer
  modules := o.modules.getD []
  externals := .ofList (o.modules.getD [])
  ignoreBuildOptions := o.ignoreBuildOptions.getD false
  debugCookieAge := o.debugCookieAge.filter (0 < ·)
  esmChunks := o.esmChunks.getD false
  esmUnhoistChunks := o.esmUnhoistChunks
  baseUrl := closeUrl (o.baseUrl.getD [])

end GadgetBuild
