import GadgetBuild.External
import GadgetBuild.Json.Quote

/-!
The module that stands at a virtual id: it waits for the loader and exports what the loader gives.
-/

namespace GadgetBuild.VirtualModule

def debugModeDocs : Text :=
  "https://www.mediawiki.org/wiki/ResourceLoader/Architecture#Debug_mode".toList

/-- What helps when Vue was loaded without debug mode. -/
def hint : Option Nat → Text
  | some age =>
    "`resourceLoaderDebugCookieAge` is set to `".toList ++ Text.ofNat age ++
      "`, but Vue was loaded without it. Try reloading the page.".toList
  | none =>
    "Add `?debug=2` to your URL or set a cookie `resourceLoaderDebug=2` to enable it. ".toList ++
      "More information: ".toList ++ debugModeDocs

/-- Vue can be replaced while it runs in its development build only, which is served in debug
mode. -/
def debugModeCheck (cookieAge : Option Nat) : Text :=
  "if (typeof __VUE_HMR_RUNTIME__ !== \"object\") \x7b\n".toList ++
    "console.error(\"[vite-mw-userscript] ResourceLoader debug mode is not enabled. ".toList ++
    "Without it, RL will load the production version of Vue. ".toList ++
    "Debug mode Vue is required for HMR to work.\\n\\n".toList ++
    hint cookieAge ++ "\");\n\x7d\n".toList

/-- Asks the loader for debug mode on later visits. -/
def cookie : Option Nat → Text
  | some age =>
    "document.cookie = \"resourceLoaderDebug=2;max-age=".toList ++ Text.ofNat age ++ "\"\n".toList
  | none => []

/-- The code of the module. -/
def render (name : Text) (cookieAge : Option Nat) : Text :=
  cookie cookieAge ++
    "const __mw_module = (await mw.loader.using(".toList ++ Json.quote name ++ "))(".toList ++
    Json.quote name ++ ");\n".toList ++
    "export default __mw_module;\n".toList ++
    (if name = Externals.vue then debugModeCheck cookieAge else [])

end GadgetBuild.VirtualModule
