import GadgetBuild.Bundle
import GadgetBuild.Chunk
import GadgetBuild.Config
import GadgetBuild.Import.Require
import GadgetBuild.VirtualModule

/-!
Plugins of the build tool. A hook that a plugin leaves out does nothing.
-/

namespace GadgetBuild

/-- Where a plugin, or one of its hooks, stands among the others. -/
inductive Order where
  | pre
  | post
  deriving DecidableEq, Repr

def Order.name : Order → Text
  | .pre => "pre".toList
  | .post => "post".toList

/-- A plugin whose hooks share a state of type `σ`. -/
structure Plugin (σ : Type) where
  name : Text
  /-- The state before the first call. -/
  start : σ
  enforce : Option Order := none
  transformOrder : Option Order := none
  /-- Completes the configuration, perhaps with a warning. -/
  config : Config → Config × Option Failure := fun c => (c, none)
  /-- The id of an imported module, for its source and its importer. -/
  resolve : Text → Option Text → σ → σ × Option Text := fun _ _ s => (s, none)
  /-- The code of a module, for its id. -/
  load : Text → Option Text := fun _ => none
  /-- The code of a module in place of the one that was loaded, for its id. -/
  transform : Text → Text → σ → Except Failure (Option Traced) := fun _ _ _ => .ok none
  aroundDynamicImport : Option (Text × Text) := none
  renderChunk : Format → Table Chunk → Text → Chunk → Chunk × Except Failure (Option Traced) :=
    fun _ _ _ c => (c, .ok none)
  finishBundle : Format → Bundle → Bundle × Except Failure Unit := fun _ b => (b, .ok ())

namespace Plugin

/-- A plugin that leaves out every hook. -/
def bare : Plugin Unit where
  name := "bare".toList
  start := ()

def gadgetName : Text := "mediawiki-userscript".toList

/-- The modules that import an external one. -/
abbrev Importers := List Text

/-- Marks the importer of an external module. -/
def resolveExternal (e : Externals) (source : Text) (importer : Option Text)
    (importers : Importers) : Importers × Option Text :=
  match e.resolve? source with
  | none => (importers, none)
  | some m =>
    let importers :=
      match importer with
      | none => importers
      | some id => importers.insert id
    (importers, some m.virtualId)

/-- The plugin that builds a gadget. Imports of external modules resolve to virtual ids, and the
modules that have such imports call `require` instead once all other plugins are done with them. -/
def gadget (s : Settings) : Plugin Importers where
  name := gadgetName
  start := []
  enforce := some .pre
  transformOrder := some .post
  config := Config.merge s
  resolve := resolveExternal s.externals
  load id := (ExternalModule.ofVirtualId? id).map fun m =>
    VirtualModule.render m.name s.debugCookieAge
  transform id code importers := if id ∈ importers then Import.toRequires id code else .ok none
  aroundDynamicImport := Chunk.aroundDynamicImport s
  renderChunk := Chunk.render s
  finishBundle := Bundle.finish s

end Plugin
end GadgetBuild
