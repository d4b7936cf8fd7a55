import GadgetBuild.Plugin

/-!
Sessions: a plugin under the calls of a build tool, with the configuration they work on and the
warnings that nobody has taken yet.
-/

namespace GadgetBuild

structure Warning where
  plugin : Text
  message : Text
  deriving DecidableEq, Repr

def Warning.text (w : Warning) : Text :=
  '[' :: w.plugin ++ "]: ".toList ++ w.message

structure Session (σ : Type) where
  state : σ
  config : Config
  warnings : List Warning

namespace Session

inductive Call where
  | resolve (source : Text) (importer : Option Text)
  | load (id : Text)
  | transform (id code : Text)
  | aroundDynamicImport
  | renderChunk (format : Format) (chunks : Table Chunk) (code : Text) (chunk : Chunk)
  | finishBundle (format : Format) (bundle : Bundle)
  /-- Completes a configuration, or again the one that the last such call left. -/
  | config (given : Option Config)
  | warn (plugin message : Text)
  | takeWarnings

inductive Answer where
  | resolved (id : Option Text)
  | loaded (code : Option Text)
  | transformed (result : Except Failure (Option Traced))
  | around (parts : Option (Text × Text))
  | rendered (chunk : Chunk) (result : Except Failure (Option Traced))
  | finished (bundle : Bundle) (result : Except Failure Unit)
  | configured (config : Config)
  | warned
  | taken (warnings : List Warning)

def start {σ : Type} (p : Plugin σ) : Session σ :=
  ⟨p.start, .empty, []⟩

/-- One call: the session behind it, and its answer. -/
def step {σ : Type} (p : Plugin σ) (s : Session σ) : Call → Session σ × Answer
  | .resolve source importer =>
    let (state, id) := p.resolve source importer s.state
    ({ s with state := state }, .resolved id)
  | .load id => (s, .loaded (p.load id))
  | .transform id code => (s, .transformed (p.transform id code s.state))
  | .aroundDynamicImport => (s, .around p.aroundDynamicImport)
  | .renderChunk format chunks code chunk =>
    let (chunk, result) := p.renderChunk format chunks code chunk
    (s, .rendered chunk result)
  | .finishBundle format bundle =>
    let (bundle, result) := p.finishBundle format bundle
    (s, .finished bundle result)
  | .config given =>
    let (config, warning) := p.config (given.getD s.config)
    let warnings := warning.toList.map fun f => ⟨p.name, f.message⟩
    (⟨s.state, config, s.warnings ++ warnings⟩, .configured config)
  | .warn plugin message => ({ s with warnings := s.warnings ++ [⟨plugin, message⟩] }, .warned)
  | .takeWarnings => ({ s with warnings := [] }, .taken s.warnings)

/-- Calls in turn: the session behind them, and their answers. -/
def run {σ : Type} (p : Plugin σ) (s : Session σ) : List Call → Session σ × List Answer
  | [] => (s, [])
  | call :: calls =>
    let (s, answer) := s.step p call
    let (s, answers) := s.run p calls
    (s, answer :: answers)

end Session
end GadgetBuild
