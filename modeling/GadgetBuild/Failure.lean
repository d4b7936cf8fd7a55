import GadgetBuild.Overlay.Edit

/-!
Why a build fails, and the words for it.
-/

namespace GadgetBuild

/-- What is wrong with an entry between the braces of an import. -/
inductive ClauseFault where
  | empty
  | noImportedName
  | noLocalName
  | manyAliases
  | strayBlank
  deriving DecidableEq, Repr

inductive Failure where
  | placeholderCount (count : Nat)
  | scriptNotOnOwnLine
  | libAlreadyConfigured
  | unhoistedChunkInUse (chunk : Text)
  | unhoistedRequireNotFound (statement : Text)
  | malformedClause (module clause : Text) (fault : ClauseFault)
  | unrecognizedImport (module statement : Text)
  | edit (fault : Overlay.Fault)
  deriving DecidableEq, Repr

def ClauseFault.message : ClauseFault → Text
  | .empty => "empty import specifier".toList
  | .noImportedName => "missing imported name before `as`".toList
  | .noLocalName => "missing local name after `as`".toList
  | .manyAliases => "more than one `as` in a specifier".toList
  | .strayBlank => "unexpected whitespace inside a specifier".toList

def Failure.message : Failure → Text
  | .placeholderCount n =>
    "Userscript template does not have exactly one 'script' tag (found ".toList ++
      Text.ofNat n ++ ").".toList
  | .scriptNotOnOwnLine =>
    "Userscript template must place 'script'; on its own indented line.".toList
  | .libAlreadyConfigured =>
    "config.lib already set. Not touching it! ".toList ++
      "Set `ignoreBuildOptions` to `true` to remove this warning.".toList
  | .unhoistedChunkInUse chunk => chunk ++ " imports are being used!".toList
  | .unhoistedRequireNotFound statement => '`' :: statement ++ "` not found!".toList
  | .malformedClause m clause fault =>
    "Malformed import clause `".toList ++ clause ++ "` for external module \"".toList ++ m ++
      "\": ".toList ++ fault.message
  | .unrecognizedImport m statement =>
    "Unrecognized import of external module \"".toList ++ m ++ "\": `".toList ++ statement ++ ['`']
  | .edit f => f.message

/-- What a build reports when it ends: a failure of its own, or what came from outside. -/
inductive Cause where
  | failure (f : Failure)
  | other (message : Text)
  deriving DecidableEq, Repr

def Cause.message : Cause → Text
  | .failure f => f.message
  | .other message => message

end GadgetBuild
