import GadgetBuild.Command.FileTree
import GadgetBuild.Main
import GadgetBuild.ModuleIds
import GadgetBuild.Proofs.Bundle.Atomicity
import GadgetBuild.Proofs.Bundle.Shipping
import GadgetBuild.Proofs.Chunk.MainChunk
import GadgetBuild.Proofs.Command.Agreement
import GadgetBuild.Proofs.Config.Merging
import GadgetBuild.Proofs.Externals.Names
import GadgetBuild.Proofs.Import.DefaultImports
import GadgetBuild.Proofs.Import.Idempotence
import GadgetBuild.Proofs.Import.NamedImports
import GadgetBuild.Proofs.Import.Origins
import GadgetBuild.Proofs.Json.Faithfulness
import GadgetBuild.Proofs.Lines.NextSource
import GadgetBuild.Proofs.Options.Strictness
import GadgetBuild.Proofs.Overlay.Conservation
import GadgetBuild.Proofs.Overlay.Decisions
import GadgetBuild.Proofs.Overlay.Edges
import GadgetBuild.Proofs.Overlay.Origins
import GadgetBuild.Proofs.Overlay.Pieces
import GadgetBuild.Proofs.Plugin.Calls
import GadgetBuild.Proofs.Session.Promises
import GadgetBuild.Proofs.Template.CarriageReturns
import GadgetBuild.Proofs.Template.Comments
import GadgetBuild.Proofs.Template.Hygiene
import GadgetBuild.Proofs.Template.Indentation
