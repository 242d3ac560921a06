import ShaderPack.Main
import ShaderPack.Proofs.DepthFirst
import ShaderPack.Proofs.InstructionStream
import ShaderPack.Proofs.Renaming
import ShaderPack.Proofs.ScheduleOrder
import ShaderPack.Proofs.Steps
import ShaderPack.Proofs.Tables
import ShaderPack.Proofs.Runs
import ShaderPack.Proofs.Handles
import ShaderPack.Proofs.ResolvedCode
import ShaderPack.Proofs.Verdicts
import ShaderPack.Proofs.Modes
import ShaderPack.Proofs.Expansion
import ShaderPack.Proofs.Locality
import ShaderPack.Proofs.Flattening
import ShaderPack.Proofs.ImportEdges
import ShaderPack.Proofs.Outcome
import ShaderPack.Proofs.Links
import ShaderPack.Proofs.References
import ShaderPack.Proofs.Characters
import ShaderPack.Proofs.Rewriting
import ShaderPack.Proofs.Cuts
import ShaderPack.Proofs.Safety
import ShaderPack.Proofs.ContainerReader
import ShaderPack.Proofs.SectionLength
import ShaderPack.Proofs.Agenda
import ShaderPack.Proofs.ClosureBound
import ShaderPack.Proofs.ValidationFilter
import ShaderPack.Proofs.StreamGrammar
import ShaderPack.Proofs.RegisterHistory
import ShaderPack.Proofs.JsonTokens
import ShaderPack.Proofs.JsonValues
import ShaderPack.Proofs.ProgramText
import ShaderPack.Proofs.CyclicPart
import ShaderPack.Proofs.Levels
import ShaderPack.Proofs.RecursiveSearch
import ShaderPack.Proofs.Passes
import ShaderPack.Proofs.Occurrences
import ShaderPack.Proofs.Uses
import ShaderPack.Proofs.Literals
import ShaderPack.Proofs.NameGraph
import ShaderPack.Proofs.DeclaredNames
import ShaderPack.Proofs.BitGroups
import ShaderPack.Proofs.CommitHistory
import ShaderPack.Proofs.StoredText
import ShaderPack.Proofs.ArgumentGrammar
import ShaderPack.Proofs.OptionSources
import ShaderPack.Proofs.BlobHistory
import ShaderPack.Proofs.Growth
import ShaderPack.Proofs.StringHistory
