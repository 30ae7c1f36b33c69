import FrameSymbols.Action
import FrameSymbols.Arity
import FrameSymbols.Blob
import FrameSymbols.Context
import FrameSymbols.Error
import FrameSymbols.GeneratedName
import FrameSymbols.Image
import FrameSymbols.Memory
import FrameSymbols.Module
import FrameSymbols.Module.Members
import FrameSymbols.Module.NamedTypes
import FrameSymbols.ModuleId
import FrameSymbols.ModuleId.Parse
import FrameSymbols.Options
import FrameSymbols.Provenance
import FrameSymbols.Symbol
import FrameSymbols.Tables
import FrameSymbols.Text.Blank
import FrameSymbols.Text.Hex
import FrameSymbols.Text.Utf8
import FrameSymbols.Token
import FrameSymbols.TypeName
import FrameSymbols.TypeName.Parse
import FrameSymbols.Visibility
import FrameSymbols.Proofs.Symbol
import FrameSymbols.Proofs.Symbol.Instances
import FrameSymbols.Proofs.Module.Coherence
import FrameSymbols.Proofs.Module.Enclosing
import FrameSymbols.Proofs.Image.Rows
import FrameSymbols.Proofs.Tables.Owners
import FrameSymbols.Proofs.Tables.Arithmetic
import FrameSymbols.Proofs.Module.Remembered
import FrameSymbols.Proofs.Module.Transparency
import FrameSymbols.Proofs.Module.NamedTypes
import FrameSymbols.Proofs.Provenance.ByAttribute
import FrameSymbols.Proofs.Blob
import FrameSymbols.Proofs.Blob.Cursor
import FrameSymbols.Proofs.Blob.Compressed
import FrameSymbols.Proofs.Blob.Words
import FrameSymbols.Proofs.Blob.Argument
import FrameSymbols.Proofs.GeneratedName
import FrameSymbols.Proofs.GeneratedName.Grammar
import FrameSymbols.Proofs.GeneratedName.SourceNames
import FrameSymbols.Proofs.GeneratedName.Stored
import FrameSymbols.Proofs.Image.Step
import FrameSymbols.Proofs.Image.Grown
import FrameSymbols.Proofs.Image.Log
import FrameSymbols.Proofs.Image.Attributes
import FrameSymbols.Proofs.Image.Refinement
import FrameSymbols.Proofs.Module.Regular
import FrameSymbols.Proofs.TypeName.Reading
import FrameSymbols.Proofs.TypeName.Spelling
import FrameSymbols.Proofs.TypeName.Canonical
import FrameSymbols.Proofs.TypeName.Accepted
import FrameSymbols.Proofs.TypeName.Escapes
import FrameSymbols.Proofs.TypeName.Machine
import FrameSymbols.Proofs.TypeName.Progress
import FrameSymbols.Proofs.Module.Paths
import FrameSymbols.Proofs.Module.SerializedNames
import FrameSymbols.Proofs.Provenance.Recovery
import FrameSymbols.Proofs.Context.Assembly
import FrameSymbols.Proofs.Tables.Runs
import FrameSymbols.Proofs.Module.Members
import FrameSymbols.Proofs.Module.NameScan
import FrameSymbols.Proofs.Module.Damage
import FrameSymbols.Proofs.Module.NestingLimit
import FrameSymbols.Proofs.Context.Conversation
import FrameSymbols.Proofs.Context.Refusals
import FrameSymbols.Proofs.Context.Isolation
import FrameSymbols.Proofs.Context.LoadOrder
import FrameSymbols.Proofs.Context.Sources
import FrameSymbols.Proofs.Module.ImportLevels
import FrameSymbols.Proofs.Provenance.StepSources
import FrameSymbols.Proofs.Provenance.ImportLevels
import FrameSymbols.Proofs.Module.Identity
import FrameSymbols.Proofs.Provenance.Instances
import FrameSymbols.Proofs.Provenance.Outward
import FrameSymbols.Proofs.TypeName.Simulation
import FrameSymbols.Proofs.TypeName.Termination
