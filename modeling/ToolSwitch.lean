import ToolSwitch.Main
import ToolSwitch.Proofs.Markup.Forest
import ToolSwitch.Proofs.Markup.Nesting
import ToolSwitch.Proofs.Markup.Written
import ToolSwitch.Proofs.Markup.Standing
import ToolSwitch.Proofs.Schema.Reading
import ToolSwitch.Proofs.Schema.Outline
import ToolSwitch.Proofs.Schema.Tree
import ToolSwitch.Proofs.Schema.Acceptance
import ToolSwitch.Proofs.Generation.Blocks
import ToolSwitch.Proofs.Generation.Scope
import ToolSwitch.Proofs.Text.Utf16
import ToolSwitch.Proofs.CSharp.Source
import ToolSwitch.Proofs.CSharp.Escaping
import ToolSwitch.Proofs.CSharp.Lines
import ToolSwitch.Proofs.Accessor.Shape
import ToolSwitch.Proofs.Accessor.Decoding
import ToolSwitch.Proofs.Schema.Stages
import ToolSwitch.Proofs.Schema.Requests
import ToolSwitch.Proofs.Markup.Truncation
import ToolSwitch.Proofs.Markup.Path
import ToolSwitch.Proofs.Schema.Truncation
import ToolSwitch.Proofs.Generation.Streaming
import ToolSwitch.Proofs.Json.Quoting
import ToolSwitch.Proofs.Json.Rendering
import ToolSwitch.Proofs.Schema.Json
import ToolSwitch.Proofs.Files.Leads
import ToolSwitch.Proofs.Files.Path
import ToolSwitch.Proofs.Files.Changes
import ToolSwitch.Proofs.Files.Walk
import ToolSwitch.Proofs.Files.Sources
import ToolSwitch.Proofs.Batch.Run
import ToolSwitch.Proofs.Batch.Outcome
import ToolSwitch.Proofs.Batch.Sources
import ToolSwitch.Proofs.CommandLine.Modes
import ToolSwitch.Proofs.CommandLine.Untouched
import ToolSwitch.Proofs.CommandLine.Proper
import ToolSwitch.Proofs.Settings.Acceptance
import ToolSwitch.Proofs.Accessor.Printable
import ToolSwitch.Proofs.Relay.Lines
import ToolSwitch.Proofs.Generation.Getters
import ToolSwitch.Proofs.Generation.Ending
import ToolSwitch.Proofs.Markup.Stacks
import ToolSwitch.Proofs.Markup.Cut
import ToolSwitch.Proofs.Markup.Lookup
import ToolSwitch.Proofs.Markup.Layout
import ToolSwitch.Proofs.Markup.Rearrangement
import ToolSwitch.Proofs.Markup.Replacement
import ToolSwitch.Proofs.Schema.Stacks
import ToolSwitch.Proofs.Schema.Enclosure
import ToolSwitch.Proofs.Schema.Alike
import ToolSwitch.Proofs.Schema.Attributes
