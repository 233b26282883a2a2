import DeferredLog.Text.CharClass
import DeferredLog.Text.Quoted
import DeferredLog.Text.Utf8
import DeferredLog.FormatString.Parser
import DeferredLog.Number.Decimal
import DeferredLog.Json.Parser
import DeferredLog.Display.Escape
import DeferredLog.Display.Float
import DeferredLog.Table.Basic
import DeferredLog.Value
import DeferredLog.Wire.Cursor
import DeferredLog.Wire.Argument
import DeferredLog.Display.Value
import DeferredLog.Frame.Line
import DeferredLog.Frame.Structure
import DeferredLog.Frame.Stream
import DeferredLog.Check.Formats
import DeferredLog.Metadata.Build
import DeferredLog.Metadata.ElfImage
import DeferredLog.Check.Firmware
import DeferredLog.Check.Command
import DeferredLog.Main
import DeferredLog.Proofs.Table.Memory
import DeferredLog.Proofs.Frame.Memory
import DeferredLog.Proofs.Wire.Prefix
import DeferredLog.Proofs.Frame.Prefix
import DeferredLog.Proofs.Frame.Draining
import DeferredLog.Proofs.Frame.Chunks
import DeferredLog.Proofs.Frame.Machine
import DeferredLog.Proofs.Frame.Operations
import DeferredLog.Proofs.Text.Utf8
import DeferredLog.Proofs.Wire.Encoding
import DeferredLog.Proofs.Wire.RoundTrip
import DeferredLog.Proofs.Frame.RoundTrip
import DeferredLog.Proofs.Table.Defects
import DeferredLog.Proofs.Display.Memory
import DeferredLog.Proofs.Frame.Sharing
import DeferredLog.Proofs.Wire.Conformance
import DeferredLog.Proofs.Display.FloatRange
import DeferredLog.Proofs.FormatString.Slots
import DeferredLog.Proofs.Display.Outcome
import DeferredLog.Proofs.Frame.Rendering
import DeferredLog.Proofs.Metadata.Steps
import DeferredLog.Proofs.Metadata.Discipline
import DeferredLog.Proofs.Display.BitRanges
import DeferredLog.Proofs.Check.Formats
import DeferredLog.Proofs.Metadata.RecordSection
import DeferredLog.Proofs.Metadata.Locations
import DeferredLog.Proofs.Metadata.LevelTags
import DeferredLog.Proofs.Metadata.RecordRuns
import DeferredLog.Proofs.Metadata.SymbolTable
import DeferredLog.Proofs.Metadata.SymbolOrder
import DeferredLog.Proofs.FormatString.RoundTrip
import DeferredLog.Proofs.Frame.Nesting
import DeferredLog.Proofs.Wire.Fitting
import DeferredLog.Proofs.FormatString.Grammar
import DeferredLog.Proofs.Display.Integer
import DeferredLog.Proofs.Display.Hints
import DeferredLog.Proofs.Metadata.Attaching
import DeferredLog.Proofs.Wire.Groups
import DeferredLog.Proofs.Display.Escape
import DeferredLog.Proofs.Display.Shortest
