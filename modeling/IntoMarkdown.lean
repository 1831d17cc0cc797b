import IntoMarkdown.Core.Progress
import IntoMarkdown.Core.Cancellation
import IntoMarkdown.Core.MemoryAccounting
import IntoMarkdown.Lib.Directory
import IntoMarkdown.Recovery.Envelope
import IntoMarkdown.Recovery.Store
import IntoMarkdown.Recovery.Commit
import IntoMarkdown.Recovery.Retry
import IntoMarkdown.Recovery.Crash
import IntoMarkdown.Lib.Json
import IntoMarkdown.Recovery.Metadata
import IntoMarkdown.Lib.JsonText
import IntoMarkdown.Recovery.Authentic
import IntoMarkdown.Lib.JsonCut
import IntoMarkdown.Transaction.Model
import IntoMarkdown.Transaction.Slots
import IntoMarkdown.Transaction.Loadable
import IntoMarkdown.Lib.JsonSchema
import IntoMarkdown.Transaction.JournalJson
import IntoMarkdown.Transaction.Log
import IntoMarkdown.Transaction.Replay
import IntoMarkdown.Transaction.Session
import IntoMarkdown.Transaction.RecordJson
import IntoMarkdown.TaskStore.Model
import IntoMarkdown.TaskStore.Operations
import IntoMarkdown.TaskStore.Connections
import IntoMarkdown.TaskStore.Invariant
import IntoMarkdown.TaskStore.Reading
import IntoMarkdown.TaskStore.Runs
import IntoMarkdown.Http.Client
import IntoMarkdown.Http.Authorized
import IntoMarkdown.Plugin.Frame
import IntoMarkdown.Plugin.Host
import IntoMarkdown.Plugin.Runs
import IntoMarkdown.Plugin.Conversation
import IntoMarkdown.Lib.Base64
import IntoMarkdown.Lib.JsonLength
import IntoMarkdown.Plugin.Worker
import IntoMarkdown.Plugin.Exchange
import IntoMarkdown.Plugin.Lossless
import IntoMarkdown.Http.Head
import IntoMarkdown.Http.Body
import IntoMarkdown.Http.Chain
import IntoMarkdown.Http.Framing
import IntoMarkdown.Http.Exact
import IntoMarkdown.Http.Responses
import IntoMarkdown.Lib.Tiling
import IntoMarkdown.Ir.Model
import IntoMarkdown.Ir.Table
import IntoMarkdown.Lib.Strings
import IntoMarkdown.Render.Text
import IntoMarkdown.Render.Inline
import IntoMarkdown.Lib.MarkdownLines
import IntoMarkdown.Render.Paragraph
import IntoMarkdown.Render.Table
import IntoMarkdown.Render.Grid
import IntoMarkdown.Render.Output
import IntoMarkdown.Ir.Validate
import IntoMarkdown.Render.Assets
import IntoMarkdown.Render.Blocks
import IntoMarkdown.Render.Failures
import IntoMarkdown.Render.Planned
import IntoMarkdown.Render.Total
import IntoMarkdown.Render.Order
import IntoMarkdown.Lib.MarkdownCode
import IntoMarkdown.Render.Code
import IntoMarkdown.Lib.Carries
import IntoMarkdown.Render.Footnotes
import IntoMarkdown.Converters.Delimited
import IntoMarkdown.Converters.DelimitedGrammar
import IntoMarkdown.Converters.DelimitedScan
import IntoMarkdown.Converters.DelimitedText
import IntoMarkdown.Lib.Paths
import IntoMarkdown.Zip.EntryNames
import IntoMarkdown.Zip.EntryTree
import IntoMarkdown.Zip.EntryOrder
import IntoMarkdown.Xls.Expression
import IntoMarkdown.Xls.Formula
import IntoMarkdown.Lib.Uri
import IntoMarkdown.Epub.Path
import IntoMarkdown.Epub.Resolve
import IntoMarkdown.Epub.Confined
import IntoMarkdown.Ocr.Dedup
import IntoMarkdown.Ocr.Retained
import IntoMarkdown.Ocr.AllPairs
import IntoMarkdown.Http.Disposition
import IntoMarkdown.Http.HeaderValues
import IntoMarkdown.Docx.Tables
import IntoMarkdown.Http.DispositionExact
import IntoMarkdown.Docx.SourceGrid
import IntoMarkdown.Docx.Pieces
import IntoMarkdown.Docx.Merged
import IntoMarkdown.Docx.Normalized
import IntoMarkdown.Docx.Lists
import IntoMarkdown.Docx.Numbering
import IntoMarkdown.Docx.ListNumbers
import IntoMarkdown.Result.Policy
import IntoMarkdown.Result.Visible
import IntoMarkdown.Result.Agreement
import IntoMarkdown.Asr.Diarization
import IntoMarkdown.Asr.Turns
import IntoMarkdown.Asr.Transcript
import IntoMarkdown.Asr.Assigned
import IntoMarkdown.Asr.Labels
import IntoMarkdown.Drawio.Graph
import IntoMarkdown.Lib.Forest
import IntoMarkdown.Drawio.Cycles
import IntoMarkdown.Drawio.Resolved
import IntoMarkdown.Drawio.Places
import IntoMarkdown.Drawio.Faithful
import IntoMarkdown.Sheet.Formulas
import IntoMarkdown.Sheet.SheetIndex
import IntoMarkdown.Sheet.Metadata
import IntoMarkdown.Sheet.Position
import IntoMarkdown.Sheet.SheetRuns
import IntoMarkdown.Sheet.Steps
import IntoMarkdown.Sheet.Follows
import IntoMarkdown.Sheet.Passes
import IntoMarkdown.Lib.Erasure
import IntoMarkdown.Sheet.IndexPass
import IntoMarkdown.Sheet.Scanned
import IntoMarkdown.Sheet.Columns
import IntoMarkdown.Sheet.Tokens
import IntoMarkdown.Sheet.Reading
import IntoMarkdown.Sheet.Still
import IntoMarkdown.Sheet.Translation
import IntoMarkdown.Sheet.Translated
import IntoMarkdown.Sheet.Composed
import IntoMarkdown.Sheet.SharedFormulas
import IntoMarkdown.Sheet.OnlyClear
import IntoMarkdown.Lib.Boxes
import IntoMarkdown.Sheet.Regions
import IntoMarkdown.Sheet.Overlap
import IntoMarkdown.Sheet.InputRegions
import IntoMarkdown.Sheet.Coalesced
import IntoMarkdown.Sheet.Pages
import IntoMarkdown.Sheet.Partition
import IntoMarkdown.Lib.Grouping
import IntoMarkdown.Asr.Merging
import IntoMarkdown.Asr.Relabelled
import IntoMarkdown.Xls.Arena
import IntoMarkdown.Xls.Reading
import IntoMarkdown.Decoding.Conversion
