import GraphCodec.Command.Arguments
import GraphCodec.Command.Basic
import GraphCodec.Command.Run
import GraphCodec.Container.Builder
import GraphCodec.Container.Leaf
import GraphCodec.Container.StructArray
import GraphCodec.Container.Tree
import GraphCodec.Dictionary.Basic
import GraphCodec.Dictionary.Header
import GraphCodec.Dictionary.Listing
import GraphCodec.Dictionary.OfSchema
import GraphCodec.Digest
import GraphCodec.Fault
import GraphCodec.Host.Basic
import GraphCodec.Host.FileSystem
import GraphCodec.Host.Path
import GraphCodec.Image.Cursor
import GraphCodec.Image.Primitive
import GraphCodec.Image.Reader
import GraphCodec.Image.Sink
import GraphCodec.Image.Writer
import GraphCodec.Instant.Basic
import GraphCodec.Instant.Calendar
import GraphCodec.Instant.Rfc3339
import GraphCodec.Json.Basic
import GraphCodec.Json.Parser
import GraphCodec.Json.Printer
import GraphCodec.Json.Token
import GraphCodec.Kind
import GraphCodec.Main
import GraphCodec.MatFile.Header
import GraphCodec.MatFile.Image
import GraphCodec.Matlab.Field
import GraphCodec.Matlab.Generator
import GraphCodec.Matlab.Literal
import GraphCodec.Matlab.Precision
import GraphCodec.Matlab.Printer
import GraphCodec.Matlab.Syntax
import GraphCodec.Matlab.Wrapper
import GraphCodec.Number.Binary
import GraphCodec.Number.Digits
import GraphCodec.Number.Power
import GraphCodec.Number.Scaled
import GraphCodec.Number.Shortest
import GraphCodec.Proofs.Alignment
import GraphCodec.Proofs.Backends
import GraphCodec.Proofs.Blocks
import GraphCodec.Proofs.Bracketing
import GraphCodec.Proofs.Building
import GraphCodec.Proofs.ByteLiterals
import GraphCodec.Proofs.Calendar
import GraphCodec.Proofs.Calls
import GraphCodec.Proofs.CodeBuffer
import GraphCodec.Proofs.CodeReader
import GraphCodec.Proofs.Conformance
import GraphCodec.Proofs.DateText
import GraphCodec.Proofs.Decoding
import GraphCodec.Proofs.DocumentTyping
import GraphCodec.Proofs.Documents
import GraphCodec.Proofs.Drafting
import GraphCodec.Proofs.Encoding
import GraphCodec.Proofs.ExactDates
import GraphCodec.Proofs.Execution
import GraphCodec.Proofs.Exporting
import GraphCodec.Proofs.Expressions
import GraphCodec.Proofs.Failing
import GraphCodec.Proofs.FieldCode
import GraphCodec.Proofs.FileSet
import GraphCodec.Proofs.FrameStack
import GraphCodec.Proofs.Header
import GraphCodec.Proofs.HeaderCode
import GraphCodec.Proofs.Layout
import GraphCodec.Proofs.LeastWidth
import GraphCodec.Proofs.Level5
import GraphCodec.Proofs.Likeness
import GraphCodec.Proofs.Listening
import GraphCodec.Proofs.Loading
import GraphCodec.Proofs.Lookahead
import GraphCodec.Proofs.MatElement
import GraphCodec.Proofs.MatImage
import GraphCodec.Proofs.NameIndex
import GraphCodec.Proofs.Naming
import GraphCodec.Proofs.Nesting
import GraphCodec.Proofs.NodeCount
import GraphCodec.Proofs.Places
import GraphCodec.Proofs.PostOrder
import GraphCodec.Proofs.PrefixFree
import GraphCodec.Proofs.Reachability
import GraphCodec.Proofs.ReadableCode
import GraphCodec.Proofs.ReadableFiles
import GraphCodec.Proofs.Reading
import GraphCodec.Proofs.RecordTree
import GraphCodec.Proofs.Reencoding
import GraphCodec.Proofs.Registering
import GraphCodec.Proofs.Relevance
import GraphCodec.Proofs.Replay
import GraphCodec.Proofs.Restoring
import GraphCodec.Proofs.RoundTrip
import GraphCodec.Proofs.Rounding
import GraphCodec.Proofs.SavedFront
import GraphCodec.Proofs.Scalar
import GraphCodec.Proofs.SchemaTypes
import GraphCodec.Proofs.SetHistory
import GraphCodec.Proofs.SharedLayout
import GraphCodec.Proofs.ShownFields
import GraphCodec.Proofs.Skeleton
import GraphCodec.Proofs.Slot
import GraphCodec.Proofs.StackShape
import GraphCodec.Proofs.Stopping
import GraphCodec.Proofs.StoredDates
import GraphCodec.Proofs.StructArray
import GraphCodec.Proofs.TagLookup
import GraphCodec.Proofs.Tokens
import GraphCodec.Proofs.TypeFunctions
import GraphCodec.Proofs.TypeKeys
import GraphCodec.Proofs.TypeOrder
import GraphCodec.Proofs.Variables
import GraphCodec.Proofs.WalkEvents
import GraphCodec.Proofs.WellFormed
import GraphCodec.Proofs.Writing
import GraphCodec.Schema.Basic
import GraphCodec.Schema.Document
import GraphCodec.Text.Blank
import GraphCodec.Text.Utf8
import GraphCodec.Toml.Basic
import GraphCodec.Toml.Parser
import GraphCodec.Toml.Scalar
import GraphCodec.Toml.Table
import GraphCodec.Toml.Token
import GraphCodec.Value.Basic
import GraphCodec.Value.Json
import GraphCodec.Walk.SchemaWalk
import GraphCodec.Walk.Trace
import GraphCodec.Walk.ValueWalk
import GraphCodec.Word
