import LogRules.Assembly
import LogRules.Build
import LogRules.Builtin
import LogRules.Call.Action
import LogRules.Call.Reader
import LogRules.CommandLine.Arguments
import LogRules.CommandLine.Directory
import LogRules.CommandLine.Execute
import LogRules.CommandLine.Record
import LogRules.Config
import LogRules.Config.Reader
import LogRules.Device
import LogRules.Device.Reader
import LogRules.Diagnostic.Basic
import LogRules.Diagnostic.Excerpt
import LogRules.Diagnostic.Row
import LogRules.Diagnostic.Snippet
import LogRules.Diagnostic.Window
import LogRules.FieldName
import LogRules.Json.Basic
import LogRules.Json.Reader
import LogRules.Json.Token
import LogRules.LexError
import LogRules.Matching.Basic
import LogRules.Matching.Constant
import LogRules.Matching.Run
import LogRules.Network.Address
import LogRules.Network.Block
import LogRules.Pattern.Basic
import LogRules.Pattern.Lexeme
import LogRules.Pattern.Reader
import LogRules.Pattern.Segment
import LogRules.Processing.Compile
import LogRules.Processing.Function
import LogRules.Processing.Operation
import LogRules.Processing.Processor
import LogRules.Processing.Program
import LogRules.Processing.Settings
import LogRules.Processing.Trace
import LogRules.Table
import LogRules.Text.Blank
import LogRules.Text.Decimal
import LogRules.Text.Quoted
import LogRules.Text.Split
import LogRules.Text.Unprintable
import LogRules.Text.Utf8
import LogRules.Text.Width
import LogRules.Time.Components
import LogRules.Time.Date
import LogRules.Time.Duration
import LogRules.Time.Layout
import LogRules.Time.Moment
import LogRules.Time.Offset
import LogRules.TimeFormat
import LogRules.Transform.Calls
import LogRules.Transform.Pass
import LogRules.Transform.Payload
import LogRules.Transform.Sharing
import LogRules.Transform.Spacing
import LogRules.Transform.Standard
import LogRules.Tree.Edit
import LogRules.Tree.Node
import LogRules.Tree.Render
import LogRules.Tree.Source
import LogRules.Tree.Walk
import LogRules.Value
import LogRules.Main
import LogRules.Proofs.Table
import LogRules.Proofs.Tree.Inline
import LogRules.Proofs.Tree.Labels
import LogRules.Proofs.Sharing.Meaning
import LogRules.Proofs.Sharing.Store
import LogRules.Proofs.Sharing.Hoisting
import LogRules.Proofs.Sharing.Rounds
import LogRules.Proofs.Sharing.Extraction
import LogRules.Proofs.Sharing.Sizes
import LogRules.Proofs.Processing.Relabelling
import LogRules.Proofs.Processing.Inlining
import LogRules.Proofs.Result
import LogRules.Proofs.Pattern.Lexemes
import LogRules.Proofs.Pattern.Segments
import LogRules.Proofs.Pipeline.Unshared
import LogRules.Proofs.Pipeline.Assembled
import LogRules.Proofs.Pipeline.Sharing
import LogRules.Proofs.Matching.Spaces
import LogRules.Proofs.Matching.Filling
import LogRules.Proofs.Matching.RoundTrip
import LogRules.Proofs.Matching.Separators
import LogRules.Proofs.Pattern.RoundTrip
import LogRules.Proofs.Matching.Constants
import LogRules.Proofs.Matching.Decomposition
import LogRules.Proofs.Matching.SpaceRuns
import LogRules.Proofs.Pattern.Regular
import LogRules.Proofs.Matching.Accepted
import LogRules.Proofs.Tree.Everywhere
import LogRules.Proofs.Processing.Failures
import LogRules.Proofs.Pipeline.Fitting
import LogRules.Proofs.Pipeline.Executable
import LogRules.Proofs.Sharing.Nodes
import LogRules.Proofs.Processing.Atomicity
import LogRules.Proofs.Pattern.Anchored
import LogRules.Proofs.Pipeline.Anchoring
import LogRules.Proofs.Tree.Actions
import LogRules.Proofs.Pipeline.Rewriting
import LogRules.Proofs.Pipeline.Targets
import LogRules.Proofs.Matching.Chunks
import LogRules.Proofs.Matching.Steps
import LogRules.Proofs.Matching.Routes
import LogRules.Proofs.Matching.Groups
import LogRules.Proofs.Processing.References
import LogRules.Proofs.Call.RoundTrip
import LogRules.Proofs.Assembly.Rules
import LogRules.Proofs.Tree.LocalEdits
import LogRules.Proofs.Processing.Dispatch
import LogRules.Proofs.Pipeline.Views
import LogRules.Proofs.Pipeline.Isolation
import LogRules.Proofs.Assembly.Faults
import LogRules.Proofs.Assembly.Groups
import LogRules.Proofs.Readers
import LogRules.Proofs.Json.Decoding
import LogRules.Proofs.CommandLine.Records
import LogRules.Proofs.Matching.Acceptance
import LogRules.Proofs.Matching.Payload
import LogRules.Proofs.Text.Places
import LogRules.Proofs.Call.Errors
import LogRules.Proofs.Pattern.Errors
import LogRules.Proofs.Json.Lexing
import LogRules.Proofs.Call.Assignments
import LogRules.Proofs.Call.Grammar
import LogRules.Proofs.Matching.Residue
import LogRules.Proofs.Matching.LeadingSpaces
import LogRules.Proofs.Tree.RuleEdits
import LogRules.Proofs.Pattern.Separated
import LogRules.Proofs.Pattern.Expansions
import LogRules.Proofs.Processing.Compiles
import LogRules.Proofs.Processing.Blame
import LogRules.Proofs.Processing.Cleanup
import LogRules.Proofs.Pipeline.Arity
import LogRules.Proofs.Assembly.Pairs
import LogRules.Proofs.Pipeline.ValueMaps
import LogRules.Proofs.Sharing.Entities
import LogRules.Proofs.Sharing.Replacement
import LogRules.Proofs.Sharing.Uniqueness
import LogRules.Proofs.Matching.Stripping
import LogRules.Proofs.Text.Decimal
import LogRules.Proofs.Text.Split
import LogRules.Proofs.Processing.Settings
import LogRules.Proofs.Time.Offsets
import LogRules.Proofs.Time.Durations
import LogRules.Proofs.Time.Reading
import LogRules.Proofs.Time.Parts
import LogRules.Proofs.Time.Completion
import LogRules.Proofs.Time.Layouts
import LogRules.Proofs.Network.Membership
import LogRules.Proofs.Text.Utf8
import LogRules.Proofs.Matching.Characters
import LogRules.Proofs.Processing.Texts
import LogRules.Proofs.Diagnostic.Ranges
import LogRules.Proofs.Processing.Traces
import LogRules.Proofs.Tree.Depths
import LogRules.Proofs.Matching.Leftmost
import LogRules.Proofs.Pattern.Splitting
import LogRules.Proofs.Time.Formats
