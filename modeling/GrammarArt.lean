import GrammarArt.Binary32.Basic
import GrammarArt.Binary32.Printer
import GrammarArt.Binary32.Reader
import GrammarArt.Binary32.Shortest
import GrammarArt.Binary64
import GrammarArt.Choice
import GrammarArt.Color
import GrammarArt.CommandLine.Disk
import GrammarArt.CommandLine.Help
import GrammarArt.CommandLine.Host
import GrammarArt.CommandLine.Invocation
import GrammarArt.CommandLine.Option
import GrammarArt.CommandLine.Path
import GrammarArt.CommandLine.Run
import GrammarArt.CommandLine.Sandbox
import GrammarArt.CommandLine.Trouble
import GrammarArt.Derivation
import GrammarArt.Engine
import GrammarArt.Engine.Watch
import GrammarArt.Expression.Parser
import GrammarArt.Expression.Token
import GrammarArt.Failure
import GrammarArt.Frame
import GrammarArt.Grammar.Basic
import GrammarArt.Grammar.Compile
import GrammarArt.Grammar.Definition
import GrammarArt.Grammar.Error
import GrammarArt.Grammar.Preset
import GrammarArt.Json.Basic
import GrammarArt.Json.Number
import GrammarArt.Json.Printer
import GrammarArt.Json.Reader
import GrammarArt.Json.Record
import GrammarArt.Json.Token
import GrammarArt.Kind
import GrammarArt.Main
import GrammarArt.Memory
import GrammarArt.Png
import GrammarArt.Program.Basic
import GrammarArt.Program.Printer
import GrammarArt.Proofs.Engine.Schedule
import GrammarArt.Proofs.Frame.Sample
import GrammarArt.Proofs.Program.Lowering
import GrammarArt.Proofs.Refinement.Memo
import GrammarArt.Proofs.Refinement.Step
import GrammarArt.Proofs.Session.Coherence
import GrammarArt.Proofs.Session.Run
import GrammarArt.Proofs.Tree.Feed
import GrammarArt.Random
import GrammarArt.Raster
import GrammarArt.Refinement
import GrammarArt.Request
import GrammarArt.Request.Json
import GrammarArt.Session
import GrammarArt.Shader.Code
import GrammarArt.Shader.Module
import GrammarArt.Shader.Syntax
import GrammarArt.Text.Blank
import GrammarArt.Text.Bytes
import GrammarArt.Text.Cut
import GrammarArt.Tree.Basic
import GrammarArt.Tree.Eval
import GrammarArt.Tree.Printer
import GrammarArt.Variable
import GrammarArt.Proofs.Engine.Order
import GrammarArt.Proofs.Refinement.Parity
import GrammarArt.Proofs.Refinement.Chunks
import GrammarArt.Proofs.Refinement.Schedule
import GrammarArt.Proofs.Binary32.Bits
import GrammarArt.Proofs.Binary32.Decimal
import GrammarArt.Proofs.Expression.Lexing
import GrammarArt.Proofs.Tree.Numbering
import GrammarArt.Proofs.Expression.Rendering
import GrammarArt.Proofs.Expression.Reading
import GrammarArt.Proofs.Expression.RoundTrip
import GrammarArt.Proofs.Expression.Language
import GrammarArt.Proofs.Expression.Refusal
import GrammarArt.Proofs.Binary32.Arithmetic
import GrammarArt.Proofs.Binary32.Bound
import GrammarArt.Proofs.Derivation.Canonical
import GrammarArt.Proofs.Derivation.Choice
import GrammarArt.Proofs.Derivation.Expansion
import GrammarArt.Proofs.Derivation.Failure
import GrammarArt.Proofs.Derivation.Generation
import GrammarArt.Proofs.Grammar.Compiled
import GrammarArt.Proofs.Session.Replay
import GrammarArt.Proofs.Shader.Evaluation
import GrammarArt.Proofs.Shader.Execution
import GrammarArt.Proofs.Shader.Language
import GrammarArt.Proofs.Shader.Lexing
import GrammarArt.Proofs.Shader.Meaning
import GrammarArt.Proofs.Shader.Mirror
import GrammarArt.Proofs.Shader.Naming
import GrammarArt.Proofs.Shader.Reading
import GrammarArt.Proofs.Shader.Rendering
import GrammarArt.Proofs.Text.Cutting
import GrammarArt.Proofs.Text.Spacing
import GrammarArt.Proofs.Binary32.Numeral
import GrammarArt.Proofs.Grammar.Wording
import GrammarArt.Proofs.Grammar.Reading
import GrammarArt.Proofs.Grammar.Resolution
import GrammarArt.Proofs.Grammar.Printing
import GrammarArt.Proofs.Derivation.Recursion
import GrammarArt.Proofs.Session.Move
import GrammarArt.Proofs.Session.Lifecycle
import GrammarArt.Proofs.Session.Fault
import GrammarArt.Proofs.Engine.Deed
import GrammarArt.Proofs.Engine.Life
import GrammarArt.Proofs.Engine.History
import GrammarArt.Proofs.Engine.Supersession
import GrammarArt.Proofs.Engine.View
import GrammarArt.Proofs.Expression.Canonical
import GrammarArt.Proofs.Session.Story
import GrammarArt.Proofs.Engine.Pace
import GrammarArt.Proofs.Engine.Watching
import GrammarArt.Proofs.Tree.Nodes
import GrammarArt.Proofs.Derivation.Influence
import GrammarArt.Proofs.Refinement.Account
import GrammarArt.Proofs.Binary32.Nearest
import GrammarArt.Proofs.Binary32.Positive
import GrammarArt.Proofs.Binary32.Shortest
import GrammarArt.Proofs.Binary32.Approximation
import GrammarArt.Proofs.Binary64.Accuracy
import GrammarArt.Proofs.Binary64.Shortest
import GrammarArt.Proofs.Json.Lexing
import GrammarArt.Proofs.Json.Reading
import GrammarArt.Proofs.Json.Number
import GrammarArt.Proofs.Request.RoundTrip
import GrammarArt.Proofs.Grammar.Layout
import GrammarArt.Proofs.Session.Telling
import GrammarArt.Proofs.Engine.Telling
import GrammarArt.Proofs.CommandLine.Printing
import GrammarArt.Proofs.Binary32.Order
import GrammarArt.Proofs.Binary32.Product
import GrammarArt.Proofs.Derivation.Selection
import GrammarArt.Proofs.Text.Boundary
import GrammarArt.Proofs.Expression.Regular
import GrammarArt.Proofs.Expression.Numeral
import GrammarArt.Proofs.Expression.Longest
import GrammarArt.Proofs.Expression.Spans
import GrammarArt.Proofs.Expression.InPlace
import GrammarArt.Proofs.Random.Word
import GrammarArt.Proofs.Random.Stream
