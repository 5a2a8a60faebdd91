import Reparse.Binary64.Basic
import Reparse.Binary64.Notation
import Reparse.Binary64.Shortest
import Reparse.CommandLine.Arguments
import Reparse.CommandLine.Clock
import Reparse.CommandLine.Program
import Reparse.CommandLine.Replay
import Reparse.CommandLine.Verify
import Reparse.Corpus.Document
import Reparse.Corpus.Glob
import Reparse.Corpus.Pool
import Reparse.Corpus.Registry
import Reparse.Corpus.Tally
import Reparse.Corpus.Verify
import Reparse.Diff
import Reparse.Files.Access
import Reparse.Files.Entry
import Reparse.Files.Path
import Reparse.Git.Client
import Reparse.Git.Scripted
import Reparse.Json.Basic
import Reparse.Json.Decode
import Reparse.Json.Fault
import Reparse.Json.Number
import Reparse.Json.Reader
import Reparse.Json.Record
import Reparse.Json.Report
import Reparse.Json.Scan
import Reparse.Json.Skip
import Reparse.Json.Suite
import Reparse.Json.SuiteText
import Reparse.Json.Tree
import Reparse.Json.Trial
import Reparse.Json.Writer
import Reparse.Language
import Reparse.Main
import Reparse.NameMap
import Reparse.Proofs.Binary64.Decimals
import Reparse.Proofs.Binary64.Literal
import Reparse.Proofs.Binary64.Rounding
import Reparse.Proofs.Binary64.Shortest
import Reparse.Proofs.Binary64.Sign
import Reparse.Proofs.Corpus.Checkouts
import Reparse.Proofs.Corpus.Interleaving
import Reparse.Proofs.Corpus.Loading
import Reparse.Proofs.Corpus.Sequential
import Reparse.Proofs.Corpus.SourceFiles
import Reparse.Proofs.Corpus.Stopping
import Reparse.Proofs.Corpus.Tallying
import Reparse.Proofs.Diff.Minimal
import Reparse.Proofs.Diff.Mismatch
import Reparse.Proofs.Diff.Scripts
import Reparse.Proofs.Files.Resolving
import Reparse.Proofs.Files.Walking
import Reparse.Proofs.Git.Checkout
import Reparse.Proofs.Git.Depot
import Reparse.Proofs.Git.Repository
import Reparse.Proofs.Git.Revisits
import Reparse.Proofs.Git.Tracking
import Reparse.Proofs.Json.Lossless
import Reparse.Proofs.Replay.Accounting
import Reparse.Proofs.Replay.Agreement
import Reparse.Proofs.Replay.Capturing
import Reparse.Proofs.Replay.Collecting
import Reparse.Proofs.Replay.Fetching
import Reparse.Proofs.Replay.Scopes
import Reparse.Proofs.Source.Encoding
import Reparse.Proofs.Source.Reencoding
import Reparse.Proofs.Text.Digits
import Reparse.Proofs.Text.Escapes
import Reparse.Proofs.Text.Utf8
import Reparse.Proofs.Toy.Acceptance
import Reparse.Proofs.Toy.Bounds
import Reparse.Proofs.Toy.Carried
import Reparse.Proofs.Toy.Characters
import Reparse.Proofs.Toy.Checked
import Reparse.Proofs.Toy.Costs
import Reparse.Proofs.Toy.Coverage
import Reparse.Proofs.Toy.Cursor
import Reparse.Proofs.Toy.Cuts
import Reparse.Proofs.Toy.Encodable
import Reparse.Proofs.Toy.Escapes
import Reparse.Proofs.Toy.Exemption
import Reparse.Proofs.Toy.Faults
import Reparse.Proofs.Toy.Formed
import Reparse.Proofs.Toy.Fragmented
import Reparse.Proofs.Toy.Fragments
import Reparse.Proofs.Toy.Grammar
import Reparse.Proofs.Toy.Height
import Reparse.Proofs.Toy.Joined
import Reparse.Proofs.Toy.Layout
import Reparse.Proofs.Toy.Lexable
import Reparse.Proofs.Toy.Lexing
import Reparse.Proofs.Toy.Literals
import Reparse.Proofs.Toy.Offsets
import Reparse.Proofs.Toy.Operands
import Reparse.Proofs.Toy.Oversteps
import Reparse.Proofs.Toy.Parentheses
import Reparse.Proofs.Toy.Parsed
import Reparse.Proofs.Toy.Phrased
import Reparse.Proofs.Toy.Phrases
import Reparse.Proofs.Toy.Places
import Reparse.Proofs.Toy.Positions
import Reparse.Proofs.Toy.Printed
import Reparse.Proofs.Toy.Program
import Reparse.Proofs.Toy.Reading
import Reparse.Proofs.Toy.Reread
import Reparse.Proofs.Toy.RoundTrip
import Reparse.Proofs.Toy.Runs
import Reparse.Proofs.Toy.Safety
import Reparse.Proofs.Toy.Scanner
import Reparse.Proofs.Toy.Scanning
import Reparse.Proofs.Toy.Scope
import Reparse.Proofs.Toy.Seams
import Reparse.Proofs.Toy.Shape
import Reparse.Proofs.Toy.Spans
import Reparse.Proofs.Toy.Spelling
import Reparse.Proofs.Toy.Stability
import Reparse.Proofs.Toy.Stepping
import Reparse.Proofs.Toy.Tiling
import Reparse.Proofs.Toy.Tokens
import Reparse.Proofs.Toy.Weights
import Reparse.Proofs.Toy.Worded
import Reparse.Proofs.Toy.Words
import Reparse.Proofs.Tree.Atoms
import Reparse.Proofs.Tree.Escapes
import Reparse.Proofs.Tree.Lines
import Reparse.Proofs.Tree.Places
import Reparse.Proofs.Tree.Spelling
import Reparse.Proofs.Tree.Texts
import Reparse.Proofs.Tree.WellFormed
import Reparse.Proofs.Tree.Worklist
import Reparse.Proofs.Trial.Protocol
import Reparse.Replay.Capture
import Reparse.Replay.Case
import Reparse.Replay.Load
import Reparse.Replay.Run
import Reparse.Replay.Suite
import Reparse.Replay.Triage
import Reparse.Source.Basic
import Reparse.Source.Digest
import Reparse.Source.Encoding
import Reparse.Text.Blank
import Reparse.Text.CodeRange
import Reparse.Text.Digits
import Reparse.Text.Quoted
import Reparse.Text.Rest
import Reparse.Text.Utf8
import Reparse.Toml.Basic
import Reparse.Toml.Reader
import Reparse.Toml.Scalar
import Reparse.Toml.Token
import Reparse.Toy.Expr
import Reparse.Toy.Lexer
import Reparse.Toy.Operator
import Reparse.Toy.Parser
import Reparse.Toy.Printer
import Reparse.Toy.Token
import Reparse.Tree.Basic
import Reparse.Tree.Notation
import Reparse.Tree.Reader
import Reparse.Trial
