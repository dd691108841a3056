import ProofScript.Checker
import ProofScript.Command
import ProofScript.Command.Flag
import ProofScript.Command.Invocation
import ProofScript.Command.Run
import ProofScript.Compilation
import ProofScript.Diagnostic
import ProofScript.Diagnostic.Output
import ProofScript.Document
import ProofScript.Document.Outline
import ProofScript.Document.Parser
import ProofScript.Document.Printer
import ProofScript.Excerpt
import ProofScript.Formula
import ProofScript.Formula.Printer
import ProofScript.Frames
import ProofScript.Generate
import ProofScript.Host
import ProofScript.Host.FileTree
import ProofScript.Host.Machine
import ProofScript.Json
import ProofScript.Json.Decode
import ProofScript.Json.Parser
import ProofScript.Library
import ProofScript.Location
import ProofScript.Log
import ProofScript.Main
import ProofScript.Name
import ProofScript.Oracle
import ProofScript.Path
import ProofScript.Program
import ProofScript.Program.Layout
import ProofScript.Program.Position
import ProofScript.Program.Printer
import ProofScript.Project
import ProofScript.Proofs.Agreement
import ProofScript.Proofs.Apartness
import ProofScript.Proofs.Assignability
import ProofScript.Proofs.Bindings
import ProofScript.Proofs.Bytes
import ProofScript.Proofs.Checking.Annotations
import ProofScript.Proofs.Checking.Growth
import ProofScript.Proofs.Checking.Numbering
import ProofScript.Proofs.Checking.Preamble
import ProofScript.Proofs.Checking.Renumbered
import ProofScript.Proofs.Checking.Reports
import ProofScript.Proofs.Checking.Sound
import ProofScript.Proofs.Checking.Steps
import ProofScript.Proofs.Checking.Weakening
import ProofScript.Proofs.Claims
import ProofScript.Proofs.Elimination
import ProofScript.Proofs.Emission
import ProofScript.Proofs.Formation
import ProofScript.Proofs.Generation
import ProofScript.Proofs.Grammar
import ProofScript.Proofs.Legibility
import ProofScript.Proofs.Meaning
import ProofScript.Proofs.Mirroring
import ProofScript.Proofs.Naming
import ProofScript.Proofs.Predicates
import ProofScript.Proofs.Readability
import ProofScript.Proofs.Reader.Basic
import ProofScript.Proofs.Reader.Complete
import ProofScript.Proofs.Reader.Depth
import ProofScript.Proofs.Reader.Exact
import ProofScript.Proofs.Reader.Sound
import ProofScript.Proofs.Recording
import ProofScript.Proofs.Redeclaration
import ProofScript.Proofs.Renumbering
import ProofScript.Proofs.Resolution
import ProofScript.Proofs.RoundTrip
import ProofScript.Proofs.Runs
import ProofScript.Proofs.Scanning
import ProofScript.Proofs.Scoping
import ProofScript.Proofs.Selection
import ProofScript.Proofs.Soundness
import ProofScript.Proofs.Spelling
import ProofScript.Proofs.Stateful
import ProofScript.Proofs.Translation
import ProofScript.Proofs.TypeParameters
import ProofScript.Proofs.Wording
import ProofScript.ScriptError
import ProofScript.Server
import ProofScript.Server.Analysis
import ProofScript.Server.Message
import ProofScript.Server.Rpc
import ProofScript.Symbols
import ProofScript.Text.Ansi
import ProofScript.Text.Blank
import ProofScript.Text.Case
import ProofScript.Text.Digits
import ProofScript.Text.Lines
import ProofScript.Text.Printable
import ProofScript.Text.Quoted
import ProofScript.Text.Utf8
import ProofScript.TextRange
import ProofScript.Token
import ProofScript.Token.Lexer
import ProofScript.Token.Lookahead
import ProofScript.Toml
import ProofScript.Toml.Literal
import ProofScript.Toml.Parser
import ProofScript.Ty
import ProofScript.Ty.Env
import ProofScript.Ty.Subst
import ProofScript.Ty.Unify
import ProofScript.Uri
import ProofScript.Uri.Address
import ProofScript.Version
import ProofScript.Version.Range
import ProofScript.Word
import ProofScript.Proofs.Totality
import ProofScript.Proofs.Reader.Places
import ProofScript.Proofs.Referents
import ProofScript.Proofs.Checking.Lift
import ProofScript.Proofs.Conservation
import ProofScript.Proofs.Sessions
import ProofScript.Proofs.Confinement
import ProofScript.Proofs.Updates
import ProofScript.Proofs.History
import ProofScript.Proofs.Overlap
import ProofScript.Proofs.Unfolding
import ProofScript.Proofs.Descent
import ProofScript.Proofs.Entailment
import ProofScript.Proofs.Unification
import ProofScript.Proofs.Checking.Course
import ProofScript.Proofs.Capture
import ProofScript.Proofs.Checking.Keeps
import ProofScript.Proofs.Checking.Passage
import ProofScript.Proofs.Checking.Rigidity
import ProofScript.Proofs.Binders
import ProofScript.Proofs.Rebinding
import ProofScript.Proofs.Decoding
import ProofScript.Proofs.Extents
import ProofScript.Proofs.SpanTable
import ProofScript.Proofs.Lines
import ProofScript.Proofs.Standing
import ProofScript.Proofs.Reader.Blame
import ProofScript.Proofs.Locating
import ProofScript.Proofs.Formatting
import ProofScript.Proofs.Entries
import ProofScript.Proofs.Parentheses
import ProofScript.Proofs.Positions
import ProofScript.Proofs.Warnings
import ProofScript.Proofs.Skolems
import ProofScript.Proofs.Equality
import ProofScript.Proofs.Carets
import ProofScript.Proofs.CompilerOutput
import ProofScript.Proofs.Lookahead
import ProofScript.Proofs.Lexemes
