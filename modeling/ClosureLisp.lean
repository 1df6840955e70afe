import ClosureLisp.Bundle.Basic
import ClosureLisp.Bundle.Capability
import ClosureLisp.Bundle.Compile
import ClosureLisp.Bundle.Wire
import ClosureLisp.BundleStore
import ClosureLisp.Bytecode.Buffer
import ClosureLisp.Bytecode.Decode
import ClosureLisp.Bytecode.Instr
import ClosureLisp.Bytecode.Listing
import ClosureLisp.Bytecode.Opcode
import ClosureLisp.Bytecode.Record
import ClosureLisp.Canon.Basic
import ClosureLisp.Canon.Encode
import ClosureLisp.Cbor.Decode
import ClosureLisp.Cbor.Item
import ClosureLisp.CommandLine.Commands
import ClosureLisp.CommandLine.Flag
import ClosureLisp.CommandLine.Repl
import ClosureLisp.CommandLine.Report
import ClosureLisp.CommandLine.Settings
import ClosureLisp.CommandLine.Sources
import ClosureLisp.CommandLine.Usage
import ClosureLisp.Compiler.Batch
import ClosureLisp.Compiler.Frame
import ClosureLisp.Compiler.Generate
import ClosureLisp.Digest.Sha256
import ClosureLisp.Evaluator.Basic
import ClosureLisp.Evaluator.Eval
import ClosureLisp.Fault
import ClosureLisp.Heap.Basic
import ClosureLisp.Heap.Collect
import ClosureLisp.Heap.Reach
import ClosureLisp.Host.FileTree
import ClosureLisp.Host.Files
import ClosureLisp.Host.Path
import ClosureLisp.Host.Pattern
import ClosureLisp.Lint
import ClosureLisp.Machine.Basic
import ClosureLisp.Machine.Execute
import ClosureLisp.Machine.Run
import ClosureLisp.Main
import ClosureLisp.Primitive
import ClosureLisp.Project.Basic
import ClosureLisp.Project.Decode
import ClosureLisp.Project.Load
import ClosureLisp.Proofs.Agreement
import ClosureLisp.Proofs.Evaluation
import ClosureLisp.Proofs.Following
import ClosureLisp.Proofs.Frames
import ClosureLisp.Proofs.Generation
import ClosureLisp.Proofs.Instructions
import ClosureLisp.Proofs.Placement
import ClosureLisp.Proofs.Reachability
import ClosureLisp.Proofs.Runs
import ClosureLisp.Session
import ClosureLisp.Source.Binder
import ClosureLisp.Source.Error
import ClosureLisp.Source.Expr
import ClosureLisp.Source.Lexer
import ClosureLisp.Source.Parser
import ClosureLisp.Source.Position
import ClosureLisp.Source.Reader
import ClosureLisp.Source.Token
import ClosureLisp.Text.Blank
import ClosureLisp.Text.Bytes
import ClosureLisp.Text.Glyph
import ClosureLisp.Text.Printable
import ClosureLisp.Text.Quoted
import ClosureLisp.Toml.Document
import ClosureLisp.Toml.Literal
import ClosureLisp.Toml.Number
import ClosureLisp.Toml.Syntax
import ClosureLisp.Toml.Text
import ClosureLisp.Value
import ClosureLisp.Word
import ClosureLisp.Proofs.Calls
import ClosureLisp.Proofs.Compilation
import ClosureLisp.Proofs.Simulation
import ClosureLisp.Proofs.Batches
import ClosureLisp.Proofs.Scoping
import ClosureLisp.Proofs.Correctness
import ClosureLisp.Proofs.Sessions
import ClosureLisp.Proofs.Identity
import ClosureLisp.Proofs.Caching
import ClosureLisp.Proofs.Confinement
import ClosureLisp.Proofs.Lockstep
import ClosureLisp.Proofs.Undoing
import ClosureLisp.Proofs.Balance
import ClosureLisp.Proofs.Splitting
import ClosureLisp.Proofs.Decoding
import ClosureLisp.Proofs.Transfers
import ClosureLisp.Proofs.Locals
import ClosureLisp.Proofs.Verification
import ClosureLisp.Proofs.Renaming
import ClosureLisp.Proofs.Termination
import ClosureLisp.Proofs.StackLimits
import ClosureLisp.Proofs.Reloading
import ClosureLisp.Proofs.Withholding
import ClosureLisp.Proofs.Grammar
import ClosureLisp.Proofs.Reporting
import ClosureLisp.Proofs.Parsing
import ClosureLisp.Proofs.Handles
import ClosureLisp.Proofs.Collections
import ClosureLisp.Proofs.Depth
import ClosureLisp.Proofs.Checking
import ClosureLisp.Proofs.Emission
import ClosureLisp.Proofs.Lexing
import ClosureLisp.Proofs.Rollback
import ClosureLisp.Proofs.Restoring
import ClosureLisp.Proofs.Sweeping
import ClosureLisp.Proofs.Invisibility
import ClosureLisp.Proofs.Packing
import ClosureLisp.Proofs.Parentheses
import ClosureLisp.Proofs.Pairing
import ClosureLisp.Proofs.Leftovers
import ClosureLisp.Proofs.Derivations
import ClosureLisp.Proofs.Concatenation
import ClosureLisp.Proofs.Sites
import ClosureLisp.Proofs.Linting
import ClosureLisp.Proofs.Belonging
import ClosureLisp.Proofs.Subevaluations
import ClosureLisp.Proofs.Warnings
import ClosureLisp.Proofs.Requirements
import ClosureLisp.Proofs.Drafts
import ClosureLisp.Proofs.Capturing
import ClosureLisp.Proofs.Nesting
import ClosureLisp.Proofs.Paths
import ClosureLisp.Proofs.Discovery
