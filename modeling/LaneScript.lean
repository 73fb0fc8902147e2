import LaneScript.Assembly
import LaneScript.Assembly.Listing
import LaneScript.Assembly.Operands
import LaneScript.Batch
import LaneScript.Binding
import LaneScript.Bytes
import LaneScript.Cache
import LaneScript.Cli
import LaneScript.Cli.Arguments
import LaneScript.Cli.Path
import LaneScript.Compile
import LaneScript.Compile.Account
import LaneScript.Compile.Emission
import LaneScript.Compile.Renumbering
import LaneScript.Fault
import LaneScript.Image
import LaneScript.Image.Digest
import LaneScript.Image.Layout
import LaneScript.Image.Load
import LaneScript.Image.Pack
import LaneScript.Image.View
import LaneScript.Instruction
import LaneScript.Instruction.Encoding
import LaneScript.Log
import LaneScript.Main
import LaneScript.Numbering
import LaneScript.Opcode
import LaneScript.Operand
import LaneScript.Program
import LaneScript.Program.Chain
import LaneScript.Program.Flow
import LaneScript.Program.Fold
import LaneScript.Program.Liveness
import LaneScript.Program.Pressure
import LaneScript.Proofs.Agreement
import LaneScript.Proofs.Between
import LaneScript.Proofs.Bijection
import LaneScript.Proofs.Binding
import LaneScript.Proofs.Cache
import LaneScript.Proofs.Canonical
import LaneScript.Proofs.Chaining
import LaneScript.Proofs.Compile
import LaneScript.Proofs.Concatenation
import LaneScript.Proofs.Deletion
import LaneScript.Proofs.Dense
import LaneScript.Proofs.Described
import LaneScript.Proofs.Drafting
import LaneScript.Proofs.Emission
import LaneScript.Proofs.Emittable
import LaneScript.Proofs.Encoding
import LaneScript.Proofs.Excerpt
import LaneScript.Proofs.Extension
import LaneScript.Proofs.Faults
import LaneScript.Proofs.FirstUse
import LaneScript.Proofs.Fitted
import LaneScript.Proofs.Flow
import LaneScript.Proofs.FlowTables
import LaneScript.Proofs.Fold
import LaneScript.Proofs.Format
import LaneScript.Proofs.Framed
import LaneScript.Proofs.Guarded
import LaneScript.Proofs.InFlight
import LaneScript.Proofs.InPlace
import LaneScript.Proofs.Indexing
import LaneScript.Proofs.Irreducible
import LaneScript.Proofs.Items
import LaneScript.Proofs.Iteration
import LaneScript.Proofs.Layout
import LaneScript.Proofs.Links
import LaneScript.Proofs.Listing
import LaneScript.Proofs.Liveness
import LaneScript.Proofs.LoadCompiled
import LaneScript.Proofs.Lookups
import LaneScript.Proofs.Lossless
import LaneScript.Proofs.Meaning
import LaneScript.Proofs.MeaningPreserved
import LaneScript.Proofs.Mirror
import LaneScript.Proofs.MirrorWrite
import LaneScript.Proofs.Nearest
import LaneScript.Proofs.Numbering
import LaneScript.Proofs.Occupancy
import LaneScript.Proofs.Operands
import LaneScript.Proofs.Order
import LaneScript.Proofs.Packable
import LaneScript.Proofs.Placement
import LaneScript.Proofs.Pressure
import LaneScript.Proofs.Pruning
import LaneScript.Proofs.Reach
import LaneScript.Proofs.ReadBack
import LaneScript.Proofs.Readable
import LaneScript.Proofs.Reassembly
import LaneScript.Proofs.Recompile
import LaneScript.Proofs.RegisterNames
import LaneScript.Proofs.Renumbering
import LaneScript.Proofs.Repack
import LaneScript.Proofs.Reread
import LaneScript.Proofs.Rounds
import LaneScript.Proofs.SourceLines
import LaneScript.Proofs.Stores
import LaneScript.Proofs.Stream
import LaneScript.Proofs.Stretch
import LaneScript.Proofs.Survivors
import LaneScript.Proofs.Tally
import LaneScript.Proofs.Tampering
import LaneScript.Proofs.Text
import LaneScript.Proofs.Tokens
import LaneScript.Proofs.Truncation
import LaneScript.Proofs.View
import LaneScript.Settings
import LaneScript.Settings.Document
import LaneScript.Settings.Document.Moment
import LaneScript.Settings.Document.Number
import LaneScript.Settings.File
import LaneScript.Stream
import LaneScript.Stream.Builder
import LaneScript.Text.Blank
import LaneScript.Text.Numeral
import LaneScript.Text.Quoted
import LaneScript.Text.Unseen
import LaneScript.Workbench
