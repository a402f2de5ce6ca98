import TapeCompiler.Cells.Instruction
import TapeCompiler.Cells.Listing
import TapeCompiler.Cells.Operand
import TapeCompiler.Cells.Program
import TapeCompiler.Cells.Value
import TapeCompiler.Compilation
import TapeCompiler.Emission.Control
import TapeCompiler.Emission.Emitter
import TapeCompiler.Fault
import TapeCompiler.Json.Number
import TapeCompiler.Json.Value
import TapeCompiler.Library
import TapeCompiler.Lowering.Expression
import TapeCompiler.Lowering.Session
import TapeCompiler.Lowering.Statement
import TapeCompiler.Memory.Model
import TapeCompiler.Memory.Planner
import TapeCompiler.Number
import TapeCompiler.Passes.Folding
import TapeCompiler.Passes.Levels
import TapeCompiler.Passes.Notes
import TapeCompiler.Passes.Reordering
import TapeCompiler.Proofs.Cells.Bounds
import TapeCompiler.Proofs.Cells.Effect
import TapeCompiler.Proofs.Cells.Footprint
import TapeCompiler.Proofs.Cells.Joining
import TapeCompiler.Proofs.Cells.Jumping
import TapeCompiler.Proofs.Cells.Renaming
import TapeCompiler.Proofs.Cells.Running
import TapeCompiler.Proofs.Cells.Tree
import TapeCompiler.Proofs.Compiled
import TapeCompiler.Proofs.Correctness
import TapeCompiler.Proofs.Emission.Brackets
import TapeCompiler.Proofs.Emission.Closing
import TapeCompiler.Proofs.Emission.Conditions
import TapeCompiler.Proofs.Emission.Constants
import TapeCompiler.Proofs.Emission.Depth
import TapeCompiler.Proofs.Emission.Expansion
import TapeCompiler.Proofs.Emission.Footprint
import TapeCompiler.Proofs.Emission.Improvement
import TapeCompiler.Proofs.Emission.Layout
import TapeCompiler.Proofs.Emission.Named
import TapeCompiler.Proofs.Emission.Nesting
import TapeCompiler.Proofs.Emission.Plain
import TapeCompiler.Proofs.Emission.Refinement
import TapeCompiler.Proofs.Emission.Rewording
import TapeCompiler.Proofs.Emission.Safety
import TapeCompiler.Proofs.Emission.Shapes
import TapeCompiler.Proofs.Emission.Steps
import TapeCompiler.Proofs.Emission.Stripped
import TapeCompiler.Proofs.Emission.Structured
import TapeCompiler.Proofs.Emission.TreeCode
import TapeCompiler.Proofs.Emission.Wording
import TapeCompiler.Proofs.Emission.Written
import TapeCompiler.Proofs.Lowering.Alignment
import TapeCompiler.Proofs.Lowering.Arrays
import TapeCompiler.Proofs.Lowering.Following
import TapeCompiler.Proofs.Lowering.Gives
import TapeCompiler.Proofs.Lowering.Landing
import TapeCompiler.Proofs.Lowering.Naming
import TapeCompiler.Proofs.Lowering.Owners
import TapeCompiler.Proofs.Lowering.Parameters
import TapeCompiler.Proofs.Lowering.Performing
import TapeCompiler.Proofs.Lowering.Pieces
import TapeCompiler.Proofs.Lowering.Preservation
import TapeCompiler.Proofs.Lowering.Resolution
import TapeCompiler.Proofs.Lowering.Scopes
import TapeCompiler.Proofs.Lowering.Stable
import TapeCompiler.Proofs.Lowering.Steady
import TapeCompiler.Proofs.Lowering.Storing
import TapeCompiler.Proofs.Lowering.Temporaries
import TapeCompiler.Proofs.Lowering.Traversal
import TapeCompiler.Proofs.Lowering.Trees
import TapeCompiler.Proofs.Machine.Completion
import TapeCompiler.Proofs.Machine.Fragments
import TapeCompiler.Proofs.Machine.Limits
import TapeCompiler.Proofs.Machine.Loops
import TapeCompiler.Proofs.Machine.Matching
import TapeCompiler.Proofs.Machine.Moments
import TapeCompiler.Proofs.Machine.Outcomes
import TapeCompiler.Proofs.Machine.Safety
import TapeCompiler.Proofs.Machine.TapeEnds
import TapeCompiler.Proofs.Machine.Texts
import TapeCompiler.Proofs.Memory.Bracketing
import TapeCompiler.Proofs.Memory.Compaction
import TapeCompiler.Proofs.Memory.Layers
import TapeCompiler.Proofs.Memory.Owned
import TapeCompiler.Proofs.Memory.Readdressing
import TapeCompiler.Proofs.Memory.Referred
import TapeCompiler.Proofs.Memory.Regions
import TapeCompiler.Proofs.Memory.Relocating
import TapeCompiler.Proofs.Memory.Requests
import TapeCompiler.Proofs.Memory.Room
import TapeCompiler.Proofs.Memory.Runs
import TapeCompiler.Proofs.Memory.Sound
import TapeCompiler.Proofs.Memory.Spots
import TapeCompiler.Proofs.Memory.Stacks
import TapeCompiler.Proofs.Memory.Survivors
import TapeCompiler.Proofs.Passes.Agreement
import TapeCompiler.Proofs.Passes.Dense
import TapeCompiler.Proofs.Passes.Faithful
import TapeCompiler.Proofs.Passes.Folding
import TapeCompiler.Proofs.Passes.Groups
import TapeCompiler.Proofs.Passes.Meaning
import TapeCompiler.Proofs.Passes.Packing
import TapeCompiler.Proofs.Passes.Parts
import TapeCompiler.Proofs.Passes.Ranking
import TapeCompiler.Proofs.Passes.Trees
import TapeCompiler.Proofs.Repetition
import TapeCompiler.Proofs.Script.Atoms
import TapeCompiler.Proofs.Script.Braces
import TapeCompiler.Proofs.Script.Calls
import TapeCompiler.Proofs.Script.Ensures
import TapeCompiler.Proofs.Script.Evaluation
import TapeCompiler.Proofs.Script.Faults
import TapeCompiler.Proofs.Script.Headers
import TapeCompiler.Proofs.Script.Layout
import TapeCompiler.Proofs.Script.Lines
import TapeCompiler.Proofs.Script.Nesting
import TapeCompiler.Proofs.Script.OneLine
import TapeCompiler.Proofs.Script.OpenBlocks
import TapeCompiler.Proofs.Script.Operations
import TapeCompiler.Proofs.Script.OutputLine
import TapeCompiler.Proofs.Script.Printing
import TapeCompiler.Proofs.Script.RoundTrip
import TapeCompiler.Proofs.Script.Simple
import TapeCompiler.Proofs.Script.Weaving
import TapeCompiler.Proofs.Script.Words
import TapeCompiler.Proofs.Tape.Constants
import TapeCompiler.Proofs.Tape.Counting
import TapeCompiler.Proofs.Tape.Exact
import TapeCompiler.Proofs.Tape.Flowing
import TapeCompiler.Proofs.Tape.Literals
import TapeCompiler.Proofs.Tape.Meaning
import TapeCompiler.Proofs.Tape.Mirror
import TapeCompiler.Proofs.Tape.Operators
import TapeCompiler.Proofs.Tape.Resting
import TapeCompiler.Proofs.Tape.Results
import TapeCompiler.Proofs.Tape.Stripping
import TapeCompiler.Proofs.Verbatim
import TapeCompiler.Script.Expression
import TapeCompiler.Script.Line
import TapeCompiler.Script.Pattern
import TapeCompiler.Script.Quote
import TapeCompiler.Script.Statement
import TapeCompiler.Script.Token
import TapeCompiler.Script.Tree
import TapeCompiler.Settings
import TapeCompiler.Tape.Arithmetic
import TapeCompiler.Tape.Cell
import TapeCompiler.Tape.Code
import TapeCompiler.Tape.Machine
import TapeCompiler.Tape.Symbol
import TapeCompiler.Text.Classes
import TapeCompiler.Text.Names
import TapeCompiler.Text.Pieces
import TapeCompiler.Text.Tables
