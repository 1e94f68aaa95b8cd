import Wgsl.Builtin
import Wgsl.Bytes
import Wgsl.CallGraph
import Wgsl.Change
import Wgsl.CommandLine
import Wgsl.CommandLine.Argument
import Wgsl.CommandLine.Report
import Wgsl.CommandLine.Request
import Wgsl.Const
import Wgsl.Fault
import Wgsl.Host
import Wgsl.Layout.Cache
import Wgsl.Layout.Liveness
import Wgsl.Layout.TypeInfo
import Wgsl.Library
import Wgsl.Library.Bits
import Wgsl.Library.Geometry
import Wgsl.Library.Numeric
import Wgsl.Library.Packing
import Wgsl.Machine
import Wgsl.Machine.Builtin
import Wgsl.Machine.Dispatch
import Wgsl.Machine.Expr
import Wgsl.Machine.Module
import Wgsl.Machine.Stmt
import Wgsl.Main
import Wgsl.Memory
import Wgsl.Memory.Path
import Wgsl.Number.Double
import Wgsl.Number.Format
import Wgsl.Number.Half
import Wgsl.Number.Shortest
import Wgsl.Number.Single
import Wgsl.Number.Spelling
import Wgsl.Parse.Cursor
import Wgsl.Parse.Expr
import Wgsl.Parse.Literal
import Wgsl.Parse.Program
import Wgsl.Parse.Stmt
import Wgsl.Print
import Wgsl.Proofs.CommandLine.Buffers
import Wgsl.Proofs.Const.Becoming
import Wgsl.Proofs.Const.Folding
import Wgsl.Proofs.Const.Lexical
import Wgsl.Proofs.Layout.Coherent
import Wgsl.Proofs.Layout.Comparing
import Wgsl.Proofs.Layout.Exact
import Wgsl.Proofs.Layout.Extent
import Wgsl.Proofs.Layout.Laying
import Wgsl.Proofs.Layout.Leaves
import Wgsl.Proofs.Layout.Marking
import Wgsl.Proofs.Layout.Naming
import Wgsl.Proofs.Layout.Placement
import Wgsl.Proofs.Layout.Rules
import Wgsl.Proofs.Layout.Settled
import Wgsl.Proofs.Layout.Terminating
import Wgsl.Proofs.Layout.Transparent
import Wgsl.Proofs.Library.Bits
import Wgsl.Proofs.Library.Rectangular
import Wgsl.Proofs.Library.Renaming
import Wgsl.Proofs.Machine.Assigning
import Wgsl.Proofs.Machine.Binding
import Wgsl.Proofs.Machine.Builtin
import Wgsl.Proofs.Machine.Conduct
import Wgsl.Proofs.Machine.Consts
import Wgsl.Proofs.Machine.Correspondence
import Wgsl.Proofs.Machine.Discarding
import Wgsl.Proofs.Machine.Enclosed
import Wgsl.Proofs.Machine.Ending
import Wgsl.Proofs.Machine.Exact
import Wgsl.Proofs.Machine.Folded
import Wgsl.Proofs.Machine.Following
import Wgsl.Proofs.Machine.Grid
import Wgsl.Proofs.Machine.Halting
import Wgsl.Proofs.Machine.Hidden
import Wgsl.Proofs.Machine.History
import Wgsl.Proofs.Machine.Holdings
import Wgsl.Proofs.Machine.Hooked
import Wgsl.Proofs.Machine.Interpreter
import Wgsl.Proofs.Machine.Isolation
import Wgsl.Proofs.Machine.Matrices
import Wgsl.Proofs.Machine.Minding
import Wgsl.Proofs.Machine.Mirroring
import Wgsl.Proofs.Machine.Module
import Wgsl.Proofs.Machine.Noninterference
import Wgsl.Proofs.Machine.Oblivious
import Wgsl.Proofs.Machine.Orderly
import Wgsl.Proofs.Machine.Overlaid
import Wgsl.Proofs.Machine.Overlay
import Wgsl.Proofs.Machine.Overrides
import Wgsl.Proofs.Machine.Pointerless
import Wgsl.Proofs.Machine.Returned
import Wgsl.Proofs.Machine.Returning
import Wgsl.Proofs.Machine.Shared
import Wgsl.Proofs.Machine.Sparing
import Wgsl.Proofs.Machine.Stack
import Wgsl.Proofs.Machine.Stages
import Wgsl.Proofs.Machine.Statements
import Wgsl.Proofs.Machine.Surroundings
import Wgsl.Proofs.Machine.Terminating
import Wgsl.Proofs.Machine.Unbounded
import Wgsl.Proofs.Machine.Unnoticed
import Wgsl.Proofs.Machine.Watched
import Wgsl.Proofs.Memory.Carried
import Wgsl.Proofs.Memory.Frame
import Wgsl.Proofs.Memory.Outline
import Wgsl.Proofs.Memory.Parts
import Wgsl.Proofs.Memory.Reading
import Wgsl.Proofs.Memory.Renaming
import Wgsl.Proofs.Memory.RoundTrip
import Wgsl.Proofs.Memory.Scalars
import Wgsl.Proofs.Number.Halves
import Wgsl.Proofs.Number.Nearest
import Wgsl.Proofs.Number.Rounding
import Wgsl.Proofs.Parse.Acceptance
import Wgsl.Proofs.Parse.Counting
import Wgsl.Proofs.Parse.Cursor
import Wgsl.Proofs.Parse.Deferring
import Wgsl.Proofs.Parse.Derivation
import Wgsl.Proofs.Parse.Grammar
import Wgsl.Proofs.Parse.Numbering
import Wgsl.Proofs.Parse.Program
import Wgsl.Proofs.Parse.Resolving
import Wgsl.Proofs.Parse.ScopedCounts
import Wgsl.Proofs.Parse.Scoping
import Wgsl.Proofs.Parse.TypeExpr
import Wgsl.Proofs.Print.Expr
import Wgsl.Proofs.Print.TypeExpr
import Wgsl.Proofs.Reflect.Again
import Wgsl.Proofs.Reflect.CallOrder
import Wgsl.Proofs.Reflect.Liveness
import Wgsl.Proofs.Reflect.Overrides
import Wgsl.Proofs.Reflect.Reachable
import Wgsl.Proofs.Reflect.Resources
import Wgsl.Proofs.Reflect.Scan
import Wgsl.Proofs.Reflect.Unbound
import Wgsl.Proofs.Reflect.Variables
import Wgsl.Proofs.Reflect.Workgroups
import Wgsl.Proofs.Scope.Arena
import Wgsl.Proofs.Scope.Lookup
import Wgsl.Proofs.Stepper.Announced
import Wgsl.Proofs.Stepper.Bodies
import Wgsl.Proofs.Stepper.Dispatched
import Wgsl.Proofs.Stepper.Driving
import Wgsl.Proofs.Stepper.Failing
import Wgsl.Proofs.Stepper.Following
import Wgsl.Proofs.Stepper.Frames
import Wgsl.Proofs.Stepper.Invocations
import Wgsl.Proofs.Stepper.Jumps
import Wgsl.Proofs.Stepper.Leading
import Wgsl.Proofs.Stepper.Looping
import Wgsl.Proofs.Stepper.Parting
import Wgsl.Proofs.Stepper.Rounds
import Wgsl.Proofs.Stepper.Steps
import Wgsl.Proofs.Stepper.Structured
import Wgsl.Proofs.Texture.Texels
import Wgsl.Proofs.Texture.Views
import Wgsl.Proofs.Token.Greedy
import Wgsl.Proofs.Token.Longest
import Wgsl.Proofs.Token.Numeral
import Wgsl.Proofs.Token.Partition
import Wgsl.Proofs.Token.Printed
import Wgsl.Proofs.Token.Scanning
import Wgsl.Proofs.Tree.Mentioned
import Wgsl.Proofs.Tree.Nodes
import Wgsl.Proofs.Tree.Reached
import Wgsl.Proofs.Tree.Sites
import Wgsl.Proofs.Tree.Unmarked
import Wgsl.Proofs.Value.Assigning
import Wgsl.Proofs.Value.Hollow
import Wgsl.Proofs.Value.Rectangular
import Wgsl.Proofs.Value.Renaming
import Wgsl.Reflect
import Wgsl.Scope
import Wgsl.Stepper.Command
import Wgsl.Stepper.Session
import Wgsl.Table
import Wgsl.Text.Blank
import Wgsl.Text.Classes
import Wgsl.Text.Plain
import Wgsl.Text.Quoted
import Wgsl.Text.Split
import Wgsl.Texture
import Wgsl.Token
import Wgsl.Token.Numeral
import Wgsl.Token.Scan
import Wgsl.Tree.Counts
import Wgsl.Tree.Expr
import Wgsl.Tree.Mention
import Wgsl.Tree.Operator
import Wgsl.Tree.Program
import Wgsl.Value
import Wgsl.Value.Construct
import Wgsl.Value.Convert
import Wgsl.Value.Operator
import Wgsl.Value.Path
