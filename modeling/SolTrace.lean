import SolTrace.Address
import SolTrace.Artifact.Files
import SolTrace.Ast.Basic
import SolTrace.Bytecode
import SolTrace.Cache.Chain
import SolTrace.Checkpoint
import SolTrace.CommandLine.Run
import SolTrace.Contract.Registry
import SolTrace.Debugger
import SolTrace.Instruction
import SolTrace.Json.Parser
import SolTrace.Json.Printer
import SolTrace.Json.Record
import SolTrace.Layout
import SolTrace.LinkedCode
import SolTrace.Main
import SolTrace.Proofs.Ast.Insertion
import SolTrace.Proofs.Cache.RoundTrip
import SolTrace.Proofs.Code.Deployments
import SolTrace.Proofs.Code.Linking
import SolTrace.Proofs.Code.Linkings
import SolTrace.Proofs.Code.Partition
import SolTrace.Proofs.Contract.CreationInput
import SolTrace.Proofs.Memory.RoundTrip
import SolTrace.Proofs.Session.Listing
import SolTrace.Proofs.Session.Resuming
import SolTrace.Proofs.Session.Undefined
import SolTrace.Proofs.Source.Breakpoints
import SolTrace.Proofs.Source.Places
import SolTrace.Proofs.SourceMap.Compression
import SolTrace.Proofs.SourceMap.Positions
import SolTrace.Proofs.State.ValueTypes
import SolTrace.Proofs.Storage.ByteStrings
import SolTrace.Proofs.Storage.Elements
import SolTrace.Proofs.Storage.Greedy
import SolTrace.Proofs.Storage.LeafDecoding
import SolTrace.Proofs.Trace.Activation
import SolTrace.Proofs.Trace.CallStack
import SolTrace.Proofs.Trace.CallTree
import SolTrace.Proofs.Trace.Causes
import SolTrace.Proofs.Trace.Declarations
import SolTrace.Proofs.Trace.Discipline
import SolTrace.Proofs.Trace.EmptyBodies
import SolTrace.Proofs.Trace.Entries
import SolTrace.Proofs.Trace.FailedCalls
import SolTrace.Proofs.Trace.Origins
import SolTrace.Proofs.Trace.Parameters
import SolTrace.Proofs.Trace.Progress
import SolTrace.Proofs.Trace.Replay
import SolTrace.Proofs.Trace.StateVariables
import SolTrace.Proofs.Trace.StorageHistory
import SolTrace.Proofs.Types.ArrayLengths
import SolTrace.Proofs.Types.Placeholders
import SolTrace.Proofs.Types.Widths
import SolTrace.Source
import SolTrace.SourceMap
import SolTrace.State.Decode
import SolTrace.Trace.Inputs
import SolTrace.Trace.Reduction
import SolTrace.UserTypes
