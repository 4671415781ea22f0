import Dolang.Bytecode.Agree
import Dolang.Bytecode.Blocks
import Dolang.Bytecode.Check
import Dolang.Bytecode.Compute
import Dolang.Bytecode.Confluence
import Dolang.Bytecode.Depth
import Dolang.Bytecode.Deserialize
import Dolang.Bytecode.File
import Dolang.Bytecode.Inst
import Dolang.Bytecode.Paths
import Dolang.Bytecode.SourceMap
import Dolang.Bytecode.Step
import Dolang.Bytecode.Stream
import Dolang.Bytecode.Tables
import Dolang.Bytecode.Total
import Dolang.Bytecode.Transfer
import Dolang.Bytecode.Typing
import Dolang.Bytecode.Varint
import Dolang.Bytecode.Verify
import Dolang.Compile.Bindings
import Dolang.Compile.Debug
import Dolang.Compile.Emit
import Dolang.Compile.Evaluate
import Dolang.Compile.Exits
import Dolang.Compile.Graph
import Dolang.Compile.Layout
import Dolang.Compile.Locals
import Dolang.Compile.Locations
import Dolang.Compile.Lower
import Dolang.Compile.Order
import Dolang.Compile.Passes
import Dolang.Compile.Preserves
import Dolang.Compile.Scope
import Dolang.Compile.ShortCircuit
import Dolang.Compile.Source
import Dolang.Compile.Spans
import Dolang.Gc.Collect
import Dolang.Gc.Collected
import Dolang.Gc.Exact
import Dolang.Gc.Garbage
import Dolang.Gc.Heap
import Dolang.Gc.Invisible
import Dolang.Gc.Mutator
import Dolang.Gc.Related
import Dolang.Gc.Sweep
import Dolang.Lib.Accesses
import Dolang.Lib.Binary64
import Dolang.Lib.Binary64Value
import Dolang.Lib.Bytes
import Dolang.Lib.Codec
import Dolang.Lib.FailFast
import Dolang.Lib.Growing
import Dolang.Lib.Holes
import Dolang.Lib.LeastSolution
import Dolang.Lib.Marking
import Dolang.Lib.Memory
import Dolang.Lib.Multimap
import Dolang.Lib.OrderedSet
import Dolang.Lib.PrefixBy
import Dolang.Lib.Progression
import Dolang.Lib.Relax
import Dolang.Lib.Rust
import Dolang.Lib.Safe
import Dolang.Lib.Search
import Dolang.Lib.Service
import Dolang.Lib.Signed
import Dolang.Lib.StableMerge
import Dolang.Lib.Sweeps
import Dolang.Lib.System
import Dolang.Lib.Table
import Dolang.Lib.Utf8
import Dolang.Lib.Word
import Dolang.Lib.Worklist
import Dolang.Object.Allot
import Dolang.Object.Collections
import Dolang.Object.Dict
import Dolang.Object.DictInvariant
import Dolang.Object.DictKeys
import Dolang.Object.DictLaws
import Dolang.Object.DictOrder
import Dolang.Object.DictRefines
import Dolang.Object.DictSteps
import Dolang.Object.DictUnpack
import Dolang.Object.DictView
import Dolang.Object.Iter
import Dolang.Object.Iterators
import Dolang.Object.Lookup
import Dolang.Object.Matching
import Dolang.Object.Numbered
import Dolang.Object.Pairs
import Dolang.Object.RawTable
import Dolang.Object.Rehash
import Dolang.Object.Requests
import Dolang.Object.SetAlgebra
import Dolang.Object.SetRefines
import Dolang.Object.SetRequests
import Dolang.Object.Signature
import Dolang.Object.Unpack
import Dolang.Object.ValueSet
import Dolang.Rpc.Charges
import Dolang.Rpc.Delivery
import Dolang.Rpc.Framing
import Dolang.Rpc.Header
import Dolang.Rpc.Intake
import Dolang.Rpc.Link
import Dolang.Rpc.Moves
import Dolang.Rpc.Negotiate
import Dolang.Rpc.Quota
import Dolang.Rpc.Reassemble
import Dolang.Rpc.Receive
import Dolang.Rpc.Scheduler
import Dolang.Rpc.Sending
import Dolang.Rpc.Trailer
import Dolang.Rpc.Window
import Dolang.Rpc.Wire
import Dolang.Runtime.Args
import Dolang.Runtime.ArgsUnpack
import Dolang.Runtime.Arith
import Dolang.Runtime.Binding
import Dolang.Runtime.Chain
import Dolang.Runtime.Compare
import Dolang.Runtime.Dict
import Dolang.Runtime.Frame
import Dolang.Runtime.Interp
import Dolang.Runtime.Load
import Dolang.Runtime.Locate
import Dolang.Runtime.Operator
import Dolang.Runtime.OperatorLaws
import Dolang.Runtime.ParseInteger
import Dolang.Runtime.Prim
import Dolang.Runtime.Range
import Dolang.Runtime.RangeLaws
import Dolang.Runtime.Repr
import Dolang.Runtime.Runs
import Dolang.Runtime.Safety
import Dolang.Runtime.Slicing
import Dolang.Runtime.Unpack
import Dolang.Runtime.Verbatim
import Dolang.Runtime.Verified
import Dolang.Typeck.Cfg
import Dolang.Typeck.Closed
import Dolang.Typeck.Disjoint
import Dolang.Typeck.FreeTypes
import Dolang.Typeck.Joins
import Dolang.Typeck.Lattice
import Dolang.Typeck.LatticeLaws
import Dolang.Typeck.Live
import Dolang.Typeck.LiveExact
import Dolang.Typeck.LiveLaws
import Dolang.Typeck.LivePaths
import Dolang.Typeck.Narrow
import Dolang.Typeck.Variance
import Dolang.Typeck.VarianceLaws
import Dolang.Types.Canonical
import Dolang.Types.Database
import Dolang.Types.HashConsing
import Dolang.Types.Interning
import Dolang.Types.Lineage
import Dolang.Types.Node
import Dolang.Types.Normalize
import Dolang.Types.Returning
import Dolang.Types.Store
import Dolang.Types.Structure
import Dolang.Types.Union
import Dolang.Util.BinTable
import Dolang.Util.MonoVec
import Dolang.Util.MonoVecLaws
import Dolang.Util.MonoVecLayout
import Dolang.Util.PairSort
import Dolang.Util.PairSortLaws
import Dolang.Util.Ring
import Dolang.Rpc.Ledger
