import Bohrium.Core.Instruction
import Bohrium.Library.Reorder
import Bohrium.Semantics.Loop
import Bohrium.Core.Fuse
import Bohrium.Fusion.SameShape
import Bohrium.Fusion.Reordering
import Bohrium.Library.BlockGraph
import Bohrium.Core.Kernel
import Bohrium.Dag.Boost
import Bohrium.Dag.Graph
import Bohrium.Dag.Fusers
import Bohrium.Dag.Sound
import Bohrium.Dag.Merging
import Bohrium.Dag.Build
import Bohrium.Dag.Optimal
import Bohrium.Dag.Splitting
import Bohrium.Dag.Schedule
import Bohrium.Dag.Weights
import Bohrium.Dag.Legal
import Bohrium.Dag.FuseCache
import Bohrium.Semantics.Whole
import Bohrium.Filter.Bccon
import Bohrium.Library.Fold
import Bohrium.Filter.BcconRewrite
import Bohrium.Filter.BcconSound
import Bohrium.Filter.Bcexp
import Bohrium.Filter.BcexpSound
import Bohrium.Cluster.Mapping
import Bohrium.Filter.BcexpLifetime
import Bohrium.Cluster.Tiling
import Bohrium.Library.Network
import Bohrium.Cluster.Batch
import Bohrium.Cluster.Packing
import Bohrium.Cluster.Regular
import Bohrium.Cluster.Events
import Bohrium.Cluster.Dispatch
import Bohrium.Cluster.Message
import Bohrium.Proxy.Packet
import Bohrium.Library.Duplex
import Bohrium.Proxy.Socket
import Bohrium.Proxy.Session
import Bohrium.Engine.Contraction
import Bohrium.Filter.Dimclean
import Bohrium.Gpu.Arrays
import Bohrium.Dag.Replay
import Bohrium.Dag.Exact
import Bohrium.Dag.Parallel
import Bohrium.NumCil.Kernels
import Bohrium.NumCil.Lazy
import Bohrium.Bxx.Bridge
import Bohrium.Bxx.Lifecycle
import Bohrium.Bxx.Lifetimes
import Bohrium.Bxx.Ownership
import Bohrium.Bxx.Discipline
import Bohrium.Engine.Plaid
import Bohrium.Cpu.Reduction
import Bohrium.Cpu.Operands
import Bohrium.Cpu.Lowering
import Bohrium.Cpu.Walker
import Bohrium.Cpu.Coverage
import Bohrium.Cpu.Pointers
import Bohrium.Cpu.Visits
import Bohrium.Cpu.Generators
import Bohrium.Cpu.Indexing
import Bohrium.Cpu.Accumulate
import Bohrium.Cluster.Reduce
import Bohrium.Cluster.Faces
import Bohrium.Cluster.FaceEvents
import Bohrium.Cluster.FaceRun
import Bohrium.Cluster.VectorRun
import Bohrium.Cluster.ReduceRefines
import Bohrium.Core.Canonical
import Bohrium.Core.Symmetry
import Bohrium.Gpu.DimOrders
import Bohrium.Gpu.Ordering
import Bohrium.Fusion.MergeCost
import Bohrium.Fusion.Savings
import Bohrium.Fusion.Bookkeeping
import Bohrium.Dag.Gentle
import Bohrium.Npbackend.Coherence
import Bohrium.Cluster.RangeRun
import Bohrium.Cluster.ExecuteInstr
import Bohrium.Dag.Termination
import Bohrium.Core.MemSignal
import Bohrium.Core.Vcache
import Bohrium.Library.Layout
import Bohrium.Bxx.Broadcast
import Bohrium.Bxx.Slicing
import Bohrium.Npbackend.Ufunc
import Bohrium.Npbackend.Overlap
import Bohrium.Npbackend.Calls
import Bohrium.Npbackend.Reduce
import Bohrium.NumCil.Addresses
import Bohrium.NumCil.Reduction
import Bohrium.Core.KernelReuse
import Bohrium.Core.StoreRun
import Bohrium.Library.Delimited
import Bohrium.Dag.HashString
import Bohrium.Library.Unseen
import Bohrium.Npbackend.Random
import Bohrium.NumCil.File
import Bohrium.NumCil.Matmul
import Bohrium.Library.Pointers
import Bohrium.NumCil.Loops
import Bohrium.NumCil.Aggregate
import Bohrium.NumCil.Broadcast
import Bohrium.NumCil.Views
import Bohrium.NumCil.Repeat
import Bohrium.Library.Slots
import Bohrium.NumCil.Chain
import Bohrium.Core.Dictionary
import Bohrium.Core.Iniparser
import Bohrium.Core.IniDump
import Bohrium.Npbackend.Philox
import Bohrium.Library.Parallel
import Bohrium.NumCil.ThreadRunner
import Bohrium.NumCil.Threads
import Bohrium.Library.Collectives
import Bohrium.Cluster.Collective
import Bohrium.Cluster.Session
import Bohrium.NumCil.Concatenate
import Bohrium.NumCil.ThreadsReduce
