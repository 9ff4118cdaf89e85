import Pepp.Tvm.Log
import Pepp.Alloc.Occupancy
import Pepp.Sim.FifoReplay
import Pepp.Ds.StringPoolRuns
import Pepp.Asmb.ObjectPartition
import Pepp.Geom.SpatialRuns
import Pepp.Elf.GnuHashRuns
import Pepp.Elf.FileExactness
import Pepp.Mc2.Handshake
import Pepp.Broadcast.Refinement
import Pepp.Sys.RoundTrip
import Pepp.Debug.RoundTrip
import Pepp.Cpu.TrapReturn
import Pepp.Ds.PagedPoolRuns
import Pepp.Sim.Ram
import Pepp.Sim.RegisterRoundTrip
import Pepp.Tvm.ApplyBackend
import Pepp.Symbol.OrderIndependence
import Pepp.Tvm.Payloads
import Pepp.Asmb.Aliases
import Pepp.Asmb.IntegerLiterals
import Pepp.Asmb.LineMapping
import Pepp.Bits.HexText
import Pepp.Cpu.ByteStores
import Pepp.Riscv.Decoding
import Pepp.Debug.Registry
import Pepp.Debug.WatchValues
import Pepp.Elf.StringTable
import Pepp.Elf.SymbolArrangement
import Pepp.Geom.Decomposition
import Pepp.Mc2.Arithmetic
import Pepp.Mc2.UnitTests
import Pepp.Microcode.BranchTargets
import Pepp.Debug.Sentences
import Pepp.Trace.Paths
import Pepp.Sys.IntegerFields
import Pepp.Sys.Traversal
import Pepp.Elf.MemoryMap
import Pepp.Sim.BusContents
import Pepp.Trace.BusViews
import Pepp.Trace.ModifiedAddresses
import Pepp.Symbol.Fork
import Pepp.Trace.IdeController
import Pepp.Bits.FixedBitset
