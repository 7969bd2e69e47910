import PacketInspector.Wire
import PacketInspector.Runs
import PacketInspector.Ledger
import PacketInspector.Records
import PacketInspector.ClientHello
import PacketInspector.Hostname
import PacketInspector.Packet
import PacketInspector.Policy
import PacketInspector.Extractor
import PacketInspector.Traffic
import PacketInspector.Steps
import PacketInspector.BlockRing
import PacketInspector.Accounting
import PacketInspector.Evidence
import PacketInspector.Chunking
import PacketInspector.Flow
import PacketInspector.AllowedFlows
import PacketInspector.Forgetting
import PacketInspector.Gathering
import PacketInspector.NoBypass
import PacketInspector.FlowTable
import PacketInspector.Idle
import PacketInspector.Remembering
import PacketInspector.Closing
import PacketInspector.Tokens
import PacketInspector.Watching
import PacketInspector.ClosedOnce
import PacketInspector.Leaks
import PacketInspector.Worker
import PacketInspector.Verdicts
import PacketInspector.Throwing
import PacketInspector.Interference
import PacketInspector.Gauge
import PacketInspector.OneVerdict
import PacketInspector.BlockedNames
import PacketInspector.ExtensionHeaders
import PacketInspector.Bounds
import PacketInspector.ParserBounds
import PacketInspector.Strtoull
import PacketInspector.Numbers
import PacketInspector.CommandLine
import PacketInspector.Recency
import PacketInspector.RingOrder
import PacketInspector.Evictions
import PacketInspector.OldestFirst
import PacketInspector.FailedDissections
import PacketInspector.FastPath
import PacketInspector.Outstanding
import PacketInspector.Draining
import PacketInspector.KernelView
import PacketInspector.Polling
import PacketInspector.Resources
import PacketInspector.Setup
import PacketInspector.Program
import PacketInspector.Shutdown
import PacketInspector.Returning
import PacketInspector.Endings
import PacketInspector.BuiltHellos
import PacketInspector.Rendering
import PacketInspector.ListFiles
import PacketInspector.Moves
import PacketInspector.CounterLines
import PacketInspector.KernelDrops
import PacketInspector.MainProgram
import PacketInspector.WorkerMoves
import PacketInspector.Losses
import PacketInspector.WireToVerdict
