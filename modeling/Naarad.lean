import Naarad.Lib.LinkedHeap
import Naarad.Lib.LabelledRun
import Naarad.Lib.NodeLog
import Naarad.Lib.Tally
import Naarad.Lib.CharArray
import Naarad.Lib.BoundedFifo
import Naarad.Lib.BoundedMap
import Naarad.Lib.DirectMap
import Naarad.Lib.PointerUse
import Naarad.Lib.Scaling
import Naarad.Message
import Naarad.OperationTable
import Naarad.MapLife
import Naarad.BarGraph
import Naarad.Queue.Refinement
import Naarad.Queue.Snapshot
import Naarad.Queue.Display
import Naarad.Queue.Linearised
import Naarad.Queue.Accounting
import Naarad.Queue.Leaks
import Naarad.HandleEvent
import Naarad.Sinks
import Naarad.Table
import Naarad.Tabs
import Naarad.MakeTui
import Naarad.Pipes.Runs
import Naarad.Main
import Naarad.NewestLast
import Naarad.Conversion
import Naarad.EndToEnd
import Naarad.Scope
import Naarad.FileSystem
import Naarad.CachedNames
import Naarad.AnonymousAccess
import Naarad.ScratchRecord
import Naarad.ScratchRefinement
import Naarad.Lib.RoundRobin
import Naarad.Dispatch.Delivery
import Naarad.Dispatch.Capacity
import Naarad.Dispatch.Phases
import Naarad.Dispatch.Stop
import Naarad.Dispatch.Acks
import Naarad.Dispatch.Indexing
import Naarad.Dispatch.Bytes
import Naarad.Dispatch.Deaths
import Naarad.Dispatch.Drain
import Naarad.Pipeline.Progress
import Naarad.Overview
import Naarad.Shown
import Naarad.Queue.LockFree
import Naarad.Activity
import Naarad.Queue.Teardown
import Naarad.Lib.Framing
import Naarad.Dispatch.Streams
import Naarad.MonitorLog
import Naarad.ExitStatus
import Naarad.ConcurrentHooks
