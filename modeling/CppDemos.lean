import CppDemos.Lib.Serial
import CppDemos.Lib.Flight
import CppDemos.Lib.NextFit
import CppDemos.Lib.Avoidance
import CppDemos.Lib.Deal
import CppDemos.Lib.LittleEndian
import CppDemos.Lib.Machine
import CppDemos.Lib.OrderedLog
import CppDemos.Lib.Fragment
import CppDemos.Lib.LexPath
import CppDemos.Lib.FileTree
import CppDemos.Lib.Monitor
import CppDemos.Lib.FdTable
import CppDemos.Lib.Ownership
import CppDemos.Lib.CString
import CppDemos.Kcp.Control
import CppDemos.Kcp.Wire
import CppDemos.Kcp.Recv
import CppDemos.Kcp.Send
import CppDemos.Kcp.Input
import CppDemos.Kcp.Flush
import CppDemos.Kcp.Track
import CppDemos.Kcp.Alike
import CppDemos.Kcp.Packing
import CppDemos.Kcp.Timers
import CppDemos.Kcp.Window
import CppDemos.Kcp.Bounds
import CppDemos.Kcp.Progress
import CppDemos.Kcp.Buffer
import CppDemos.Kcp.Congestion
import CppDemos.Wrapper.Init
import CppDemos.Wrapper.Update
import CppDemos.Wrapper.Calls
import CppDemos.Wrapper.Deliver
import CppDemos.Wrapper.Exact
import CppDemos.Wrapper.Return
import CppDemos.Wrapper.Lifecycle
import CppDemos.Wrapper.Quiet
import CppDemos.Wrapper.Foreign
import CppDemos.Wrapper.Leftover
import CppDemos.Wrapper.Bounded
import CppDemos.Group.Member
import CppDemos.Group.Model
import CppDemos.Group.Invariant
import CppDemos.Group.Guarantees
import CppDemos.Group.Session
import CppDemos.Group.Healthy
import CppDemos.Group.Progress
import CppDemos.Transfer.Header
import CppDemos.Transfer.Send
import CppDemos.Lib.LinkDisk
import CppDemos.Transfer.Confine
import CppDemos.Transfer.Directory
import CppDemos.Transfer.RoundTrip
import CppDemos.Transfer.OverGroup
import CppDemos.Transfer.Mirror
import CppDemos.Transfer.Sender
import CppDemos.Transfer.Stream
import CppDemos.Transfer.Names
import CppDemos.Transfer.Isolate
import CppDemos.Threads.Buffer
import CppDemos.Threads.BufferRuns
import CppDemos.Threads.Batch
import CppDemos.Threads.BatchRuns
import CppDemos.Threads.Endless
import CppDemos.Process.ForkServer
import CppDemos.Process.Pool
import CppDemos.Process.Parent
import CppDemos.Process.Shutdown
import CppDemos.Process.Tasks
import CppDemos.Process.HttpServer
import CppDemos.Process.HandOver
import CppDemos.Process.Dispatch
import CppDemos.Pointers.UniquePtr
import CppDemos.Pointers.UniqueRuns
import CppDemos.Pointers.SharedPtr
import CppDemos.Pointers.SharedRuns
import CppDemos.Pointers.SharedCycles
import CppDemos.Memory.MemoryPool
import CppDemos.Patterns.Observer
import CppDemos.Patterns.Singleton
import CppDemos.Socket.Echo
import CppDemos.Pipe.NamedPipe
import CppDemos.Kcp.Restamp
import CppDemos.Kcp.RestampFlush
import CppDemos.Group.Clocks
import CppDemos.Group.Windows
import CppDemos.Kcp.Stream
import CppDemos.Kcp.Estimator
