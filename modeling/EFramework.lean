import EFramework.Lib.Smear
import EFramework.Lib.Chain
import EFramework.Lib.Segments
import EFramework.Lib.Run
import EFramework.Lib.Simulation
import EFramework.Lib.Inverse
import EFramework.Lib.Bits
import EFramework.Lib.Slots
import EFramework.Lib.BlockHeap
import EFramework.Lib.ByteMemory
import EFramework.Lib.StackMachine
import EFramework.Lib.CString
import EFramework.Lib.CInt
import EFramework.Lib.Positional
import EFramework.Lib.Ring
import EFramework.Lib.Refines
import EFramework.Lib.Outcome
import EFramework.Structure.Memory
import EFramework.Structure.Hashtable.Model
import EFramework.Structure.Hashtable.Representation
import EFramework.Structure.Hashtable.Lookup
import EFramework.Structure.Hashtable.Update
import EFramework.Structure.Hashtable.Resize
import EFramework.Structure.Hashtable.Insert
import EFramework.Structure.Hashtable.Refinement
import EFramework.Structure.Hashtable.Ownership
import EFramework.Structure.Hashtable.Capacity
import EFramework.Structure.Hashtable.EmptyKey
import EFramework.Structure.Buffer
import EFramework.Structure.Text
import EFramework.Structure.Vector
import EFramework.Structure.List
import EFramework.Structure.BufferIO.Transfer
import EFramework.Structure.BufferIO.Reader
import EFramework.Structure.BufferIO.Progress
import EFramework.Structure.BufferIO.Writer
import EFramework.Structure.BufferIO.Retry
import EFramework.Structure.Headertab
import EFramework.Structure.Stringtab
import EFramework.Structure.Atomicity
import EFramework.Structure.Multimap
import EFramework.FastCGI.Protocol
import EFramework.FastCGI.Response
import EFramework.FastCGI.Params
import EFramework.FastCGI.Request
import EFramework.FastCGI.Opening
import EFramework.FastCGI.WellFormed
import EFramework.FastCGI.Segmentation
import EFramework.FastCGI.Cursor
import EFramework.FastCGI.Reads
import EFramework.FastCGI.Truncation
import EFramework.FastCGI.Reuse
import EFramework.FastCGI.Failures
import EFramework.Runtime.Poll
import EFramework.Runtime.Coroutine
import EFramework.Runtime.Fiber
import EFramework.Runtime.Framework
import EFramework.Runtime.Steps
import EFramework.Runtime.Base
import EFramework.Runtime.Owners
import EFramework.Runtime.Invariant
import EFramework.Runtime.Routing
import EFramework.Runtime.Queue
import EFramework.Runtime.Backend
import EFramework.Runtime.Stop
import EFramework.Runtime.Calls
import EFramework.Runtime.Usage
import EFramework.Runtime.Waiting
import EFramework.Runtime.Shrink
import EFramework.Runtime.PoolRun
import EFramework.Runtime.PoolMemory
import EFramework.Runtime.Transfers
import EFramework.Runtime.Connect
import EFramework.Epollet.Model
import EFramework.Epollet.Table
import EFramework.Epollet.Run
import EFramework.Epollet.Ready
import EFramework.Epollet.Delivery
import EFramework.Epollet.Kernel
import EFramework.Epollet.Entry
import EFramework.Epollet.Framework
import EFramework.Epollet.Edges
import EFramework.Epollet.Awaiting
import EFramework.Epollet.Wakeups
import EFramework.Epollet.Registration
import EFramework.Epollet.Routing
import EFramework.Pollsys.Model
import EFramework.Pollsys.Refinement
import EFramework.Pollsys.Framework
import EFramework.Port.Framework
import EFramework.Runtime.Batches
import EFramework.Runtime.Coroutines
import EFramework.Fiber.Sched
import EFramework.Fiber.Discipline
import EFramework.Fiber.Amd64
import EFramework.Fiber.Layout
import EFramework.Fiber.Switching
import EFramework.Fiber.Transparent
import EFramework.Fiber.I386
import EFramework.Fiber.Stack
import EFramework.Fiber.Areas
import EFramework.Fiber.Refinement
import EFramework.Http.Response
import EFramework.Http.Header
import EFramework.Http.Malformed
import EFramework.Http.Body
import EFramework.Http.ChunkSize
import EFramework.Http.Request
import EFramework.Http.Serialisation
import EFramework.Http.Bounds
import EFramework.Http.Head
import EFramework.Http.StatusLine
import EFramework.Redis.Decoding
import EFramework.Redis.Stream
import EFramework.Redis.Binary
import EFramework.Redis.Command
import EFramework.Redis.Errors
import EFramework.Redis.Integers
import EFramework.Redis.Agreement
import EFramework.Redis.Received
import EFramework.Redis.Halting
import EFramework.Redis.Progress
import EFramework.Redis.Termination
import EFramework.Redis.Freeing
import EFramework.Redis.Ownership
import EFramework.Redis.Session
