import NexusRuntime.Transition.System
import NexusRuntime.EventEmitter.Session
import NexusRuntime.Devices.TcpSocket
import NexusRuntime.Devices.FilePush
import NexusRuntime.Filters.Filter
import NexusRuntime.Wire.Message
import NexusRuntime.Http.ResponseOrder
import NexusRuntime.Http.Framing
import NexusRuntime.Http.Request
import NexusRuntime.Scheduler.Pool
import NexusRuntime.Scheduler.Release
import NexusRuntime.Scheduler.Abort
import NexusRuntime.Http.KeepAlive
import NexusRuntime.Scheduler.Moves
import NexusRuntime.Scheduler.Custody
import NexusRuntime.Scheduler.Accounts
import NexusRuntime.Scheduler.Shutdown
import NexusRuntime.Scheduler.Await
import NexusRuntime.Scheduler.Events
import NexusRuntime.Scheduler.Settled
import NexusRuntime.Scheduler.TaskGroup
import NexusRuntime.Globals.Timeouts
import NexusRuntime.Scheduler.BalanceThreads
import NexusRuntime.Devices.Outstanding
import NexusRuntime.Scheduler.PlainTask
import NexusRuntime.Scheduler.QueueOrder
import NexusRuntime.Devices.DataOrder
import NexusRuntime.EventEmitter.Reentry
import NexusRuntime.EventEmitter.EventEmitter2
import NexusRuntime.Path.Lexical
import NexusRuntime.Modules.Resolve
import NexusRuntime.Regex.Match
import NexusRuntime.Modules.Import
import NexusRuntime.Modules.Origin
import NexusRuntime.Filters.Utf8String
import NexusRuntime.Filters.Encoding
import NexusRuntime.Sequence.Blocks
import NexusRuntime.Devices.SinkWrites
import NexusRuntime.Sequence.Levels
import NexusRuntime.Streams.ReadableStream
import NexusRuntime.Streams.Filtered
import NexusRuntime.Streams.Push
import NexusRuntime.Streams.Pull
import NexusRuntime.Streams.Pipe
import NexusRuntime.Streams.ResumePromise
import NexusRuntime.Streams.PipeOrder
import NexusRuntime.Filters.Utf8Chunks
import NexusRuntime.Objects.Protect
import NexusRuntime.Devices.SinkWrite
import NexusRuntime.Devices.WriteSync
import NexusRuntime.Http.RequestBody
import NexusRuntime.Http.Writer
import NexusRuntime.Filters.Resume
import NexusRuntime.Filters.Direction
import NexusRuntime.Streams.EndMarker
import NexusRuntime.Devices.Seek
import NexusRuntime.Devices.UdpSocket
import NexusRuntime.Globals.Promise
import NexusRuntime.Http.Attach
import NexusRuntime.Devices.FileReset
import NexusRuntime.Filters.Utf8Sync
import NexusRuntime.Objects.ProtectedArguments
import NexusRuntime.Modules.Specifier
import NexusRuntime.EventEmitter.Nested
import NexusRuntime.Devices.FilePull
import NexusRuntime.Streams.ReadSync
import NexusRuntime.Modules.Fetch
import NexusRuntime.Devices.FileSeek
import NexusRuntime.Devices.PullRead
import NexusRuntime.Devices.SocketWrite
import NexusRuntime.Devices.UdpLoops
import NexusRuntime.Globals.PromiseRuns
import NexusRuntime.Objects.ValueString
import NexusRuntime.Globals.PromiseKept
import NexusRuntime.Globals.PromiseCalls
import NexusRuntime.Globals.PromiseOutcomes
import NexusRuntime.Globals.PromiseTouches
import NexusRuntime.Globals.PromiseCombinators
import NexusRuntime.Globals.PromisePool
import NexusRuntime.Http.Session
import NexusRuntime.Devices.FileSink
import NexusRuntime.Streams.FileCopy
import NexusRuntime.Streams.FilePipe
import NexusRuntime.Console.Inspect
import NexusRuntime.Console.ReadBack
import NexusRuntime.Modules.Chains
import NexusRuntime.Scheduler.Doomed
import NexusRuntime.Scheduler.Winding
