import NetCpp.Lib.Transition
import NetCpp.Lib.Ring
import NetCpp.Lib.Loop
import NetCpp.Lib.Bytes
import NetCpp.Lib.Endian
import NetCpp.Lib.AssocMap
import NetCpp.Lib.Regex
import NetCpp.Lib.Memory
import NetCpp.Lib.Fallible
import NetCpp.Lib.FileTree
import NetCpp.Io.Buffer
import NetCpp.Io.Sendv
import NetCpp.Io.SendFile
import NetCpp.Wheel.Bit
import NetCpp.Sync.Spsc
import NetCpp.Coro.Signal
import NetCpp.Coro.SignalStop
import NetCpp.Coro.SignalWake
import NetCpp.Coro.SignalOnce
import NetCpp.Coro.AwaiterWrapper
import NetCpp.Coro.SignalCalls
import NetCpp.Coro.CancelCalls
import NetCpp.Coro.Channel
import NetCpp.Coro.ChannelRing
import NetCpp.Coro.ChannelFifo
import NetCpp.Coro.ChannelClose
import NetCpp.Coro.ChannelWake
import NetCpp.Coro.Executor
import NetCpp.Coro.Frames
import NetCpp.Coro.FramesStack
import NetCpp.Coro.FramesStep
import NetCpp.Coro.FramesReturn
import NetCpp.Coro.FramesRefine
import NetCpp.Coro.Chains
import NetCpp.Coro.Domains
import NetCpp.Coro.Then
import NetCpp.Coro.Tiers
import NetCpp.Dns.Decompress
import NetCpp.Dns.Compress
import NetCpp.Dns.Names
import NetCpp.Dns.Suffix
import NetCpp.Dns.RoundTrip
import NetCpp.Dns.Overloads
import NetCpp.Dns.Skip
import NetCpp.Dns.Wire
import NetCpp.Dns.Header
import NetCpp.Dns.Rr
import NetCpp.Http.Router
import NetCpp.Http.Target
import NetCpp.Http.Head
import NetCpp.Http.Line
import NetCpp.Http.Percent
import NetCpp.Http.Form
import NetCpp.Http.Grammar
import NetCpp.Http.Raw
import NetCpp.Http.Accept
import NetCpp.Http.MediaRange
import NetCpp.Http.Builder
import NetCpp.Http.Appends
import NetCpp.Http.Message
import NetCpp.Http.Read
import NetCpp.Http.Reuse
import NetCpp.Http.Proto
import NetCpp.Http.ResponsePart
import NetCpp.Http.Render
import NetCpp.Http.Response
import NetCpp.Http.HeaderMap
import NetCpp.Http.StatusLine
import NetCpp.Http.Service
import NetCpp.Http.Dispatch
import NetCpp.Http.Connection
import NetCpp.Http.Serve
import NetCpp.Http.ResponseRead
import NetCpp.Http.Session
import NetCpp.Http.Exchange
import NetCpp.Http.Growth
import NetCpp.Http.Static
import NetCpp.Http.Negotiate
import NetCpp.Net.Connect
import NetCpp.Sys.IoContext
import NetCpp.Sys.Dispatch
import NetCpp.Sys.Orphan
import NetCpp.Sys.Shutdown
import NetCpp.Net.Uri
import NetCpp.Http.Client
import NetCpp.Dns.Labels
import NetCpp.Lib.Scan
import NetCpp.Dns.Search
import NetCpp.Dns.Calls
import NetCpp.Dns.Abandoned
import NetCpp.Dns.Tables
import NetCpp.Wheel.Rc
import NetCpp.Lib.Ledger
import NetCpp.Compose.SharedMemory
import NetCpp.Compose.SharedMemoryLedger
import NetCpp.Compose.Capacity
import NetCpp.Wheel.FixedVector
import NetCpp.Dns.Match
import NetCpp.Lib.Progress
import NetCpp.Io.Device
import NetCpp.Io.Transfer
import NetCpp.Net.Listen
import NetCpp.Dns.Message
import NetCpp.Io.Splice
