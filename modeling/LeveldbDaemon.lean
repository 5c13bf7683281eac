import LeveldbDaemon.Lib.OrdMap
import LeveldbDaemon.Lib.Write
import LeveldbDaemon.Lib.Shipping
import LeveldbDaemon.Lib.Run
import LeveldbDaemon.Lib.Prog
import LeveldbDaemon.Lib.Lock
import LeveldbDaemon.Lib.Custody
import LeveldbDaemon.Lib.Protocol
import LeveldbDaemon.Lib.Utf8
import LeveldbDaemon.Lib.JsonText
import LeveldbDaemon.Lib.JsonMachine
import LeveldbDaemon.Lib.Reading
import LeveldbDaemon.Lib.Framing
import LeveldbDaemon.Lib.Pipe
import LeveldbDaemon.Bytes
import LeveldbDaemon.Json.Parser
import LeveldbDaemon.Json.Number
import LeveldbDaemon.Json.Overflow
import LeveldbDaemon.Json.Value
import LeveldbDaemon.Json.Skip
import LeveldbDaemon.Json.Object
import LeveldbDaemon.Json.Scan
import LeveldbDaemon.Json.Portable
import LeveldbDaemon.Json.RoundTrip
import LeveldbDaemon.Json.PairList
import LeveldbDaemon.Json.Grammar
import LeveldbDaemon.Json.Strings
import LeveldbDaemon.Json.Locality
import LeveldbDaemon.Json.SkipLocality
import LeveldbDaemon.Json.ObjectLocality
import LeveldbDaemon.Json.Skipping
import LeveldbDaemon.Json.Bounded
import LeveldbDaemon.Json.Members
import LeveldbDaemon.Json.Whole
import LeveldbDaemon.Splitter
import LeveldbDaemon.Output
import LeveldbDaemon.Epoller
import LeveldbDaemon.MuxConnection
import LeveldbDaemon.ConnectionSteps
import LeveldbDaemon.Server
import LeveldbDaemon.EventLoop
import LeveldbDaemon.Delivery
import LeveldbDaemon.Sessions
import LeveldbDaemon.Udp
import LeveldbDaemon.Db
import LeveldbDaemon.Queries
import LeveldbDaemon.Codec
import LeveldbDaemon.Client
import LeveldbDaemon.Replication
import LeveldbDaemon.Sending
import LeveldbDaemon.Link
import LeveldbDaemon.Retirement
import LeveldbDaemon.Dispatch
import LeveldbDaemon.Multiserver
import LeveldbDaemon.InvokeFirst
import LeveldbDaemon.SharedRequests
import LeveldbDaemon.Cancellation
import LeveldbDaemon.Methods
import LeveldbDaemon.World
import LeveldbDaemon.KeyStep
import LeveldbDaemon.History
import LeveldbDaemon.Ledger
import LeveldbDaemon.Accounting
import LeveldbDaemon.Polling
import LeveldbDaemon.Packed
import LeveldbDaemon.Fields
import LeveldbDaemon.SetParams
import LeveldbDaemon.Defaults
import LeveldbDaemon.Reads
import LeveldbDaemon.Range
import LeveldbDaemon.Params
import LeveldbDaemon.ParamsLocality
import LeveldbDaemon.Json.Passing
import LeveldbDaemon.Json.ObjectText
import LeveldbDaemon.Rpc
import LeveldbDaemon.RequestLine
import LeveldbDaemon.FrontEnds
import LeveldbDaemon.Answers
import LeveldbDaemon.StatusText
import LeveldbDaemon.Envelope
import LeveldbDaemon.Messages
import LeveldbDaemon.Endpoint
import LeveldbDaemon.Handling
import LeveldbDaemon.Failures
import LeveldbDaemon.System
import LeveldbDaemon.Pipeline
import LeveldbDaemon.Portability
import LeveldbDaemon.Wire
import LeveldbDaemon.Convergence
import LeveldbDaemon.Cursor
import LeveldbDaemon.Transfer
import LeveldbDaemon.InitialSync
import LeveldbDaemon.Reconnect
import LeveldbDaemon.Resync
import LeveldbDaemon.Gaps
import LeveldbDaemon.Ordering
import LeveldbDaemon.Linearizable
import LeveldbDaemon.Counters
import LeveldbDaemon.Isolation
import LeveldbDaemon.Exchange
import LeveldbDaemon.Refinement
