import HttpC.Core.LTS
import HttpC.Core.Inevitable
import HttpC.Core.Bytes
import HttpC.Core.CBuf
import HttpC.Core.Regex
import HttpC.Core.Decimal
import HttpC.Core.Text
import HttpC.Core.Path
import HttpC.Core.Flock
import HttpC.Core.FileSpec
import HttpC.Core.FileSys
import HttpC.Core.Tally
import HttpC.Core.Handles
import HttpC.Core.Getopt
import HttpC.L1Io.Util
import HttpC.L1Io.ReadUntil
import HttpC.L2Parse.Conn
import HttpC.L2Parse.Fields
import HttpC.L2Parse.Parse
import HttpC.L2Parse.Block
import HttpC.L2Parse.Bounds
import HttpC.L2Parse.Body
import HttpC.L2Parse.Streaming
import HttpC.L3Handler.Lock
import HttpC.L3Handler.LockBuf
import HttpC.L3Handler.Worker
import HttpC.L3Handler.Discipline
import HttpC.L3Handler.Guard
import HttpC.L3Handler.Lines
import HttpC.L3Handler.Stream
import HttpC.L4Pool.Queue
import HttpC.L4Pool.Fifo
import HttpC.L4Pool.ThreadPool
import HttpC.L4Pool.Drain
import HttpC.L5Concurrency.Server
import HttpC.L5Concurrency.Alone
import HttpC.L5Concurrency.Answer
import HttpC.L5Concurrency.Audit
import HttpC.L5Concurrency.Linear
import HttpC.L5Concurrency.PutOutcome
import HttpC.L5Concurrency.Processes
import HttpC.L5Concurrency.Coherent
import HttpC.L5Concurrency.Progress
import HttpC.L6Harness.Driver
import HttpC.L6Harness.Wire
import HttpC.L6Harness.AuditLog
import HttpC.L6Harness.Receive
import HttpC.L6Harness.Toml
import HttpC.L6Harness.Check
import HttpC.L6Harness.Sherlock
import HttpC.L6Harness.Decode
import HttpC.L7Mock.Mock
import HttpC.L7Mock.Locks
import HttpC.L7Mock.Progress
import HttpC.L7Mock.Request
import HttpC.L7Mock.Alone
import HttpC.L7Mock.Answer
import HttpC.L7Mock.Linear
import HttpC.L7Mock.OnTree
import HttpC.L8Program.Program
import HttpC.L8Program.HandOff
import HttpC.L8Program.Finish
import HttpC.L8Program.Linearized
import HttpC.L8Program.LogFile
import HttpC.L8Program.Descriptors
import HttpC.L8Program.Options
import HttpC.L8Program.LockDir
import HttpC.L9Suite.Run
import HttpC.L9Suite.Workload
import HttpC.L9Suite.Running
import HttpC.L9Suite.Sending
import HttpC.L9Suite.Verdict
import HttpC.L9Suite.Ends
import HttpC.Bugs.AuditDropped
import HttpC.Bugs.BodyAsHeader
import HttpC.Bugs.GreenVerdict
import HttpC.Bugs.HeaderAsBody
import HttpC.Bugs.IdLost
import HttpC.Bugs.LengthOverflow
import HttpC.Bugs.LockAlias
import HttpC.Bugs.LockDots
import HttpC.Bugs.MethodPrefix
import HttpC.Bugs.MockDrift
import HttpC.Bugs.NegativeCast
import HttpC.Bugs.PathEscape
