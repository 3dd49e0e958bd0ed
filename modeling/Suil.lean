import Suil.Lib.Chain
import Suil.Lib.Narrow
import Suil.Lib.Transition
import Suil.Lib.Progress
import Suil.Lib.DoublyLinked
import Suil.Lib.Ownership
import Suil.Lib.StableSort
import Suil.Lib.Bits
import Suil.Lib.Cut
import Suil.Lib.Ends
import Suil.Lib.FirstWins
import Suil.Lib.Feistel
import Suil.Lib.CycleWalk
import Suil.Dns.Permutor
import Suil.Dns.Packet
import Suil.Dns.Labels
import Suil.Dns.Comp
import Suil.Dns.Compressed
import Suil.Dns.Pushed
import Suil.Dns.Packing
import Suil.Lib.Walk
import Suil.Dns.Ending
import Suil.Lib.Selection
import Suil.Dns.Records
import Suil.Dns.Iterator
import Suil.Dns.Hints
import Suil.Dns.Search
import Suil.Async.MillList
import Suil.Async.Wakeup
import Suil.Async.Shutdown
import Suil.Async.Thread
import Suil.Async.TimerList
import Suil.Async.Expiry
import Suil.Async.Steps
import Suil.Async.Completion
import Suil.Async.Timers
import Suil.Async.Registration
import Suil.Async.Scheduler
import Suil.Async.Mutex
import Suil.Async.ScopedLock
import Suil.Async.HandOver
import Suil.Async.Task
import Suil.Async.Await
import Suil.Async.Lifetime
import Suil.Async.Scope
import Suil.Async.Socket
import Suil.Async.Tcp
import Suil.Async.Descriptors
import Suil.Async.Moves
import Suil.Async.AutoReset
import Suil.Async.WaiterQueue
import Suil.Async.Resumer
import Suil.Async.ManualReset
import Suil.Async.Spurious
import Suil.Async.Delivery
import Suil.Async.Load
import Suil.Async.Dispatch
import Suil.Async.Guards
import Suil.Async.Address
import Suil.Async.Remote
import Suil.Async.SyncWait
import Suil.Utils.B64
import Suil.Utils.Sextets
import Suil.Utils.Padded
import Suil.Utils.Overread
import Suil.Utils.Args
import Suil.Utils.Assigned
import Suil.Utils.Spelling
import Suil.Utils.Parser
import Suil.Utils.Script
import Suil.Utils.Parsed
import Suil.Utils.Independent
import Suil.Utils.Names
import Suil.Utils.Hex
import Suil.Utils.Url
import Suil.Utils.Number
import Suil.Utils.Numeral
import Suil.Utils.Split
import Suil.Utils.Elements
import Suil.Utils.Confined
import Suil.Utils.Strip
import Suil.Utils.Uuid
import Suil.Utils.Logging
import Suil.Dns.Answers
