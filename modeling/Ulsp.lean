import Ulsp.Lib.Run
import Ulsp.Lib.Fair
import Ulsp.Lib.Fuel
import Ulsp.Lib.Chain
import Ulsp.Lib.NodeStore
import Ulsp.Lib.HeapOrder
import Ulsp.Lib.Tally
import Ulsp.Lib.Epoll
import Ulsp.Lib.Buffer
import Ulsp.Lib.Interrupt
import Ulsp.Lib.Table
import Ulsp.Lib.Ring
import Ulsp.Lib.Partial
import Ulsp.Lib.Lines
import Ulsp.Lib.Lang
import Ulsp.Lib.RoundRobin
import Ulsp.Lib.Resources
import Ulsp.Lib.ForkJoin
import Ulsp.Lib.Lock
import Ulsp.Base
import Ulsp.Stdlib
import Ulsp.Timer.Heap
import Ulsp.Timer.HeapSift
import Ulsp.Timer.HeapOps
import Ulsp.Timer.HeapCalls
import Ulsp.Timer.HeapRun
import Ulsp.Timer.HeapInt
import Ulsp.Timer.HeapAlarm
import Ulsp.Timer.HeapSafe
import Ulsp.Timer.List
import Ulsp.Timer.ListOps
import Ulsp.Timer.ListRun
import Ulsp.Timer.ListCalls
import Ulsp.Timer.Pending
import Ulsp.Timer.Rearm
import Ulsp.Timer.Interchange
import Ulsp.Timer.Wheel
import Ulsp.Timer.WheelOps
import Ulsp.Timer.WheelCalls
import Ulsp.Timer.WheelRun
import Ulsp.Timer.WheelInvariant
import Ulsp.Timer.WheelClock
import Ulsp.Thpool.JobQueue
import Ulsp.Thpool.Clear
import Ulsp.Thpool.Ledger
import Ulsp.Thpool.Pool
import Ulsp.Thpool.Fifo
import Ulsp.Thpool.Tokens
import Ulsp.Thpool.Wait
import Ulsp.Thpool.Pause
import Ulsp.Thpool.Wakeup
import Ulsp.Thpool.Destroy
import Ulsp.Thpool.Pools
import Ulsp.Thpool.Init
import Ulsp.Thpool.ConcIncrement
import Ulsp.Procpool.Pool
import Ulsp.Procpool.Accept
import Ulsp.Procpool.Parent
import Ulsp.Procpool.Fair
import Ulsp.Procpool.Child
import Ulsp.Procpool.FileConn
import Ulsp.Procpool.Signals
import Ulsp.Procpool.SignalRun
import Ulsp.Procpool.Shutdown
import Ulsp.Chat.Server
import Ulsp.Chat.ServerOps
import Ulsp.Chat.Slots
import Ulsp.Chat.Receive
import Ulsp.Chat.Recycle
import Ulsp.Chat.Broadcast
import Ulsp.Chat.FdSets
import Ulsp.Chat.Poll
import Ulsp.Chat.PollTable
import Ulsp.Chat.PollMail
import Ulsp.Chat.Client
import Ulsp.Cat.LineNum
import Ulsp.Cat.Cat
import Ulsp.Cat.Transform
import Ulsp.Cat.Refill
import Ulsp.Cat.Flush
import Ulsp.Cat.Bounds
import Ulsp.Cat.Stdout
import Ulsp.Cat.Pipeline
import Ulsp.Cat.Undo
import Ulsp.Cat.Syscalls
import Ulsp.Ipc.Mem
import Ulsp.Ipc.SeqNum
import Ulsp.Ipc.Answered
import Ulsp.Procexec.Sigchld
import Ulsp.Threads.Multijoin
import Ulsp.Threads.Incr
import Ulsp.Threads.IncrLocked
import Ulsp.Threads.StrerrorTsd
import Ulsp.Threads.Cleanup
import Ulsp.Od.Od
import Ulsp.Od.Stream
import Ulsp.Od.Reads
import Ulsp.Od.Dump
import Ulsp.Od.Limit
import Ulsp.Od.Undump
import Ulsp.Chmod.Chmod
import Ulsp.Chmod.Grammar
import Ulsp.Chmod.SetId
import Ulsp.Chmod.Clauses
import Ulsp.Chmod.Actions
import Ulsp.Chmod.Recursive
import Ulsp.Chmod.Files
import Ulsp.Chmod.Numeric
import Ulsp.Chmod.Masks
import Ulsp.Chmod.Options
import Ulsp.HeadTail.File
import Ulsp.HeadTail.Copy
import Ulsp.HeadTail.Tail
import Ulsp.HeadTail.TailLines
import Ulsp.HeadTail.Head
import Ulsp.HeadTail.HeadLines
import Ulsp.HeadTail.FromLine
import Ulsp.HeadTail.AllButLast
import Ulsp.HeadTail.Delimiter
import Ulsp.HeadTail.Bytes
import Ulsp.HeadTail.Calls
import Ulsp.HeadTail.Overflow
import Ulsp.Pwd.Pwd
import Ulsp.Chown.Chown
import Ulsp.Chown.Inside
import Ulsp.Chown.From
import Ulsp.Cp.Cp
import Ulsp.Net.Echo
