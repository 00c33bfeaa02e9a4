import LMiced.Lib.Loop
import LMiced.Lib.Run
import LMiced.Lib.Chain
import LMiced.Lib.Blocks
import LMiced.Lib.Places
import LMiced.Lib.MultiIndex
import LMiced.Lib.Fifo
import LMiced.Lib.Linked
import LMiced.Lib.Critical
import LMiced.Lib.BlockHash
import LMiced.Timer.Lists
import LMiced.Lib.Sweep
import LMiced.Timer.Clock
import LMiced.Timer.Trigger
import LMiced.Timer.Termination
import LMiced.Timer.Walk
import LMiced.Timer.Due
import LMiced.Timer.Action
import LMiced.Timer.Arrays
import LMiced.Timer.Memory
import LMiced.Timer.WellFormed
import LMiced.Timer.Contents
import LMiced.Resource.SizeField
import LMiced.Resource.Restask
import LMiced.Resource.Accounting
import LMiced.Resource.Lateness
import LMiced.Resource.Daemon
import LMiced.Resource.Slots
import LMiced.Resource.Commit
import LMiced.Resource.Mapped
import LMiced.Schedule.Ring
import LMiced.Schedule.Queue
import LMiced.Schedule.Filter
import LMiced.Eal.Hash
import LMiced.Eal.Bloom
import LMiced.Eal.Core
import LMiced.Eal.HashList
import LMiced.Eal.TimerThread
import LMiced.Eal.Spinlock
import LMiced.Resource.RestaskThreads
import LMiced.Resource.Right
import LMiced.Resource.Resset
import LMiced.Resource.Subscribers
import LMiced.Schedule.FilterTable
import LMiced.Schedule.FilterTls
import LMiced.Schedule.Deliver
import LMiced.Resource.MessageLayout
import LMiced.System.Syscall
import LMiced.Spi.Identity
import LMiced.Spi.Message
import LMiced.Spi.Register
import LMiced.Spi.CustomEvent
import LMiced.Spi.EventId
import LMiced.Spi.Init
import LMiced.Spi.Dispatch
import LMiced.Net.Beatheart
import LMiced.Web.User
import LMiced.Web.Request
import LMiced.Web.Reply
import LMiced.Web.Users
import LMiced.Web.Sha1
import LMiced.Web.Challenge
import LMiced.Ui.SshShell
import LMiced.Lib.Refine
import LMiced.Lib.Roster
import LMiced.Lib.Buffer
import LMiced.Resource.Pace
import LMiced.Resource.OnArrays
import LMiced.Net.Cluster
import LMiced.Eal.Names
import LMiced.Ui.Terminal
