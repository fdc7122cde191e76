import OCNote.Support.Machine
import OCNote.Support.Lock
import OCNote.Support.Loop
import OCNote.Support.CInt
import OCNote.Support.StableSort
import OCNote.Support.Forest
import OCNote.Support.BarrierQueue
import OCNote.Support.Span
import OCNote.Support.ProbeTable
import OCNote.Support.Preorder
import OCNote.Support.Tally
import OCNote.Support.CountingSemaphore
import OCNote.Timer.MBTimer
import OCNote.Timer.Handles
import OCNote.Timer.Interleaved
import OCNote.Timer.Serial
import OCNote.Timer.Acquisition
import OCNote.Timer.Linearizable
import OCNote.Timer.Settings
import OCNote.Hook.Runtime
import OCNote.Hook.SMHook
import OCNote.Hook.Sending
import OCNote.Hook.Composition
import OCNote.Hook.Unresolved
import OCNote.Hook.Twice
import OCNote.Hook.MethodCache
import OCNote.Hook.ClassTree
import OCNote.Hook.CachedDispatch
import OCNote.Hook.CacheCoherence
import OCNote.Hook.SendLinearizable
import OCNote.Hook.HookedSends
import OCNote.PermanentThread.MBPermanentThread
import OCNote.PermanentThread.Delivery
import OCNote.PermanentThread.OneClient
import OCNote.PermanentThread.Shutdown
import OCNote.PermanentThread.CallOrder
import OCNote.PermanentThread.Abandoned
import OCNote.UserCenter.UserCenter
import OCNote.UserCenter.AtomicDictionary
import OCNote.UserCenter.Refinement
import OCNote.UserCenter.Linearizable
import OCNote.UserCenter.MutableKeys
import OCNote.Monitor.MBMonitor
import OCNote.Monitor.Workers
import OCNote.Monitor.Semaphore
import OCNote.Monitor.CpuTimers
import OCNote.Ticket.SaleTicketSafe
import OCNote.Ticket.LostSignal
import OCNote.Dispatch.Semaphore
import OCNote.Dispatch.SemaphoreLinearizable
import OCNote.Dispatch.SemaphoreProgress
import OCNote.Dispatch.SemaphoreClient
import OCNote.Ticket.OverDispatch
import OCNote.Dispatch.LockWord
import OCNote.Dispatch.Once
import OCNote.Dispatch.OnceSafety
import OCNote.Dispatch.OnceProgress
import OCNote.Dispatch.GroupWord
import OCNote.Dispatch.Group
import OCNote.Dispatch.GroupList
import OCNote.Dispatch.GroupSafety
import OCNote.Dispatch.GroupTiming
import OCNote.Dispatch.GroupWakeup
import OCNote.Dispatch.GroupProgress
import OCNote.Dispatch.GroupClient
import OCNote.Hook.Load
import OCNote.Sort.SortObject
import OCNote.Sort.BubbleSort
import OCNote.Sort.InsertionSort
import OCNote.Sort.SelectionSort
import OCNote.Sort.InRange
import OCNote.Sort.SortIndex
import OCNote.Button.UIButtonZone
import OCNote.Requests.MultipleRequest
import OCNote.Requests.Counted
import OCNote.Requests.Summary
