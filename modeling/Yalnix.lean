import Yalnix.CallRun
import Yalnix.DelayRun
import Yalnix.FifoLock
import Yalnix.ForkRun
import Yalnix.Intrusive.Proofs.Rep
import Yalnix.KernelHeap
import Yalnix.KernelStart
import Yalnix.LifeRun
import Yalnix.LockRun
import Yalnix.PipeOrder
import Yalnix.PipeRun
import Yalnix.Proofs.Boot
import Yalnix.Proofs.CallStep
import Yalnix.Proofs.Clock
import Yalnix.Proofs.Contexts
import Yalnix.Proofs.DelayRun
import Yalnix.Proofs.Drain
import Yalnix.Proofs.Exec
import Yalnix.Proofs.Family
import Yalnix.Proofs.ForkRun
import Yalnix.Proofs.KernelHeap
import Yalnix.Proofs.Lock
import Yalnix.Proofs.LockMoves
import Yalnix.Proofs.LockRun
import Yalnix.Proofs.Monitor
import Yalnix.Proofs.Owners
import Yalnix.Proofs.PipeCall
import Yalnix.Proofs.PipeLoop
import Yalnix.Proofs.PipeMoves
import Yalnix.Proofs.PipeOrder
import Yalnix.Proofs.PipeRun
import Yalnix.Proofs.PipeStep
import Yalnix.Proofs.PipeStream
import Yalnix.Proofs.PipeWakeup
import Yalnix.Proofs.Queues
import Yalnix.Proofs.ReclaimRun
import Yalnix.Proofs.Removals
import Yalnix.Proofs.Schedule
import Yalnix.Proofs.SwitchRun
import Yalnix.Proofs.BootRun
import Yalnix.Proofs.PipeShape
import Yalnix.Proofs.DrainRun
import Yalnix.Proofs.PipeFrame
import Yalnix.Proofs.ShapeRun
import Yalnix.Proofs.RingRun
import Yalnix.Proofs.ReadOrder
import Yalnix.Proofs.LockCall
import Yalnix.Proofs.CvarRun
import Yalnix.Blocking
import Yalnix.CvarRun
import Yalnix.Crash
import Yalnix.Proofs.Crash
import Yalnix.Proofs.DrainCount
import Yalnix.Proofs.Blocking
import Yalnix.Proofs.TempMapping
import Yalnix.Proofs.IdChecks
import Yalnix.Proofs.SyncMoves
import Yalnix.Proofs.SyncTable
import Yalnix.Proofs.TableRun
import Yalnix.Proofs.TrapStep
import Yalnix.Proofs.Unswitched
import Yalnix.Proofs.Wake
import Yalnix.Proofs.WriteLog
import Yalnix.Reclaim
import Yalnix.SwitchRun
import Yalnix.SyncRun
import Yalnix.Timers
import Yalnix.Transition.System
import Yalnix.Transition.Simulation
import Yalnix.Transition.Serving
import Yalnix.Vectors
import Yalnix.Effects
import Yalnix.Proofs.KernelMap
import Yalnix.Proofs.Effects
import Yalnix.Identity
import Yalnix.Proofs.Identity
import Yalnix.Proofs.WaitBound
import Yalnix.WholeRun
import Yalnix.Proofs.Handles
import Yalnix.Proofs.KernelMapRun
import Yalnix.Proofs.Vectors
import Yalnix.FamilyRun
import Yalnix.Proofs.FamilyStep
import Yalnix.Proofs.FamilyRun
import Yalnix.Proofs.ReapStep
import Yalnix.Proofs.ReapRun
import Yalnix.PipeResult
import Yalnix.Proofs.PipeResult
import Yalnix.PipeLeak
import Yalnix.Proofs.PipeLeak
import Yalnix.WaitOrder
import Yalnix.Proofs.WaitOrder
import Yalnix.Paging.Memory
import Yalnix.Paging.Proofs.Memory
import Yalnix.Paging.Strings
import Yalnix.Paging.Proofs.Strings
import Yalnix.ForkMemory
import Yalnix.Proofs.ForkMemory
import Yalnix.Proofs.ForkShort
import Yalnix.LoadImage
import Yalnix.Proofs.LoadImage
import Yalnix.Proofs.LoadWrites
import Yalnix.ExecArgs
import Yalnix.Proofs.ExecArgs
import Yalnix.UserBrk
import Yalnix.Proofs.UserBrk
import Yalnix.Proofs.BrkRun
import Yalnix.Dispatch
import Yalnix.Proofs.Calm
import Yalnix.Proofs.CalmStep
import Yalnix.Proofs.CalmRun
import Yalnix.FrameRun
import Yalnix.Proofs.FrameRun
import Yalnix.ListRun
import Yalnix.Proofs.ListRun
import Yalnix.HeapPages
import Yalnix.Proofs.HeapPages
import Yalnix.Proofs.HeapKept
import Yalnix.Proofs.HeapFrames
import Yalnix.Proofs.ReadyRun
import Yalnix.Paging.Ownership
import Yalnix.Paging.Proofs.Ownership
import Yalnix.FrameOwners
import Yalnix.Proofs.SpaceStep
import Yalnix.Proofs.FrameTakes
import Yalnix.Proofs.FrameOwners
import Yalnix.Proofs.FrameBoot
import Yalnix.Proofs.IsolationRun
import Yalnix.Proofs.CrashRun
import Yalnix.FirstProgram
import Yalnix.Proofs.FirstProgram
import Yalnix.Paging.Private
import Yalnix.Paging.Proofs.Private
import Yalnix.MemoryRun
import Yalnix.Proofs.CalmSpace
import Yalnix.Proofs.MemoryStep
import Yalnix.Proofs.MemoryRun
import Yalnix.Paging.Message
import Yalnix.Paging.Proofs.Message
import Yalnix.MessageRun
import Yalnix.Proofs.PipeChannels
import Yalnix.Proofs.MessageRun
import Yalnix.Orphans
import Yalnix.Proofs.Orphans
import Yalnix.Proofs.Sweep
import Yalnix.Proofs.Lookup
import Yalnix.Proofs.RemoveChild
