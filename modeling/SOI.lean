import SOI.Synchronization.SemaphoreBuffer
import SOI.Synchronization.SemaphoreSafety
import SOI.Synchronization.MonitorBuffer
import SOI.Synchronization.MonitorSafety
import SOI.Synchronization.MonitorWakeup
import SOI.Library.Linked
import SOI.Scheduling.Proc
import SOI.Scheduling.ReadyQueue
import SOI.Scheduling.Clock
import SOI.Scheduling.ClockTick
import SOI.Scheduling.TimeSlice
import SOI.Library.Intervals
import SOI.Memory.Alloc
import SOI.Memory.HoleTable
import SOI.Memory.FreeClicks
import SOI.Memory.SwapOut
import SOI.Memory.Conservation
import SOI.FileSystem.State
import SOI.FileSystem.Operations
import SOI.FileSystem.RoundTrip
import SOI.FileSystem.Calls
import SOI.FileSystem.Durability
import SOI.FileSystem.Chains
import SOI.FileSystem.Growth
import SOI.FileSystem.FatInvariant
import SOI.FileSystem.Recovery
import SOI.FileSystem.NewlineNames
import SOI.FileSystem.Atomicity
import SOI.Library.Splice
import SOI.FileSystem.Contents
import SOI.FileSystem.Addressing
import SOI.Library.RoundRobin
import SOI.Scheduling.RoundRobin
import SOI.Scheduling.SystemTask
import SOI.Scheduling.QueueRuns
import SOI.Scheduling.SystemCalls
import SOI.Scheduling.ProcessTable
import SOI.FileSystem.IndexSafety
import SOI.FileSystem.Deletion
import SOI.FileSystem.NoSpace
import SOI.FileSystem.Update
import SOI.FileSystem.Offsets
import SOI.FileSystem.Pieces
import SOI.FileSystem.Reading
import SOI.FileSystem.Creation
import SOI.FileSystem.BlockCounts
import SOI.FileSystem.StartUp
import SOI.Synchronization.SemaphoreTokens
import SOI.Memory.Policies
import SOI.Memory.WorstFit
import SOI.Library.Words
import SOI.Memory.HoleMap
import SOI.FileSystem.Names
import SOI.Library.Logged
import SOI.Memory.SlotRuns
import SOI.Library.Parents
import SOI.Library.FirstMax
import SOI.Syscalls.Mproc
import SOI.Syscalls.ChildlessChain
import SOI.Syscalls.LongestChain
import SOI.Syscalls.Descendants
import SOI.Syscalls.DescendantBounds
import SOI.Library.Rendezvous
import SOI.Scheduling.Messages
import SOI.Scheduling.Services
import SOI.Scheduling.KernelView
import SOI.Scheduling.Runnable
import SOI.Scheduling.Mail
import SOI.Scheduling.CallerQueues
import SOI.Scheduling.KernelInvariant
import SOI.Scheduling.Sending
import SOI.Scheduling.Receiving
import SOI.Scheduling.KernelSteps
import SOI.Scheduling.Interrupts
import SOI.Scheduling.Signalling
import SOI.Scheduling.Lifecycle
import SOI.Scheduling.Boot
import SOI.Scheduling.KernelRuns
import SOI.Synchronization.MonitorProgress
import SOI.Library.Copies
import SOI.Memory.Swapping
import SOI.Memory.SwapQueue
import SOI.Memory.SwapImages
import SOI.Memory.SwapArea
import SOI.Memory.SwapRuns
import SOI.Memory.SwapIn
import SOI.FileSystem.Store
import SOI.FileSystem.StoreRefinement
