import IntroSystems.Lib.Monitor
import IntroSystems.Lib.Tally
import IntroSystems.Lib.Transition
import IntroSystems.Lib.ByteMem
import IntroSystems.Lib.Tiling
import IntroSystems.Malloc.Request
import IntroSystems.Traffic.CondProgress
import IntroSystems.Traffic.SemModel
import IntroSystems.Traffic.SemSafety
import IntroSystems.Lib.Follows
import IntroSystems.Lib.Loop
import IntroSystems.SM213.Agreement
import IntroSystems.SM213.CpuA2
import IntroSystems.SM213.JumpTable
import IntroSystems.Philosophers.Manners
import IntroSystems.Smokers.Lost
import IntroSystems.SM213.Image
import IntroSystems.Elements.SortedTree
import IntroSystems.Elements.Sortmain
import IntroSystems.Elements.A5
import IntroSystems.Elements.A7Main
import IntroSystems.Elements.A7Tree
import IntroSystems.Malloc.FirstFit
import IntroSystems.SM213.Loading
import IntroSystems.Disk.Order
import IntroSystems.Disk.ARead
import IntroSystems.Disk.TRead
import IntroSystems.Promises.Kept
import IntroSystems.Uthread.Mutex
import IntroSystems.Uthread.Join
import IntroSystems.SM213.Objects
import IntroSystems.SM213.GradesRun
import IntroSystems.SM213.Bounds
import IntroSystems.SM213.LastWrite
import IntroSystems.Disk.Callbacks
import IntroSystems.Elements.Links
import IntroSystems.Elements.A5Tree
import IntroSystems.BinaryTreeCode.Model
import IntroSystems.BinaryTreeCode.Path
import IntroSystems.Lists.Model
import IntroSystems.Lists.Sequence
import IntroSystems.Lists.Mapping
import IntroSystems.Lists.Map1
import IntroSystems.Lists.Map2
import IntroSystems.Lists.Trunc
import IntroSystems.Lists.TruncPasses
import IntroSystems.Lists.TruncRun
import IntroSystems.Disk.Destroy
import IntroSystems.Disk.Times
import IntroSystems.Disk.Polling
import IntroSystems.Disk.SRead
import IntroSystems.Sorting.BubbleSort
import IntroSystems.Uthread.Sem
import IntroSystems.Uthread.Shared
import IntroSystems.Barrier.Model
import IntroSystems.Barrier.Runs
import IntroSystems.Lib.Contest
import IntroSystems.SM213.Maximum
import IntroSystems.SM213.BitCount
import IntroSystems.SM213.BitCountRun
import IntroSystems.Lib.Pairs
import IntroSystems.Uthread.Cond
import IntroSystems.Uthread.CondRefines
import IntroSystems.Uthread.Scheduler
import IntroSystems.Uthread.Dispatch
import IntroSystems.Uthread.DispatchRuns
import IntroSystems.Uthread.Dispatched
import IntroSystems.Uthread.Race
import IntroSystems.Uthread.Idle
import IntroSystems.Lib.Exchange
import IntroSystems.Lib.RingBuffer
import IntroSystems.Buffers.BoundedBuffer
import IntroSystems.Buffers.Pool
import IntroSystems.Smokers.OverCode
import IntroSystems.Lib.Supersteps
import IntroSystems.Sor.Model
import IntroSystems.Sor.Parallel
import IntroSystems.SM213.Sums
import IntroSystems.SM213.SwitchTable
import IntroSystems.SM213.SystemCalls
import IntroSystems.SM213.Shellcode
import IntroSystems.SM213.Overflow
