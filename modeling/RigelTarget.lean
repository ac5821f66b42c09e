import RigelTarget.SharedMemory
import RigelTarget.TicketLock
import RigelTarget.TicketDispenser
import RigelTarget.IntrusiveList
import RigelTarget.LtqTicketLock
import RigelTarget.IntervalTiling
import RigelTarget.LoopPartition
import RigelTarget.RigelAssembly
import RigelTarget.EnqueueCriticalSection
import RigelTarget.TaskQueueProgram
import RigelTarget.TaskQueueBarrier
import RigelTarget.TaskQueueSafety
import RigelTarget.TaskQueueLists
import RigelTarget.TaskQueueRoom
import RigelTarget.TaskQueuePrefetch
import RigelTarget.RoundElection
import RigelTarget.TaskQueueElection
import RigelTarget.RigelAtomics
import RigelTarget.ReentrantLock
import RigelTarget.PthreadOnce
import RigelTarget.NewlibLock
import RigelTarget.PthreadMutex
import RigelTarget.PthreadMutexProtocol
import RigelTarget.PthreadCond
import RigelTarget.CombiningBarrier
import RigelTarget.BarrierMT
import RigelTarget.X86TaskModel
import RigelTarget.X86TaskDelivery
import RigelTarget.PthreadManagement
import RigelTarget.EnqueueSequential
import RigelTarget.PthreadTls
import RigelTarget.X86Barrier
import RigelTarget.BarrierFull
import RigelTarget.TaskQueueRestart
import RigelTarget.RingBuffer
import RigelTarget.DescriptorBuffer
import RigelTarget.DoubleBuffer
import RigelTarget.Stencil
import RigelTarget.GameOfLife
import RigelTarget.DescriptorPool
import RigelTarget.TaskQueueWrap
import RigelTarget.HybridCoherence
import RigelTarget.CoreCount
import RigelTarget.StencilDecomposition
import RigelTarget.MmapArena
import RigelTarget.StencilCache
import RigelTarget.GameOfLifeCache
import RigelTarget.MarchingCubes
import RigelTarget.X86BoundedRing
import RigelTarget.Exchanges
import RigelTarget.BitReversal
import RigelTarget.FftReordering
import RigelTarget.FftTranspose
import RigelTarget.FftTwiddle
import RigelTarget.Buckets
import RigelTarget.ConjugateGradient
import RigelTarget.ProductTiling
import RigelTarget.BlockedMatMult
import RigelTarget.RadixTwo
import RigelTarget.FftProgram
import RigelTarget.Custody
import RigelTarget.TaskQueueDelivery
import RigelTarget.TaskQueueRoundTrip
import RigelTarget.BinaryFormat
import RigelTarget.CompilerRtDivision
import RigelTarget.SoftFloat
import RigelTarget.SoftFloatAdd
import RigelTarget.SoftFloatMultiply
