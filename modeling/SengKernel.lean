import SengKernel.LoopBasics
import SengKernel.RunBasics
import SengKernel.RingBasics
import SengKernel.TurnBasics
import SengKernel.BitmapBasics
import SengKernel.ByteOrder
import SengKernel.MachineWords
import SengKernel.PmmFrames
import SengKernel.PmmMap
import SengKernel.PmmSafety
import SengKernel.PmmLayout
import SengKernel.PmmRegions
import SengKernel.SchedulerState
import SengKernel.SchedulerRings
import SengKernel.SchedulerRuns
import SengKernel.SchedulerSessions
import SengKernel.SyncMachine
import SengKernel.SyncRuns
import SengKernel.SyncPlaces
import SengKernel.HandoffLock
import SengKernel.SemaphorePreemption
import SengKernel.MutexPreemption
import SengKernel.WakeupPreemption
import SengKernel.KernelString
import SengKernel.FsState
import SengKernel.FsCalls
import SengKernel.FsEffects
import SengKernel.FsOwnership
import SengKernel.FsIsolation
import SengKernel.FsLeaks
import SengKernel.BootMemoryMap
import SengKernel.PmmAccounting
import SengKernel.SchedulerActivity
import SengKernel.SchedulerFairness
import SengKernel.ProcessDeath
import SengKernel.ChainBasics
import SengKernel.SyncOperations
import SengKernel.MutexProtocol
import SengKernel.SemaphoreProtocol
import SengKernel.ThreadPrograms
import SengKernel.MutexDemo
import SengKernel.SemaphoreDemo
import SengKernel.BufferLedger
import SengKernel.BoundedBuffer
import SengKernel.FileMap
import SengKernel.FsReads
import SengKernel.FsEndOfFile
import SengKernel.SpliceBasics
import SengKernel.FsSplitting
import SengKernel.FsListing
import SengKernel.FsDirectory
import SengKernel.FsAtomicity
import SengKernel.FsRepresents
import SengKernel.FsTransfers
import SengKernel.FsRefinement
import SengKernel.VgaText
import SengKernel.ShellText
import SengKernel.ShellCommands
import SengKernel.ShellFiles
import SengKernel.ShellAppend
import SengKernel.KillCommand
import SengKernel.InitialFrames
import SengKernel.ContextSwitch
import SengKernel.ThreadProgress
import SengKernel.SemaphoreProgress
import SengKernel.MutexProgress
import SengKernel.RaceDemo
import SengKernel.RamdiskBytes
import SengKernel.ConsoleMemory
import SengKernel.FsTwoRuns
import SengKernel.FsDisclosure
import SengKernel.CopyBasics
import SengKernel.KernelMemory
import SengKernel.ShellCompare
import SengKernel.NumberText
import SengKernel.KeyboardDriver
import SengKernel.SchedulerQueues
import SengKernel.SchedulerShares
import SengKernel.VgaPage
import SengKernel.LineEditor
import SengKernel.LineTyping
import SengKernel.ShellNames
import SengKernel.ShellDispatch
import SengKernel.ShellVolume
import SengKernel.ShellSession
import SengKernel.ShellFrame
import SengKernel.ShellTyping
import SengKernel.FormatText
import SengKernel.ShellScreen
import SengKernel.DemoCommands
import SengKernel.MemoryTest
import SengKernel.SyncRefinement
