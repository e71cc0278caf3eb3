import PaddleOs.Foundation.Outcome
import PaddleOs.Foundation.LittleEndian
import PaddleOs.Params
import PaddleOs.Bio
import PaddleOs.Log
import PaddleOs.CacheTracking
import PaddleOs.LogCrash
import PaddleOs.Foundation.Runs
import PaddleOs.LogGate
import PaddleOs.ProcTable
import PaddleOs.InodeRace
import PaddleOs.FsLayout
import PaddleOs.Inode
import PaddleOs.Directory
import PaddleOs.Vm
import PaddleOs.Kernel
import PaddleOs.Foundation.View
import PaddleOs.FsSkeleton
import PaddleOs.Foundation.Tally
import PaddleOs.RefCounts
import PaddleOs.Coherence
import PaddleOs.FsCoherence
import PaddleOs.PageBytes
import PaddleOs.PageLedger
import PaddleOs.PageTables
import PaddleOs.AddressSpace
import PaddleOs.Spaces
import PaddleOs.BufferRing
import PaddleOs.SleepWakeup
import PaddleOs.FsRecords
import PaddleOs.Mkfs
import PaddleOs.MkfsImage
import PaddleOs.MkfsAppend
import PaddleOs.MkfsFormat
import PaddleOs.MkfsLimits
import PaddleOs.FileReads
import PaddleOs.MkfsReadBack
import PaddleOs.BufferPressure
import PaddleOs.FsQuiet
import PaddleOs.FsSlots
import PaddleOs.InodeTable
import PaddleOs.FsVolume
import PaddleOs.FsBlocks
import PaddleOs.FreeBlocks
import PaddleOs.FsHandles
import PaddleOs.Entries
import PaddleOs.FsEntries
import PaddleOs.FsWalk
import PaddleOs.FsOps
import PaddleOs.FsCalls
import PaddleOs.Foundation.Monitor
import PaddleOs.SleepLock
import PaddleOs.Transactions
import PaddleOs.Pipes
import PaddleOs.PipeReads
import PaddleOs.GrowProc
import PaddleOs.Console
import PaddleOs.CopyOut
import PaddleOs.UserCopies
import PaddleOs.Mappings
import PaddleOs.Scheduler
import PaddleOs.Parents
import PaddleOs.InodeLocks
import PaddleOs.FsFiles
import PaddleOs.KernelVolume
import PaddleOs.KernelImages
import PaddleOs.FileContents
import PaddleOs.FsUndo
import PaddleOs.PathNames
import PaddleOs.Pids
import PaddleOs.SharedWrites
import PaddleOs.VirtioDisk
import PaddleOs.PageMaps
import PaddleOs.KernelSteps
import PaddleOs.ProcPages
import PaddleOs.Forks
import PaddleOs.UserReads
import PaddleOs.FileWrites
import PaddleOs.FailedCalls
import PaddleOs.Foundation.Overlay
import PaddleOs.UserImage
import PaddleOs.ExecLoad
import PaddleOs.ExecImage
import PaddleOs.ExecArgs
import PaddleOs.FirstProcess
import PaddleOs.InstalledPrograms
import PaddleOs.FailedExec
import PaddleOs.PassedArgs
import PaddleOs.ExecFile
import PaddleOs.MemMove
import PaddleOs.RegexMatch
import PaddleOs.Foundation.Lines
import PaddleOs.Grep
import PaddleOs.Foundation.CircularList
import PaddleOs.Foundation.Tiling
import PaddleOs.Malloc
import PaddleOs.MallocLayout
import PaddleOs.MallocFree
import PaddleOs.MallocSearch
import PaddleOs.MallocRuns
import PaddleOs.MallocBreak
import PaddleOs.PushOff
import PaddleOs.Foundation.Turns
import PaddleOs.Shell
import PaddleOs.ShellTokens
import PaddleOs.ShellGrammar
import PaddleOs.ShellParser
import PaddleOs.ShellDerivations
import PaddleOs.ContextSwitch
import PaddleOs.Foundation.Guarded
import PaddleOs.Foundation.Refinement
import PaddleOs.SpinLock
import PaddleOs.Trampoline
import PaddleOs.Uart
import PaddleOs.ShellRun
import PaddleOs.Printf
