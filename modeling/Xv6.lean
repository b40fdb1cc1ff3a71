import Xv6.Machine
import Xv6.Param
import Xv6.PetersonCell
import Xv6.PetersonLock
import Xv6.PetersonConfinement
import Xv6.PetersonSim
import Xv6.PetersonUse
import Xv6.PetersonExclusion
import Xv6.PetersonDestroy
import Xv6.AtomicObject
import Xv6.LockTable
import Xv6.Tournament
import Xv6.TournamentTree
import Xv6.TournamentCreate
import Xv6.TournamentRun
import Xv6.TournamentExclusion
import Xv6.TournamentLocks
import Xv6.TournamentOwn
import Xv6.Ring
import Xv6.BufferCache
import Xv6.BufferCoherence
import Xv6.BufferSteps
import Xv6.RedoLog
import Xv6.Log
import Xv6.LogPhase
import Xv6.LogOps
import Xv6.LogCommit
import Xv6.LogStep
import Xv6.LogRecovery
import Xv6.LogCrash
import Xv6.GroupCommit
import Xv6.LogCapacity
import Xv6.BlockStore
import Xv6.Proc
import Xv6.ProcSteps
import Xv6.ProcControl
import Xv6.ProcClean
import Xv6.ProcFamily
import Xv6.ExitWait
import Xv6.SleepWakeup
import Xv6.LostWakeup
import Xv6.Vm
import Xv6.VmSpec
import Xv6.VmHeld
import Xv6.UserMemory
import Xv6.UserSpace
import Xv6.PipeFiles
import Xv6.PageAccount
import Xv6.Holdings
import Xv6.InodeBlocks
import Xv6.BlockSpec
import Xv6.BlockOwnership
import Xv6.Scheduler
import Xv6.SchedulerFrame
import Xv6.OneCpu
import Xv6.RoundRobin
import Xv6.Interrupts
import Xv6.PageWords
import Xv6.PageMap
import Xv6.UserData
import Xv6.CopyOut
import Xv6.UserCopy
import Xv6.DataSpec
import Xv6.AddressSpace
import Xv6.ForkCopy
import Xv6.ExecFile
import Xv6.ExecLoad
import Xv6.ExecArgs
import Xv6.ExecAtomic
import Xv6.RingIndex
import Xv6.VirtioDisk
import Xv6.VirtioInvariant
import Xv6.VirtioDriver
import Xv6.VirtioProtocol
import Xv6.InodeTable
import Xv6.InodeSteps
import Xv6.InodeCoherence
import Xv6.FileSystem
import Xv6.FileCalls
import Xv6.InodeRefs
import Xv6.PathWalk
import Xv6.PathLookup
import Xv6.FileRefs
import Xv6.TableLimits
import Xv6.TournamentRollback
import Xv6.PipeRing
import Xv6.PipeSleep
import Xv6.PipeRead
import Xv6.Console
import Xv6.ConsoleLines
import Xv6.LittleEndian
import Xv6.DiskFormat
import Xv6.FileBytes
import Xv6.WriteLog
import Xv6.FileView
import Xv6.FileContents
import Xv6.FileWrite
import Xv6.FileEffects
import Xv6.SlotTable
import Xv6.DirBytes
import Xv6.DirMap
import Xv6.ShellParser
import Xv6.ShellTokens
import Xv6.ShellGrammar
import Xv6.LinkedRing
import Xv6.Malloc
import Xv6.MallocHeap
import Xv6.MallocRun
import Xv6.MallocBreak
import Xv6.MemMove
import Xv6.Grep
import Xv6.GrepLines
import Xv6.Monitor
import Xv6.SleepLock
import Xv6.Ticks
import Xv6.Uart
import Xv6.UserTrap
import Xv6.AtomicSleep
import Xv6.FileTables
