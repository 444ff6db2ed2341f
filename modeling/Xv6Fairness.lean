import Xv6Fairness.Parameters
import Xv6Fairness.SchedulerMachine
import Xv6Fairness.CpuOwnership
import Xv6Fairness.ProcessTree
import Xv6Fairness.KillTarget
import Xv6Fairness.SleepWakeup
import Xv6Fairness.Overtaking
import Xv6Fairness.SchedulerWaiting
import Xv6Fairness.ByteStrings
import Xv6Fairness.UserStrings
import Xv6Fairness.StatsFiles
import Xv6Fairness.ExperimentRound
import Xv6Fairness.LocalSteps
import Xv6Fairness.RoundStatistics
import Xv6Fairness.RoundMetrics
import Xv6Fairness.ThroughputNormalisation
import Xv6Fairness.RoundIsolation
import Xv6Fairness.PathNames
import Xv6Fairness.ByteBlocks
import Xv6Fairness.DiskLayout
import Xv6Fairness.LogCommit
import Xv6Fairness.LogProtocol
import Xv6Fairness.LinkedRing
import Xv6Fairness.BufferCache
import Xv6Fairness.DiskFormat
import Xv6Fairness.Ownership
import Xv6Fairness.FileBlocks
import Xv6Fairness.Outcomes
import Xv6Fairness.FileCalls
import Xv6Fairness.FileBytes
import Xv6Fairness.InodeCache
import Xv6Fairness.FileTree
import Xv6Fairness.LinkCounts
import Xv6Fairness.TreeCalls
import Xv6Fairness.DanglingEntries
import Xv6Fairness.TreeAccounts
import Xv6Fairness.JainIndex
import Xv6Fairness.PipeBytes
import Xv6Fairness.PipeSleepers
import Xv6Fairness.ShellParser
import Xv6Fairness.ShellGrammar
import Xv6Fairness.ShellCommands
import Xv6Fairness.CircularLists
import Xv6Fairness.HeapAllocator
import Xv6Fairness.HeapFree
import Xv6Fairness.HeapMalloc
import Xv6Fairness.HeapPrograms
import Xv6Fairness.DiskImage
import Xv6Fairness.ImageBlocks
import Xv6Fairness.ImageFiles
import Xv6Fairness.ImageDirectory
import Xv6Fairness.ImageReader
import Xv6Fairness.ImageConsistency
import Xv6Fairness.FileTable
import Xv6Fairness.FileReferences
import Xv6Fairness.FileBalance
import Xv6Fairness.GraphProgram
import Xv6Fairness.GraphDistances
import Xv6Fairness.GraphMemory
import Xv6Fairness.LineProgram
import Xv6Fairness.DirectoryEntries
import Xv6Fairness.PrintedMetrics
import Xv6Fairness.PageTables
import Xv6Fairness.GrowProcess
import Xv6Fairness.PathElements
import Xv6Fairness.PathLookup
import Xv6Fairness.OpenCall
import Xv6Fairness.WriteTransactions
import Xv6Fairness.PatternLanguages
import Xv6Fairness.PatternMatching
import Xv6Fairness.GrepLines
import Xv6Fairness.SyscallArguments
import Xv6Fairness.UserCopies
import Xv6Fairness.HeapRequests
import Xv6Fairness.ConsoleInput
import Xv6Fairness.DiskQueue
import Xv6Fairness.AddressSpaces
import Xv6Fairness.ForkProcess
import Xv6Fairness.ProgramImages
import Xv6Fairness.ProgramStacks
import Xv6Fairness.ExecProgram
import Xv6Fairness.RandomNumbers
import Xv6Fairness.ScaledRatio
import Xv6Fairness.CellCopies
import Xv6Fairness.MemoryMoves
import Xv6Fairness.ThreadPrograms
import Xv6Fairness.ExclusivePlaces
import Xv6Fairness.KernelThreads
import Xv6Fairness.PageViews
import Xv6Fairness.PageOwners
import Xv6Fairness.ThreadInvariant
import Xv6Fairness.RuleSoundness
import Xv6Fairness.SpaceSafety
import Xv6Fairness.CallSafety
import Xv6Fairness.ThreadSteps
import Xv6Fairness.MemoryIsolation
import Xv6Fairness.GroupCommits
import Xv6Fairness.DurableLog
import Xv6Fairness.ForkRuns
import Xv6Fairness.PrivateSpaces
import Xv6Fairness.ShellProcesses
import Xv6Fairness.ShellWiring
import Xv6Fairness.ShellRuns
import Xv6Fairness.SharedOffsets
import Xv6Fairness.RoundRobin
import Xv6Fairness.LockRuns
import Xv6Fairness.BootLoader
import Xv6Fairness.ConsoleScreen
import Xv6Fairness.PrintedFormats
import Xv6Fairness.BootMemory
import Xv6Fairness.EntryGuards
import Xv6Fairness.UserReach
import Xv6Fairness.ArgumentPassing
