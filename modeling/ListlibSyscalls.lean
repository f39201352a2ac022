import ListlibSyscalls.StepRuns
import ListlibSyscalls.LinkedChain
import ListlibSyscalls.CountedRefs
import ListlibSyscalls.PoolHistory
import ListlibSyscalls.PoolSplice
import ListlibSyscalls.PoolMoves
import ListlibSyscalls.PoolInvariant
import ListlibSyscalls.PoolReached
import ListlibSyscalls.PoolIndexSafety
import ListlibSyscalls.PoolCursor
import ListlibSyscalls.PoolOwnership
import ListlibSyscalls.PoolAccounting
import ListlibSyscalls.PoolShape
import ListlibSyscalls.DescriptorTable
import ListlibSyscalls.FilterSieve
import ListlibSyscalls.SieveMachine
import ListlibSyscalls.SieveInvariant
import ListlibSyscalls.SievePreserved
import ListlibSyscalls.SieveOutput
import ListlibSyscalls.SieveProgress
import ListlibSyscalls.SieveDescriptors
import ListlibSyscalls.ProcTable
import ListlibSyscalls.TraceMask
import ListlibSyscalls.SyscallDispatch
import ListlibSyscalls.SyscallTrace
import ListlibSyscalls.PoolContents
import ListlibSyscalls.PoolInsertions
import ListlibSyscalls.PoolTraversal
import ListlibSyscalls.PipeMachine
import ListlibSyscalls.PipeRecords
import ListlibSyscalls.SievePipes
import ListlibSyscalls.ChildLoops
import ListlibSyscalls.ProcessCounters
import ListlibSyscalls.ThreadCounters
import ListlibSyscalls.FindMachine
import ListlibSyscalls.FindPaths
import ListlibSyscalls.FindTree
import ListlibSyscalls.FindOutput
import ListlibSyscalls.FindDescriptors
import ListlibSyscalls.PoolConcatenation
import ListlibSyscalls.PoolNotes
import ListlibSyscalls.PoolRefusals
import ListlibSyscalls.PoolSlots
import ListlibSyscalls.PoolReadback
import ListlibSyscalls.FindSteps
import ListlibSyscalls.FindTermination
import ListlibSyscalls.FindDepth
import ListlibSyscalls.TraceProgram
import ListlibSyscalls.CrashRecovery
import ListlibSyscalls.LogMachine
import ListlibSyscalls.LogInvariant
import ListlibSyscalls.LogCommit
import ListlibSyscalls.LogRecovery
import ListlibSyscalls.AllocMachine
import ListlibSyscalls.AllocPaths
import ListlibSyscalls.AllocRing
import ListlibSyscalls.AllocInvariant
import ListlibSyscalls.AllocRuns
import ListlibSyscalls.ShellMachine
import ListlibSyscalls.ShellProgress
import ListlibSyscalls.ShellRender
import ListlibSyscalls.ShellRoundTrip
import ListlibSyscalls.ShellStrings
import ListlibSyscalls.ShellRun
import ListlibSyscalls.LinkedRing
import ListlibSyscalls.BufMachine
import ListlibSyscalls.BufInvariant
import ListlibSyscalls.BufCoherence
import ListlibSyscalls.BufReplacement
import ListlibSyscalls.FileMachine
import ListlibSyscalls.FileInvariant
import ListlibSyscalls.FileSteps
import ListlibSyscalls.WordLanguages
import ListlibSyscalls.GrepMatcher
import ListlibSyscalls.GrepStream
import ListlibSyscalls.ConsoleInput
import ListlibSyscalls.PathLookup
import ListlibSyscalls.PrintedNumbers
import ListlibSyscalls.PageAllocator
