import SyscallReplayer.CInt
import SyscallReplayer.SysCallKind
import SyscallReplayer.TransitionSystem
import SyscallReplayer.RangeJoin
import SyscallReplayer.Scheduler
import SyscallReplayer.SchedulerSteps
import SyscallReplayer.ReaderProgress
import SyscallReplayer.SchedulerRuns
import SyscallReplayer.RecordConservation
import SyscallReplayer.ThreadOrder
import SyscallReplayer.QueueAccounting
import SyscallReplayer.SingleThreadReplay
import SyscallReplayer.ExecutedOnce
import SyscallReplayer.LoadedReplay
import SyscallReplayer.RunningTable
import SyscallReplayer.HappensBefore
import SyscallReplayer.Admission
import SyscallReplayer.SharedEntries
import SyscallReplayer.ReplayKernel
import SyscallReplayer.VirtualAddressSpace
import SyscallReplayer.ResourcesManager
import SyscallReplayer.ReplayWorld
import SyscallReplayer.ReplayModules
import SyscallReplayer.TableOperations
import SyscallReplayer.SnapshotFidelity
import SyscallReplayer.SimulatedDescriptors
import SyscallReplayer.ReplayRuns
import SyscallReplayer.ModuleEffects
import SyscallReplayer.MappedDescriptors
import SyscallReplayer.Isolation
import SyscallReplayer.DescriptorLeaks
import SyscallReplayer.ResourceSteps
import SyscallReplayer.TracedFailures
import SyscallReplayer.SharingGroups
import SyscallReplayer.GroupedTables
import SyscallReplayer.ReferenceCounts
import SyscallReplayer.AddressTranslation
import SyscallReplayer.MappingRuns
import SyscallReplayer.CallFraming
import SyscallReplayer.EffectiveModes
import SyscallReplayer.IssuedCalls
import SyscallReplayer.DescribedCalls
import SyscallReplayer.UniqueMappings
import SyscallReplayer.BatchReading
import SyscallReplayer.RowDecoding
import SyscallReplayer.TracedKernel
import SyscallReplayer.SuccessfulRecords
import SyscallReplayer.DescriptorSimulation
import SyscallReplayer.ExecveClosing
import SyscallReplayer.DuplicatedFiles
import SyscallReplayer.SimulatedDuplicates
import SyscallReplayer.InvalidDescriptor
import SyscallReplayer.AdmissionTest
import SyscallReplayer.MismatchVerdict
import SyscallReplayer.ConsistencyScan
import SyscallReplayer.ByteBuffers
import SyscallReplayer.WriteBuffers
import SyscallReplayer.ReadVerification
import SyscallReplayer.DirentVerification
import SyscallReplayer.WhileLoops
import SyscallReplayer.UnusedDescriptor
import SyscallReplayer.RandomFill
import SyscallReplayer.PointerVectors
import SyscallReplayer.AreaNodes
import SyscallReplayer.OverlapPartition
import SyscallReplayer.SystemRefinement
import SyscallReplayer.CopyReclamation
import SyscallReplayer.ObjectHeap
import SyscallReplayer.CopyPointers
import SyscallReplayer.PointerSteps
import SyscallReplayer.CopyOwnership
import SyscallReplayer.PointerSafety
import SyscallReplayer.PointerRefinement
import SyscallReplayer.Lookahead
import SyscallReplayer.ReadAhead
import SyscallReplayer.InterleavedReplay
import SyscallReplayer.StateFrames
import SyscallReplayer.ModuleFrames
import SyscallReplayer.AddressSpaces
import SyscallReplayer.FairRuns
import SyscallReplayer.DanglingComparison
import SyscallReplayer.ReplayMeasure
import SyscallReplayer.ReplayTermination
import SyscallReplayer.FileReplay
import SyscallReplayer.Completion
import SyscallReplayer.EndlessRuns
import SyscallReplayer.FileOutcome
import SyscallReplayer.Livelock
import SyscallReplayer.OptionEffects
import SyscallReplayer.UntouchedEntries
import SyscallReplayer.OwnDescriptors
