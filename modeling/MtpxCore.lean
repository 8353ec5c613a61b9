import MtpxCore.LexPrefix
import MtpxCore.SortedTable
import MtpxCore.RelativePath
import MtpxCore.TransferErrors
import MtpxCore.SnapshotEntries
import MtpxCore.CaseFolding
import MtpxCore.PlanActions
import MtpxCore.PlannerModel
import MtpxCore.PlannerVerdicts
import MtpxCore.PlannerInvariant
import MtpxCore.PlannerSettled
import MtpxCore.PlannerOutcome
import MtpxCore.PlannerFailPass
import MtpxCore.PlannerReplay
import MtpxCore.PlannerExecutes
import MtpxCore.PlannerConverges
import MtpxCore.DeviceScan
import MtpxCore.DeviceTree
import MtpxCore.TransferNames
import MtpxCore.LocalScan
import MtpxCore.LocalFindings
import MtpxCore.SingleFileScan
import MtpxCore.SelfDelimiting
import MtpxCore.SidecarJson
import MtpxCore.CrashHoare
import MtpxCore.LocalFiles
import MtpxCore.TransferCells
import MtpxCore.TransferCalls
import MtpxCore.PartWriterModel
import MtpxCore.PartWriterSpecs
import MtpxCore.PartWriterPump
import MtpxCore.PartWriterEndings
import MtpxCore.PartWriterAtomic
import MtpxCore.PartWriterLeaves
import MtpxCore.PullRuns
import MtpxCore.PullOverwrites
import MtpxCore.PullHistories
import MtpxCore.PullSplices
import MtpxCore.DeviceRoots
import MtpxCore.ResolverModel
import MtpxCore.ResolverRecovery
import MtpxCore.DeviceKeys
import MtpxCore.ResolverWalks
import MtpxCore.ResolverRecovers
import MtpxCore.LocalPaths
import MtpxCore.DeviceLedger
import MtpxCore.DevicePick
import MtpxCore.DeviceRead
import MtpxCore.VolumeFolding
import MtpxCore.PlannerSpec
import MtpxCore.ExecutorModel
import MtpxCore.BlockTrace
import MtpxCore.ExecutorGrammar
import MtpxCore.ExecutorEvents
import MtpxCore.ExecutorAccounts
import MtpxCore.PartWriterMoves
import MtpxCore.InterruptedCopies
import MtpxCore.DeviceEndpoint
import MtpxCore.ResumedObjects
import MtpxCore.PlannerCounts
import MtpxCore.ShellWords
import MtpxCore.SuggestedCommands
import MtpxCore.CheckpointBounds
import MtpxCore.OverallBar
import MtpxCore.PartWriterGuards
import MtpxCore.LocalListing
import MtpxCore.ListingMoves
import MtpxCore.PullReplays
import MtpxCore.PullConverges
import MtpxCore.LocalHost
import MtpxCore.LossyChannel
import MtpxCore.TransferSession
import MtpxCore.SessionEvents
import MtpxCore.SessionEnds
import MtpxCore.DeviceChosen
import MtpxCore.TerminalText
import MtpxCore.TerminalLines
import MtpxCore.TerminalSession
import MtpxCore.PullMishaps
import MtpxCore.DeviceLs
import MtpxCore.ExitStatus
