import VirtualOS.PartialRuns
import VirtualOS.AccessLogs
import VirtualOS.LinkedStacks
import VirtualOS.PageWalk
import VirtualOS.FilesystemImage
import VirtualOS.ImageFetches
import VirtualOS.NameLookup
import VirtualOS.KernelState
import VirtualOS.ScreenOutput
import VirtualOS.KeyboardTerminal
import VirtualOS.DeviceCalls
import VirtualOS.DescriptorCalls
import VirtualOS.ProcessCalls
import VirtualOS.KernelOperations
import VirtualOS.ProcessMoves
import VirtualOS.OperationMoves
import VirtualOS.ProcessForest
import VirtualOS.ProcessInvariants
import VirtualOS.ChildBracket
import VirtualOS.ExitStatus
import VirtualOS.FreshDescriptors
import VirtualOS.ClosedDescriptors
import VirtualOS.FileReads
import VirtualOS.DirectoryReads
import VirtualOS.StandaloneConsole
import VirtualOS.ConsoleIndependence
import VirtualOS.CursorBounds
import VirtualOS.KeyBuffer
import VirtualOS.KeyBufferBounds
import VirtualOS.LineCounter
import VirtualOS.LineDiscipline
import VirtualOS.ModifierKeys
import VirtualOS.InterruptMasks
import VirtualOS.PageMoves
import VirtualOS.AddressTranslation
import VirtualOS.VidmapDisplay
import VirtualOS.PointerArguments
import VirtualOS.PreemptiveModel
import VirtualOS.UninterruptedThreads
import VirtualOS.PreemptionInvariant
import VirtualOS.PreemptionSteps
import VirtualOS.PreemptionSafety
import VirtualOS.CommandParser
import VirtualOS.CommandArguments
import VirtualOS.ProgramStores
import VirtualOS.ProgramLoading
import VirtualOS.KernelStores
import VirtualOS.FailedExecute
import VirtualOS.SparingProcesses
import VirtualOS.SlotIndices
import VirtualOS.PendingInput
import VirtualOS.RtcRates
import VirtualOS.StoredArguments
import VirtualOS.DescriptorFrames
import VirtualOS.OpenedTypes
import VirtualOS.FilePositions
import VirtualOS.SparingFiles
import VirtualOS.TextPages
import VirtualOS.TextLayout
import VirtualOS.EchoErase
import VirtualOS.StructLayouts
import VirtualOS.BackgroundPage
import VirtualOS.MemorySlices
import VirtualOS.GrepProgram
import VirtualOS.GrepLines
import VirtualOS.GrepReports
import VirtualOS.NumberStrings
import VirtualOS.PrintfFormats
import VirtualOS.UserNumerals
import VirtualOS.StringAssembly
import VirtualOS.BlockTransfers
import VirtualOS.BlinkList
import VirtualOS.BlinkRefinement
import VirtualOS.BlinkSafety
import VirtualOS.BlinkWaves
import VirtualOS.FishFrames
import VirtualOS.SchedulerModel
import VirtualOS.RoundRobin
import VirtualOS.StackAssembly
import VirtualOS.StackFrames
import VirtualOS.StackSwitches
import VirtualOS.KernelEntries
import VirtualOS.SystemCallPath
import VirtualOS.InterruptPath
import VirtualOS.ProcessSwitch
import VirtualOS.PreemptedProcesses
import VirtualOS.CallingPrograms
import VirtualOS.ProcessService
import VirtualOS.CommandRuns
import VirtualOS.FilePrograms
