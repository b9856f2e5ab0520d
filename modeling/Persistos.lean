import Persistos.KmemRuns
import Persistos.PageSupply
import Persistos.SlabObjects
import Persistos.MapRuns
import Persistos.Nvmepart
import Persistos.ExfatIo
import Persistos.RamfsLaws
import Persistos.RamfsStale
import Persistos.Scheduler
import Persistos.Resolve
import Persistos.ForkChild
import Persistos.ExecStart
import Persistos.Waitpid
import Persistos.Teardown
import Persistos.ForkRoom
import Persistos.HeapRuns
import Persistos.NvmeCommands
import Persistos.FileLedger
import Persistos.FileOffsets
import Persistos.NameCopies
import Persistos.RamfsTree
import Persistos.CreateResolve
import Persistos.NvmeIds
import Persistos.NvmeChecks
import Persistos.NvmeSubmissions
import Persistos.Tty
import Persistos.TtyEdits
import Persistos.TtyPage
import Persistos.TtyRepaint
import Persistos.NvmeWriters
import Persistos.NvmeProbe
import Persistos.ExfatDecode
import Persistos.ExfatFileMap
import Persistos.ExfatLoads
import Persistos.ExfatChains
import Persistos.ExfatDirLoads
import Persistos.ExfatNames
import Persistos.TtyMachine
import Persistos.TtyInput
import Persistos.TtyReads
import Persistos.Listings
import Persistos.Dup2
import Persistos.NvmeBytes
import Persistos.ShellAccepts
import Persistos.ShellExpand
import Persistos.ShellQuoting
import Persistos.ShellEditor
import Persistos.ShellKeys
import Persistos.SysfsReads
import Persistos.NvmeAddresses
import Persistos.NvmeErrors
import Persistos.NvmeHandler
import Persistos.GptProbe
import Persistos.TtyEvents
import Persistos.ElfLoader
import Persistos.ElfImages
import Persistos.ExecCall
import Persistos.TreeLoads
import Persistos.MkdirCalls
import Persistos.Tar
import Persistos.TarEntries
import Persistos.Theory.Budget
import Persistos.PageCosts
import Persistos.RamfsLinks
import Persistos.TreePlaces
import Persistos.TarExtract
import Persistos.RamFiles
import Persistos.UserCalls
import Persistos.UserFiles
import Persistos.UserBoot
import Persistos.Diff
import Persistos.ShellScript
import Persistos.UserWrites
import Persistos.Cat
import Persistos.HexDump
import Persistos.Hd
import Persistos.LoadedFiles
import Persistos.OpenTruncated
import Persistos.RedirectInfos
import Persistos.Descriptors
import Persistos.ShellRedirects
import Persistos.StringReads
import Persistos.Numerals
import Persistos.NumericArguments
import Persistos.SleepCall
import Persistos.ProcessEnds
import Persistos.MountTrees
import Persistos.MountCalls
import Persistos.Theory.TranslationCache
import Persistos.TableMoments
import Persistos.EmptiedSpaces
import Persistos.ElfAccesses
import Persistos.LowestFrames
import Persistos.ExecRoom
import Persistos.ExecTranslations
import Persistos.SpaceActions
import Persistos.Console
import Persistos.ExecPrograms
import Persistos.Fairness
import Persistos.ScreenLines
import Persistos.TypedSessions
import Persistos.ExfatTransfers
import Persistos.ExfatNewEntries
import Persistos.MountedVolumes
