import YuToolbox.KernelList
import YuToolbox.StepRuns
import YuToolbox.LazyRegex
import YuToolbox.LineReader
import YuToolbox.PrintingPrograms
import YuToolbox.PercentCoding
import YuToolbox.DigitGroups
import YuToolbox.TransitionRuns
import YuToolbox.InstancePool
import YuToolbox.AwkText
import YuToolbox.AwkInput
import YuToolbox.AwkSplit
import YuToolbox.XmlReader
import YuToolbox.XmlInsert
import YuToolbox.ByteBuffer
import YuToolbox.Paging
import YuToolbox.CombineExtract
import YuToolbox.CombineExtractFiles
import YuToolbox.CombineExtractSelection
import YuToolbox.CombineExtractHeader
import YuToolbox.CombineExtractRoundTrip
import YuToolbox.CombineExtractEnds
import YuToolbox.FilterAwk
import YuToolbox.FilterAwkOutput
import YuToolbox.CompareSnapshots
import YuToolbox.TaskFile
import YuToolbox.TaskFileXml
import YuToolbox.TaskFileRoundTrip
import YuToolbox.TaskFileFetch
import YuToolbox.TaskFileGlobals
import YuToolbox.TaskFileEnds
import YuToolbox.TaskFileJob
import YuToolbox.PageWalk
import YuToolbox.PageWalkContent
import YuToolbox.PageWalkHuge
import YuToolbox.PageWalkSafety
import YuToolbox.PageWalkTables
import YuToolbox.UserPage
import YuToolbox.Dict
import YuToolbox.DictElements
import YuToolbox.DictText
import YuToolbox.DictPath
import YuToolbox.DictTranslations
import YuToolbox.DictDocument
import YuToolbox.DictAnswer
import YuToolbox.DictQuery
import YuToolbox.StatTests
import YuToolbox.Netlink
import YuToolbox.NetlinkRoundTrip
import YuToolbox.NetlinkReferences
import YuToolbox.NetlinkReplies
import YuToolbox.NetlinkBounds
import YuToolbox.NetlinkSession
import YuToolbox.WaitQueue
import YuToolbox.SlabTest
import YuToolbox.SlabTestCalls
import YuToolbox.TaskList
import YuToolbox.ListFlags
import YuToolbox.WaitQueueThreads
import YuToolbox.BookmarkQueue
import YuToolbox.HungTask
import YuToolbox.Kretprobe
import YuToolbox.LivePatch
import YuToolbox.CpumaskSep
import YuToolbox.ParseTaint
import YuToolbox.CalibrateOptions
import YuToolbox.CalibrateLoad
import YuToolbox.CalibrateLoop
import YuToolbox.CalibrateRun
import YuToolbox.CalibrateSleep
import YuToolbox.CalibrateMatch
