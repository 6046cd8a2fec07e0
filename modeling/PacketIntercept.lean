import PacketIntercept.ByteMemory
import PacketIntercept.CyclicSlots
import PacketIntercept.Runs
import PacketIntercept.Common
import PacketIntercept.LogBuffs
import PacketIntercept.RxHandler
import PacketIntercept.ReadProc
import PacketIntercept.TrackedCache
import PacketIntercept.HandOver
import PacketIntercept.CopiedRecords
import PacketIntercept.PacketAccounts
import PacketIntercept.ConcurrentHandlers
import PacketIntercept.CacheQueue
import PacketIntercept.Client
import PacketIntercept.PayloadIntegrity
import PacketIntercept.CheckedLoads
import PacketIntercept.ArrayMaps
import PacketIntercept.ParsingHelpers
import PacketIntercept.XdpSockProg
import PacketIntercept.FrameGrammar
import PacketIntercept.HeaderChain
import PacketIntercept.RewriteHelpers
import PacketIntercept.VlanStack
import PacketIntercept.Nlattr
import PacketIntercept.ClientFrame
import PacketIntercept.PayloadCursor
import PacketIntercept.KernelMaps
import PacketIntercept.EbpfMeasure
import PacketIntercept.EbpfPipeline
import PacketIntercept.EbpfCompleteness
import PacketIntercept.Comparison
import PacketIntercept.CacheContents
import PacketIntercept.UserProcessing
import PacketIntercept.CausalOrder
import PacketIntercept.Delivery
import PacketIntercept.EventualLogging
import PacketIntercept.BacklogBound
import PacketIntercept.ClientRun
import PacketIntercept.EbpfRun
import PacketIntercept.EndAroundCarry
import PacketIntercept.Csum
import PacketIntercept.HandlerReads
import PacketIntercept.ReadContract
import PacketIntercept.RecordDecoder
import PacketIntercept.Server
import PacketIntercept.KmMachine
import PacketIntercept.EbpfMachine
import PacketIntercept.UnrecordedUids
import PacketIntercept.BlockGrids
import PacketIntercept.TwoLevelLog
import PacketIntercept.ResourceLedger
import PacketIntercept.ModuleLifecycle
import PacketIntercept.RxRegistration
import PacketIntercept.DecimalText
import PacketIntercept.KmLogFile
import PacketIntercept.Params
import PacketIntercept.LoaderLifecycle
import PacketIntercept.NetlinkDump
import PacketIntercept.RaisedErrors
import PacketIntercept.TrueDivision
import PacketIntercept.FloatArithmetic
import PacketIntercept.OrderStatistics
import PacketIntercept.Histograms
import PacketIntercept.MedianLoop
import PacketIntercept.HistogramStatistics
import PacketIntercept.DiffCollection
import PacketIntercept.ZeroCounts
import PacketIntercept.DiffStatistics
import PacketIntercept.Experiment
import PacketIntercept.CombinedAnalysis
import PacketIntercept.HalfOpenBins
import PacketIntercept.LatencyBars
import PacketIntercept.StatisticsStage
import PacketIntercept.PacketLoss
