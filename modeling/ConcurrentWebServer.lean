import ConcurrentWebServer.SmallestFirst
import ConcurrentWebServer.BufferConcurrency
import ConcurrentWebServer.TrueSizes
import ConcurrentWebServer.HeaderDrain
import ConcurrentWebServer.RequestIsolation
import ConcurrentWebServer.PathConfinement
import ConcurrentWebServer.ConnectionFailure
import ConcurrentWebServer.ServedFiles
import ConcurrentWebServer.ArrayBounds
import ConcurrentWebServer.ConnectionOwnership
import ConcurrentWebServer.SequentialRefinement
import ConcurrentWebServer.ChildReaping
import ConcurrentWebServer.StreamEnds
import ConcurrentWebServer.ProcessRefinement
import ConcurrentWebServer.Workload
import ConcurrentWebServer.LoadPhase
import ConcurrentWebServer.UriQueries
import ConcurrentWebServer.FileTypes
import ConcurrentWebServer.IndexRange
import ConcurrentWebServer.LatencyPercentiles
import ConcurrentWebServer.DispatchRate
import ConcurrentWebServer.ReplyDecoding
import ConcurrentWebServer.HeadFraming
import ConcurrentWebServer.EffectSize
import ConcurrentWebServer.LineReading
import ConcurrentWebServer.CompactionRounds
import ConcurrentWebServer.ServiceOrder
import ConcurrentWebServer.TrialRuns
import ConcurrentWebServer.DropInServer
import ConcurrentWebServer.AnalysisSummary
import ConcurrentWebServer.ClientPrint
