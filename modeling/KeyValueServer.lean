import KeyValueServer.Concurrency.Run
import KeyValueServer.Concurrency.SharedMutex
import KeyValueServer.Concurrency.Linearizability
import KeyValueServer.RapidJson
import KeyValueServer.StdString
import KeyValueServer.DataEngine
import KeyValueServer.DataSerializer
import KeyValueServer.EngineThreads
import KeyValueServer.WriterExclusion
import KeyValueServer.Concurrency.Counting
import KeyValueServer.EngineStatistics
import KeyValueServer.RecordHistory
import KeyValueServer.EngineLinearizable
import KeyValueServer.EngineHistory
import KeyValueServer.BackgroundWorker
import KeyValueServer.EngineAlone
import KeyValueServer.JsonText
import KeyValueServer.Snapshot
import KeyValueServer.SetAllocations
import KeyValueServer.FailedLoad
import KeyValueServer.CrashConsistency
import KeyValueServer.HttpServer
import KeyValueServer.HttpHistory
import KeyValueServer.Concurrency.Reordering
import KeyValueServer.RequestOrder
import KeyValueServer.Sessions
import KeyValueServer.Text.FormEncoding
import KeyValueServer.Text.Utf8
import KeyValueServer.UrlDecode
import KeyValueServer.Client
import KeyValueServer.RequestBody
import KeyValueServer.LoadAndStore
import KeyValueServer.SaveReport
import KeyValueServer.WorkerShutdown
import KeyValueServer.MainProgram
import KeyValueServer.ReplyEncoding
import KeyValueServer.ErrorReplies
import KeyValueServer.UrlDecodeProgress
import KeyValueServer.Concurrency.Batches
import KeyValueServer.WorkerLoop
import KeyValueServer.TimedProgram
import KeyValueServer.Concurrency.Timer
import KeyValueServer.PrintedStatistics
import KeyValueServer.SaveTimes
import KeyValueServer.Staleness
import KeyValueServer.Concurrency.AtomicObject
import KeyValueServer.FinishedEngine
import KeyValueServer.ServerReplies
import KeyValueServer.HttpSessions
import KeyValueServer.Concurrency.Progress
import KeyValueServer.EngineProgress
import KeyValueServer.ProgramEnds
import KeyValueServer.Crow.Router
import KeyValueServer.Crow.RouterRules
import KeyValueServer.ServerRouting
import KeyValueServer.Crow.Connection
import KeyValueServer.Crow.ConnectionRules
import KeyValueServer.Crow.Conversation
import KeyValueServer.Crow.SanitizeFilename
import KeyValueServer.ServerConnections
