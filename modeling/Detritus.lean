import Detritus.Parsing.Search
import Detritus.Flow.Regulator
import Detritus.Process.Program
import Detritus.Process.Pool
import Detritus.Process.Rely
import Detritus.Process.History
import Detritus.Process.Discipline
import Detritus.Process.Interleaving
import Detritus.Process.Solo
import Detritus.Process.Conduct
import Detritus.Process.Habits
import Detritus.Files.Path
import Detritus.Files.Disk
import Detritus.Files.Operations
import Detritus.Files.Region
import Detritus.Files.Guard
import Detritus.Files.Fault
import Detritus.Files.Tree
import Detritus.Protocol.Text
import Detritus.Protocol.Json
import Detritus.Protocol.JsonText
import Detritus.Protocol.Crash
import Detritus.Protocol.Otlp
import Detritus.Protocol.Multipart
import Detritus.Protocol.Envelope
import Detritus.Client.Event
import Detritus.Server.Storage
import Detritus.Server.Admission
import Detritus.Server.RateLimit
import Detritus.Server.World
import Detritus.Server.Crashes
import Detritus.Server.Logs
import Detritus.Server.Identity
import Detritus.Server.LogExport
import Detritus.Server.LogSystem
import Detritus.Server.LogSteps
import Detritus.Server.LogTasks
import Detritus.Server.LogWriters
import Detritus.Server.LogStore
import Detritus.Server.Confinement
import Detritus.Server.Janitor
import Detritus.Server.CrashSystem
import Detritus.Server.BlobStore
import Detritus.Server.BlobSteps
import Detritus.Server.Uploads
import Detritus.Server.UploadOutcome
import Detritus.Server.Cycles
import Detritus.Server.CrashStore
import Detritus.Server.Agreement
import Detritus.Server.Verdict
import Detritus.Server.UploadRun
import Detritus.Server.Grammar
import Detritus.Server.Reports
import Detritus.Server.Tenancy
import Detritus.Server.Expiry
import Detritus.Server.Schemas
import Detritus.Server.Truncation
import Detritus.Client.Compression
import Detritus.Server.Retention
import Detritus.Server.Rotation
import Detritus.Server.KeptLogs
import Detritus.Server.KeptLogRuns
import Detritus.Server.TempFiles
import Detritus.Client.World
import Detritus.Client.Capture
import Detritus.Client.Entry
import Detritus.Client.Manifest
import Detritus.Client.Shipping
import Detritus.Client.Spool
import Detritus.Client.SpoolEntries
import Detritus.Client.SpoolSteps
import Detritus.Client.SpoolRuns
import Detritus.Client.SpoolHooks
import Detritus.Client.SpoolSystem
import Detritus.Client.SentRetention
import Detritus.Client.Interrupted
import Detritus.Client.Worker
import Detritus.Client.Exports
import Detritus.Client.SharedQueue
import Detritus.Process.Leads
import Detritus.Client.QueueAccount
import Detritus.Client.Startup
import Detritus.Client.Restarts
import Detritus.Server.StoredParts
import Detritus.Server.Retries
import Detritus.Client.SpoolView
import Detritus.Client.Passes
import Detritus.Delivery.Acceptance
import Detritus.Delivery.Contents
import Detritus.Delivery.Blocked
import Detritus.Delivery.Captured
import Detritus.Delivery.Panics
import Detritus.Delivery.Records
