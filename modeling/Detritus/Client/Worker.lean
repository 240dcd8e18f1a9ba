import Mathlib.Algebra.Order.Ring.Rat
import Detritus.Client.Event
import Detritus.Client.Shipping

/-! The log exporter.

A worker takes records from a channel into a batch and exports the batch when it is full,
when it is asked to flush, at each tick, and when the channel is closed. A batch that is
not acknowledged is written to a file of the queue directory. What earlier workers left
there is exported first, before any message is taken; a file is removed once the request
in it was acknowledged. -/
namespace Detritus.Client
open Files Protocol Process

/-- What is taken from other crates. -/
structure ExportCrates where
  /-- `Message::encode` of a request; into a `Vec` it cannot fail. -/
  encode : ExportLogsServiceRequest → Bytes
  decode : Bytes → Except IoError ExportLogsServiceRequest
  /-- `io::Error` as a text -/
  ioText : IoError → String
  /-- The double that is nearest to a number. -/
  round : ℚ → ℚ

/-- What a worker is started with. -/
structure Worker where
  source : SourceId
  batchSize : Nat
  queueDir : Path
  /-- Not there for the one that is not a number. -/
  sampleRate : Option ℚ

/-- The records of one source in one request. -/
def exportRequestFor (source : SourceId) (records : List LogRecord) : ExportLogsServiceRequest :=
  ⟨[⟨some ⟨[stringAttr "source.project" source.project, stringAttr "source.platform" source.platform,
      stringAttr "source.version" source.version, stringAttr "source.install_id" source.installId.toString]⟩,
    [⟨some ⟨"detritus-client", []⟩, records⟩]⟩]⟩

/-- All records of a request. -/
def requestRecords (request : ExportLogsServiceRequest) : List LogRecord :=
  request.resourceLogs.flatMap ResourceLogs.records

@[simp] theorem requestRecords_exportRequestFor (source : SourceId) (records : List LogRecord) :
    requestRecords (exportRequestFor source records) = records := by
  simp [requestRecords, exportRequestFor, ResourceLogs.records]

section Spool
variable (P : ExportCrates)

/-- The file of a batch. -/
def logPath (dir : Path) (u : Uuid) : Path := dir.join ("log-" ++ u.toString ++ ".protobuf")

/-- A batch is written to a file of its own. -/
def writeLogBatch (dir : Path) (request : ExportLogsServiceRequest) : Action IoError Path := do
  file id (.createDirAll dir)
  let u : Uuid ← call .newUuid
  writeFile (logPath dir u) (P.encode request)
  return logPath dir u

/-- A batch read back. -/
def readLogBatch (path : Path) : Action IoError ExportLogsServiceRequest := do
  let bytes : Bytes ← file id (.read path)
  liftExcept (P.decode bytes)

/-- Batches are told by their extension. -/
def isLogBatch (path : Path) : Bool := path.fileName.bind Path.extension = some "protobuf"

/-- The batches in a directory, sorted. A directory that is not there has none. -/
def pendingLogBatches (dir : Path) : Action IoError (List Path) := do
  let listing : Except IoError (List (Path × Bool)) ← attempt (.readDir dir)
  match listing with
  | .ok entries => return ((entries.map Prod.fst).filter isLogBatch).mergeSort
  | .error .notFound => return []
  | .error e => throw e

end Spool

namespace Worker
variable (P : ExportCrates) (W : Worker)

/-- Records are kept or not by the digits of their time. -/
def shouldSample (record : LogRecord) : Bool :=
  match W.sampleRate with
  | none => false
  | some rate =>
    if 1 ≤ rate then true
    else if rate ≤ 0 then false
    else P.round ((record.timeUnixNano % 10000).toNat / 10000) < rate

/-- The request in a file; the file goes when the request was acknowledged. -/
def replay (path : Path) : Program clientInterface Unit := do
  let request : Except IoError ExportLogsServiceRequest ← (readLogBatch P path).run
  match request with
  | .error _ => return ()
  | .ok request => do
    let outcome : ExportOutcome ← Program.perform (S := clientInterface) (.exportLogs request)
    match outcome with
    | .acknowledged => do
      let _ : Except IoError Unit ← Program.perform (S := clientInterface) (.file (.removeFile path))
      return ()
    | _ => return ()

/-- Each batch is sent again. One that fails stays. -/
def replayAll : List Path → Program clientInterface Unit
  | [] => return ()
  | path :: rest => do
    replay P path
    replayAll rest

/-- Without the lock, or a listing, nothing is replayed. -/
def drainSpooled : Program clientInterface Unit := do
  let _ : Except IoError Unit ← (do
    acquire id W.queueDir
    guarded W.queueDir do
      let paths ← pendingLogBatches W.queueDir
      ExceptT.lift (replayAll P paths) : Action IoError Unit).run
  return ()

/-- A request that was not acknowledged becomes a file. -/
def spoolRecords (request : ExportLogsServiceRequest) (error : String) : Action LayerError Unit := do
  let _ ← ExceptT.adapt (fun io => LayerError.flush (P.ioText io)) (writeLogBatch P W.queueDir request)
  throw (.flush error)

/-- A request that fails is written to the queue. -/
def exportRecords (records : List LogRecord) : Action LayerError Unit :=
  if records.isEmpty then return ()
  else do
    let request := exportRequestFor W.source records
    let outcome : ExportOutcome ← call (.exportLogs request)
    match outcome with
    | .acknowledged => return ()
    | .status text => spoolRecords P W request text
    | .timedOut => spoolRecords P W request "flush timed out"

/-- Nobody is told of an error. -/
def exportOrSpool (records : List LogRecord) : Program clientInterface Unit := do
  let _ : Except LayerError Unit ← (exportRecords P W records).run
  return ()

/-- One turn of the loop, with the batch so far. -/
def turn (batch : List LogRecord) : Program clientInterface (List LogRecord ⊕ Unit) := do
  let input : Input ← Program.perform (S := clientInterface) .next
  match input with
  | .closed => do
    exportOrSpool P W batch
    return .inr ()
  | .record record =>
    let batch := if W.shouldSample P record then batch ++ [record] else batch
    if W.batchSize ≤ batch.length then do
      exportOrSpool P W batch
      return .inl []
    else return .inl batch
  | .flush => do
    let result : Except LayerError Unit ← (exportRecords P W batch).run
    let _ : Unit ← Program.perform (S := clientInterface) (.reply result)
    return .inl []
  | .tick => do
    exportOrSpool P W batch
    return .inl []

/-- `Worker::run` -/
def run : Task clientInterface Unit where
  Var := List LogRecord
  init := do
    drainSpooled P W
    return .inl []
  body := turn P W

end Worker

end Detritus.Client
