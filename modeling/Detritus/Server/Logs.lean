import Detritus.Protocol.Crash
import Detritus.Protocol.Otlp
import Detritus.Server.World

/-! The log endpoint.

A request is a list of entries, each with the attributes of its source and with records.
All entries are checked against the project's schema first. Then each is admitted and its
records are sent to the writer of its source, entry by entry and record by record. A
writer appends what it receives to the file of the day. -/
namespace Detritus.Server
open Files Protocol Process

/-- `version` is the metadata `x-protocol-version`, if there is one, as text, if it is text;
`token` is what the authentication left with the request. -/
structure LogsRequest where
  version : Option (Option String)
  token : Option TokenContext
  resourceLogs : List ResourceLogs

/-- What the log endpoint is configured with. -/
structure LogsHandler where
  rateLimit : RateLimitConfig
  schemaRegistry : SchemaRegistry

/-! ### Checks -/

/-- A sign is allowed, an overflow is not. -/
def parseU32 (s : String) : Option UInt32 :=
  let digits := match s.toList with
    | '+' :: rest => rest
    | l => l
  if digits ≠ [] ∧ digits.all Char.isDigit ∧ Nat.ofDigitChars 10 digits 0 < 2 ^ 32 then
    some (Nat.ofDigitChars 10 digits 0).toUInt32
  else none

/-- The client has to speak the version of the server. -/
def validateProtocolMetadata : Option (Option String) → Except Status Unit
  | none => .error ⟨.failedPrecondition, "missing x-protocol-version metadata"⟩
  | some none => .error ⟨.failedPrecondition, "x-protocol-version metadata is not UTF-8"⟩
  | some (some version) => match parseU32 version with
    | none => .error ⟨.failedPrecondition, "x-protocol-version metadata is not a u32"⟩
    | some parsed =>
      if parsed = PROTOCOL_VERSION then .ok ()
      else .error ⟨.failedPrecondition, "protocol version " ++ toString parsed.toNat ++ " does not match " ++
        toString PROTOCOL_VERSION.toNat⟩

/-- Without a token the request was not authenticated. -/
def tokenFromExtensions : Option TokenContext → Except Status TokenContext
  | none => .error ⟨.unauthenticated, "missing token context"⟩
  | some token => .ok token

/-- Whether a string can be cut at a byte. -/
def isCharBoundary (bytes : Bytes) (n : Nat) : Bool :=
  n = 0 || n = bytes.length || (bytes[n]?.any fun b => b &&& 0xc0 ≠ 0x80)

/-- The last place at or before `n` where a string can be cut. -/
def charBoundary (bytes : Bytes) : Nat → Nat
  | 0 => 0
  | n + 1 => if isCharBoundary bytes (n + 1) then n + 1 else charBoundary bytes n

/-- At most 1024 bytes, cut between two characters. -/
def truncateMessage (message : String) : String :=
  let bytes := utf8 message
  if 1024 < bytes.length then (ofUtf8 (bytes.take (charBoundary bytes 1021))).getD "" ++ "…" else message

/-- The first five errors. -/
def validationMessage (errors : List String) : String :=
  truncateMessage ("log attribute validation failed: " ++ ", ".intercalate (errors.take 5))

/-- Every entry has to match the schema of the project, the first that does not ends the request. -/
def validateEntries (h : LogsHandler) (token : TokenContext) : List ResourceLogs → Handler Status Unit
  | [] => return ()
  | entry :: rest =>
    match h.schemaRegistry.validate token.project .logAttributes (resourceLogsToValidationValue entry) with
    | .ok () => validateEntries h token rest
    | .error (.validation _ errors) => do
      call (.observe (.validationFailure .logs))
      throw ⟨.invalidArgument, validationMessage errors⟩
    | .error _ => do
      call (.report "schema registry internal error")
      throw ⟨.internal, "schema validation internal error"⟩

def StorageError.message : StorageError → String
  | invalidComponent name value => "invalid storage path component `" ++ name ++ "`: `" ++ value ++ "`"
  | io _ => "storage I/O error"

/-- All four attributes are required, though two are enough for a source. -/
def sourceFromResourceLogs (r : ResourceLogs) : Except Status SourceKey :=
  match r.resource with
  | none => .error ⟨.invalidArgument, "resource_logs.resource is required"⟩
  | some resource => do
    let project ← requiredAttr resource.attributes "source.project"
    let _platform ← requiredAttr resource.attributes "source.platform"
    let _version ← requiredAttr resource.attributes "source.version"
    let installId ← requiredAttr resource.attributes "source.install_id"
    (SourceKey.new project installId).mapError fun error =>
      ⟨.invalidArgument, "invalid source identity: " ++ error.message⟩

/-- The source of an entry that the token may write. -/
def admitEntry (token : TokenContext) (r : ResourceLogs) : Except Status SourceKey := do
  let source ← sourceFromResourceLogs r
  if token.permits source then .ok source
  else .error ⟨.permissionDenied, "token is not permitted to write this source"⟩

/-- A source that is admitted has been checked, and is the one that the entry names. -/
theorem admitEntry_ok {token : TokenContext} {r : ResourceLogs} {source : SourceKey} (h : admitEntry token r = .ok source) :
    sourceFromResourceLogs r = .ok source ∧ source.Valid ∧ token.permits source = true := by
  obtain ⟨k, hk, h⟩ := of_bind_ok h
  split at h
  · next hp =>
    obtain rfl := Except.ok.inj h
    refine ⟨hk, ?_, hp⟩
    unfold sourceFromResourceLogs at hk
    split at hk
    · cases hk
    · obtain ⟨project, -, hk⟩ := of_bind_ok hk
      obtain ⟨_, -, hk⟩ := of_bind_ok hk
      obtain ⟨_, -, hk⟩ := of_bind_ok hk
      obtain ⟨installId, -, hk⟩ := of_bind_ok hk
      cases hn : SourceKey.new project installId with
      | error e => rw [hn] at hk; cases hk
      | ok s =>
        rw [hn] at hk
        obtain rfl := Except.ok.inj hk
        exact (SourceKey.new_ok hn).2
  · cases h

/-! ### Sending -/

/-- Sends records until one is refused: the error of the one that was. -/
def sendRecords (source : SourceKey) (sender : Nat) : List LogRecord → Handler Status (Except Status Unit)
  | [] => return .ok ()
  | record :: rest => do
    let sent : Except SendError Unit ← call (.trySend sender (logRecordJson record))
    match sent with
    | .error _ => return .error ⟨.resourceExhausted, "log writer queue is full"⟩
    | .ok () =>
      let capacity : Nat ← call (.capacity sender)
      call (.observe (.writerQueueDepth source.canonical (WRITER_CHANNEL_CAPACITY - capacity)))
      sendRecords source sender rest

/-- The sender goes when an entry is done, whether its records were sent or not. -/
def sendEntry (source : SourceKey) (records : List LogRecord) : Handler Status Unit := do
  let sender : Nat ← call (.senderFor source)
  let sent ← sendRecords source sender records
  call (.dropSender sender)
  liftExcept sent

/-- Entry by entry: those before a refused one have been sent. -/
def exportEntries (h : LogsHandler) (token : TokenContext) : List ResourceLogs → Handler Status Unit
  | [] => return ()
  | entry :: rest => do
    let source ← liftExcept (admitEntry token entry)
    let admitted : Bool ← call (.check ⟨.logs, token.id, source.canonical⟩ h.rateLimit.logsPerMinute
      h.rateLimit.logsBurst)
    if !admitted then throw ⟨.resourceExhausted, "log rate limit exceeded"⟩
    else
      sendEntry source entry.records
      exportEntries h token rest

/-- All entries are validated before one is sent. -/
def exportInner (h : LogsHandler) (request : LogsRequest) : Handler Status Unit := do
  liftExcept (validateProtocolMetadata request.version)
  let token ← liftExcept (tokenFromExtensions request.token)
  validateEntries h token request.resourceLogs
  exportEntries h token request.resourceLogs

/-- The code as the metric has it. -/
def grpcStatusLabel : Code → Nat
  | .ok => 200
  | .unauthenticated => 401
  | .permissionDenied => 403
  | .resourceExhausted => 429
  | .invalidArgument => 400
  | .failedPrecondition => 412
  | .internal => 500

/-- The request with its metric. -/
def exportLogs (h : LogsHandler) (request : LogsRequest) : Program serverInterface (Except Status Unit) := do
  let result ← (exportInner h request).run
  let status := match result with
    | .ok () => 200
    | .error error => grpcStatusLabel error.code
  Program.perform (S := serverInterface) (.observe (.request .logs status))
  return result

/-! ### Writers -/

/-- What a writer has open. -/
structure WriterFile where
  source : SourceKey
  date : Option NaiveDate
  file : Option Handle

section Writer
variable (json : SerdeJson) (storage : StoragePaths) (utcDate : Time → NaiveDate)

/-- The file of a source for a day, at its end. -/
def openLogFile (source : SourceKey) (date : NaiveDate) : Handler StorageError Handle := do
  let path := storage.logFile source date
  file .io (.createDirAll path.parent)
  file .io (.openAppend path)

/-- Flushes and syncs; what goes wrong is reported. -/
def flushFile (message : String) : Option Handle → Program serverInterface Unit
  | none => return ()
  | some handle => do
    let synced : Except IoError Unit ← Program.perform (S := serverInterface) (.file (.sync handle))
    match synced with
    | .ok () => return ()
    | .error _ => Program.perform (S := serverInterface) (.report message)

/-- The file for a day: the one that is open, or another. Without one the line is lost. -/
def rotate (w : WriterFile) (today : NaiveDate) : Program serverInterface (WriterFile × Bool) :=
  if w.date = some today then return (w, true)
  else do
    flushFile "failed to flush log file before rotation" w.file
    let opened ← (openLogFile storage w.source today).run
    match opened with
    | .ok handle => return ({w with date := some today, file := some handle}, true)
    | .error _ =>
      Program.perform (S := serverInterface) (.report "failed to open log file")
      return ({w with file := none}, false)

/-- An append that fails is reported, and the file stays open. -/
def appendLine (line : Json) : Option Handle → Program serverInterface (Option Handle)
  | none => return none
  | some handle => do
    let written : Except IoError Handle ←
      Program.perform (S := serverInterface) (.file (.write handle (json.write line ++ [0x0a])))
    match written with
    | .ok handle => return some handle
    | .error _ =>
      Program.perform (S := serverInterface) (.report "failed to append log record")
      return some handle

/-- One line, or the end. -/
def writerLoop (channel : Nat) (w : WriterFile) : Program serverInterface (WriterFile ⊕ Unit) := do
  let line : Option Json ← Program.perform (S := serverInterface) (.recv channel)
  match line with
  | none =>
    flushFile "failed to flush log file during shutdown" w.file
    Program.perform (S := serverInterface) (.finish channel)
    return .inr ()
  | some line =>
    let now : Time ← Program.perform (S := serverInterface) .now
    let (w, opened) ← rotate storage w (utcDate now)
    if opened then
      let handle ← appendLine json line w.file
      return .inl {w with file := handle}
    else return .inl w

/-- The writer of a channel. -/
def writer (channel : Nat) : Task serverInterface Unit where
  Var := WriterFile
  init := do
    let source : SourceKey ← Program.perform (S := serverInterface) (.accept channel)
    return .inl ⟨source, none, none⟩
  body := writerLoop json storage utcDate channel

end Writer

/-- Waits for every writer that the map held. -/
def joinAll : List Nat → Program serverInterface Unit
  | [] => return ()
  | channel :: rest => do
    Program.perform (S := serverInterface) (.join channel)
    joinAll rest

/-- Empties the map of writers and waits for those it held. -/
def shutdown : Program serverInterface Unit := do
  let channels : List Nat ← Program.perform (S := serverInterface) .drain
  joinAll channels

end Detritus.Server
