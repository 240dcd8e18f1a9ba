import Detritus.Client.Compression
import Detritus.Client.World

/-! Spool entries: how a crash is captured, and how an entry is read.

An entry is a directory below `pending`, named by a fresh identifier. A capture copies
the context files into it under their own names, then writes the metadata, the dump and
the upload configuration. The shipper reads back the files that the metadata lists. -/
namespace Detritus.Client
open Files Protocol Process

/-! ### Configuration -/

/-- What the hook was installed for. -/
inductive PanicKind where
  | minidump
  | panicTarball
  deriving DecidableEq

def PanicKind.panicCrashKind : PanicKind → CrashKind
  | minidump => .panicTarball
  | panicTarball => .panicTarball

/-- What the hook is installed with. -/
structure PanicHookConfig where
  endpoint : Url
  source : SourceId
  spoolDir : Path
  kind : PanicKind
  build : BuildInfo
  context : Json
  /-- Paths, as they are written. -/
  contextFiles : List String
  sentRetentionDays : UInt64

/-- The part of the configuration that is stored with an entry, for a later run to ship it. -/
structure StoredUploadConfig where
  endpoint : String
  sentRetentionDays : UInt64
  deriving DecidableEq

namespace StoredUploadConfig

def fromConfig (config : PanicHookConfig) : StoredUploadConfig := ⟨config.endpoint.text, config.sentRetentionDays⟩

def toJson (c : StoredUploadConfig) : Json :=
  .object [("endpoint", .string c.endpoint), ("sent_retention_days", .nat c.sentRetentionDays)]

end StoredUploadConfig

/-- What is taken from other crates. -/
structure Crates where
  json : SerdeJson
  /-- `from_slice` at `StoredUploadConfig` -/
  uploadConfig : Bytes → Except JsonError StoredUploadConfig
  /-- A moment as `chrono` has it. -/
  utc : Time → DateTime
  parseUrl : String → Option Url
  urlPath : Url → String
  joinUrl : Url → String → Option Url
  compress : Compress

/-! ### Capture -/

/-- What a panic hook is told: the payload where it is a text, and the file, line and column. -/
structure PanicHookInfo where
  payload : Option String
  location : Option (String × UInt32 × UInt32)

/-- The payload, and where the panic was. -/
def panicText (info : PanicHookInfo) : String :=
  let payload := info.payload.getD "<non-string panic payload>"
  match info.location with
  | some (file, line, column) =>
    payload ++ "\n\nat " ++ file ++ ":" ++ toString line.toNat ++ ":" ++ toString column.toNat
  | none => payload

/-- `fs::write` -/
def writeFile (path : Path) (bytes : Bytes) : Action IoError Unit := do
  let handle : Handle ← file id (.create path)
  let _ : Handle ← file id (.write handle bytes)
  return ()

/-- The last component of a path, unless it is the root or leads upwards. -/
def contextName (index : Nat) (path : Path) : String :=
  (path.fileName.filter fun name => name ≠ ".." && name ≠ "/").getD ("context-" ++ toString index ++ ".json")

/-- The manifest of a context file, under the name of its copy. -/
def contextManifest (index : Nat) (path : Path) (bytes : Bytes) : AttachmentManifest :=
  ⟨"context-" ++ toString index, some (contextName index path), "application/json", .ofNat bytes.length⟩

/-- A context file is copied whole, and its copy is described. -/
def copyContextFile (index : Nat) (path dir : Path) : Action IoError AttachmentManifest := do
  let filename := contextName index path
  let bytes : Bytes ← file id (.read path)
  writeFile (dir.join filename) bytes
  return contextManifest index path bytes

/-- The first context file that cannot be copied ends the capture. -/
def copyContextFiles (dir : Path) : Nat → List String → Action IoError (List AttachmentManifest)
  | _, [] => return []
  | index, path :: rest => do
    let manifest ← copyContextFile index (components path) dir
    let manifests ← copyContextFiles dir (index + 1) rest
    return manifest :: manifests

section Capture
variable (C : Crates)

/-- The metadata of a report before anything is attached to it. -/
def newMetadata (config : PanicHookConfig) (now : Time) (kind : CrashKind) : CrashMetadata :=
  ⟨PROTOCOL_VERSION, config.source, C.utc now, kind, config.build, none, config.context, []⟩

/-- The manifest of the stored configuration. -/
def sdkConfigManifest (config : PanicHookConfig) : AttachmentManifest :=
  ⟨"sdk-config", some "sdk-config.json", "application/json",
    .ofNat (C.json.write (StoredUploadConfig.fromConfig config).toJson).length⟩

/-- The last three files of an entry. -/
def writeEntry (config : PanicHookConfig) (dir : Path) (metadata : CrashMetadata) (dump : Bytes) :
    Action IoError Unit := do
  writeFile (dir.join "metadata.json") (C.json.writePretty metadata.toJson)
  writeFile (dir.join "dump.bin") dump
  writeFile (dir.join "sdk-config.json") (C.json.writePretty (StoredUploadConfig.fromConfig config).toJson)

/-- The directory of one report. -/
def PanicHookConfig.entry (config : PanicHookConfig) (id : Uuid) : Path :=
  (config.spoolDir.join "pending").join id.toString

/-- The entry of a panic, with a tarball of its text for a dump. -/
def writePendingCrash (config : PanicHookConfig) (info : PanicHookInfo) : Action IoError Unit := do
  let uuid : Uuid ← call .newUuid
  let dir := config.entry uuid
  file id (.createDirAll dir)
  let text := panicText info
  let tarball : Except IoError Bytes ← call (.panicTarball text)
  let dump ← liftExcept tarball
  let now : Time ← call .now
  let contextAttachments ← copyContextFiles dir 0 config.contextFiles
  let metadata := {newMetadata C config now config.kind.panicCrashKind with
    panicText := some text
    attachments := sdkConfigManifest C config :: contextAttachments}
  writeEntry C config dir metadata dump

/-- The entry of a minidump. -/
def writePendingMinidump (config : PanicHookConfig) (dump : Bytes) : Action IoError Unit := do
  let uuid : Uuid ← call .newUuid
  let dir := config.entry uuid
  file id (.createDirAll dir)
  let now : Time ← call .now
  let contextAttachments ← copyContextFiles dir 0 config.contextFiles
  let metadata := {newMetadata C config now .minidump with attachments := contextAttachments}
  writeEntry C config dir metadata dump

end Capture

/-! ### Reading -/

/-- Why an entry was not shipped. -/
inductive ShipError where
  | io (error : IoError)
  | json (error : JsonError)
  | http (error : HttpError)
  | invalidToken
  | status (code : Nat)
  | missingStoredConfig (entry : Path)
  deriving DecidableEq

/-- The files of the manifests that name one. -/
def readAttachments (entry : Path) : List AttachmentManifest → Action ShipError (List CrashAttachment)
  | [] => return []
  | manifest :: rest => match manifest.filename with
    | none => readAttachments entry rest
    | some filename => do
      let bytes : Bytes ← file .io (.read (entry.join filename))
      let attachments ← readAttachments entry rest
      return ⟨manifest.key, manifest.contentType, bytes⟩ :: attachments

section Read
variable (C : Crates)

/-- The report that an entry holds. -/
def readEnvelope (entry : Path) : Action ShipError CrashEnvelope := do
  let bytes : Bytes ← file .io (.read (entry.join "metadata.json"))
  let metadata ← liftExcept ((C.json.metadata bytes).mapError .json)
  let dump : Bytes ← file .io (.read (entry.join "dump.bin"))
  let attachments ← readAttachments entry metadata.attachments
  return ⟨metadata, dump, attachments⟩

/-- A configuration that is not there is no error yet. -/
def readStoredUploadConfig (entry : Path) : Action ShipError (Option StoredUploadConfig) := do
  let path := entry.join "sdk-config.json"
  let there : Except IoError Bool ← attempt (.tryExists path)
  if there = .ok true then
    let bytes : Bytes ← file .io (.read path)
    let config ← liftExcept ((C.uploadConfig bytes).mapError .json)
    return some config
  else return none

/-- Where an entry is to go, and for how long it is kept once it is shipped. -/
def resolveStoredEndpoint (entry : Path) : Action ShipError (Url × UInt64) := do
  let stored ← readStoredUploadConfig C entry
  match stored with
  | none => throw (.missingStoredConfig entry)
  | some config => match C.parseUrl config.endpoint with
    | none => throw (.missingStoredConfig entry)
    | some endpoint => return (endpoint, config.sentRetentionDays)

end Read

/-! ### What reading an entry gives

Reading changes nothing, so on a disk at rest and without faults it is a function of what
the files hold. -/

section Pure
variable (C : Crates) (content : Path → Option Bytes)

def readAt (p : Path) : Except ShipError Bytes := ((content p).map Except.ok).getD (.error (.io .notFound))

def attachmentsAt (entry : Path) : List AttachmentManifest → Except ShipError (List CrashAttachment)
  | [] => .ok []
  | manifest :: rest => match manifest.filename with
    | none => attachmentsAt entry rest
    | some filename => do
      let bytes ← readAt content (entry.join filename)
      let attachments ← attachmentsAt entry rest
      return ⟨manifest.key, manifest.contentType, bytes⟩ :: attachments

/-- The report that an entry holds, as a function of the disk. -/
def envelopeAt (entry : Path) : Except ShipError CrashEnvelope := do
  let bytes ← readAt content (entry.join "metadata.json")
  let metadata ← (C.json.metadata bytes).mapError .json
  let dump ← readAt content (entry.join "dump.bin")
  let attachments ← attachmentsAt content entry metadata.attachments
  return ⟨metadata, dump, attachments⟩

end Pure

section Runs
variable {ι ε : Type} {env : Env} {i : ι} {w : ClientState ι}

/-- A run that ends with a result and leaves the world as it was. -/
def Gives {α : Type} (env : Env) (i : ι) (p : Action ε α) (w : ClientState ι) (r : Except ε α) : Prop :=
  ∃ u, p.alone env i w = some (r, u) ∧ u.state = w.state

theorem Gives.pure {α : Type} (a : α) : Gives env i (Pure.pure a : Action ε α) w (.ok a) := ⟨w, rfl, rfl⟩

theorem Gives.lift {α : Type} (r : Except ε α) : Gives env i (liftExcept r) w r := ⟨w, rfl, rfl⟩

/-- One after the other. -/
theorem Gives.bind {α β : Type} {p : Action ε α} {f : α → Action ε β} {r : Except ε α} {g : α → Except ε β}
    (hp : Gives env i p w r) (hf : ∀ a u, r = .ok a → u.state = w.state → Gives env i (f a) u (g a)) :
    Gives env i (p >>= f) w (r >>= g) := by
  obtain ⟨u, hrun, hstate⟩ := hp
  cases r with
  | ok a =>
    obtain ⟨v, hrun', hstate'⟩ := hf a u rfl hstate
    exact ⟨v, (Program.run_bind_ok f hrun).trans hrun', hstate'.trans hstate⟩
  | error e => exact ⟨u, Program.run_bind_error f hrun, hstate⟩

theorem gives_read (hfaults : ∀ n, env.faults n = none) (p : Path) :
    Gives env i (file ShipError.io (.read p)) w (readAt w.state.disk.content p) := by
  have hexec : execFile env w.history.length (.read p) w.state.disk = (w.state.disk.read p, w.state.disk) := by
    rw [execFile, hfaults]
    rfl
  have hanswer : (execFile env w.history.length (.read p) w.state.disk).1.mapError ShipError.io =
      readAt w.state.disk.content p := by
    rw [hexec, Disk.read, readAt]
    cases w.state.disk.content p with
    | none => rfl
    | some bytes => rfl
  exact ⟨after env i w (.read p), congrArg (fun x => some (x, after env i w (.read p))) hanswer, by rw [after, hexec]⟩

theorem gives_attachments (hfaults : ∀ n, env.faults n = none) (entry : Path) (manifests : List AttachmentManifest) :
    Gives env i (readAttachments entry manifests) w (attachmentsAt w.state.disk.content entry manifests) := by
  induction manifests generalizing w with
  | nil => exact .pure _
  | cons manifest rest ih =>
    unfold readAttachments attachmentsAt
    cases manifest.filename with
    | none => exact ih
    | some filename =>
      refine (gives_read hfaults _).bind fun bytes u _ hu => ?_
      rw [← hu]
      exact ih.bind fun attachments v _ _ => .pure _

/-- **Reading an entry gives what its files say.** -/
theorem gives_readEnvelope (C : Crates) (hfaults : ∀ n, env.faults n = none) (entry : Path) :
    Gives env i (readEnvelope C entry) w (envelopeAt C w.state.disk.content entry) := by
  refine (gives_read hfaults _).bind fun bytes u _ hu => (Gives.lift _).bind fun metadata v _ hv => ?_
  rw [← hu, ← hv]
  refine (gives_read hfaults _).bind fun dump x _ hx => ?_
  rw [← hx]
  exact (gives_attachments hfaults entry _).bind fun attachments _ _ _ => .pure _

end Runs

end Detritus.Client
