import Mathlib.Data.String.Basic
import Detritus.Client.Capture

/-! How entries are shipped.

A run takes the lock of the spool directory, lists `pending`, and reads, posts and moves
one entry after the other; the first error ends it. The lock is released on every way out.
A clean-up removes from `sent` what was last modified too long ago: with an endpoint given
it comes before the entries and keeps to the default, with stored endpoints it comes after
them and keeps to the longest retention among those that were shipped. -/
namespace Detritus.Client
open Files Protocol Process

/-- How long a shipped entry is kept, where no entry says more. -/
def DEFAULT_SENT_RETENTION_DAYS : UInt64 := 90

def DEFAULT_BOUNDARY : String := "detritus-boundary-v1"

section Lock
variable {ε α : Type}

/-- The lock of a spool. -/
def lockPath (dir : Path) : Path := dir.join ".lock"

/-- `SpoolLock::acquire` -/
def acquire (wrap : IoError → ε) (dir : Path) : Action ε Unit := do
  file wrap (.createDirAll dir)
  let _ : Handle ← file wrap (.openAppend (lockPath dir))
  call (.lock (lockPath dir))

/-- Code that holds the lock, which is dropped however the code ends. -/
def guarded (dir : Path) (p : Action ε α) : Action ε α :=
  ExceptT.mk (p.run >>= fun r => Program.perform (S := clientInterface) (.unlock (lockPath dir)) >>= fun _ => .done r)

end Lock

/-- The directories among the entries of a directory, sorted. -/
def pendingEntries (pending : Path) : Action ShipError (List Path) := do
  let listing : Except IoError (List (Path × Bool)) ← attempt (.readDir pending)
  match listing with
  | .ok entries => return ((entries.filter (·.2)).map Prod.fst).mergeSort
  | .error .notFound => return []
  | .error e => throw (.io e)

/-! ### Posting -/

/-- A text that can be the value of a header: tabs and visible ASCII. -/
def headerValue (text : String) : Option String :=
  if text.toList.all fun c => c = '\t' || (32 ≤ c.toNat && c.toNat < 127) then some text else none

def Response.isSuccess (r : Response) : Bool := 200 ≤ r.status && r.status < 300

section Ship
variable (C : Crates)

/-- The path of the endpoint is appended unless it is there. -/
def crashUrl (endpoint : Url) : Url :=
  if "/v1/crashes".toList <:+ (C.urlPath endpoint).toList then endpoint
  else (C.joinUrl endpoint "/v1/crashes").getD endpoint

/-- The entry that the envelope was read from is noted with the request. -/
def postEnvelope (entry : Path) (endpoint : Url) (token : String) (envelope : CrashEnvelope) (config : ShipConfig) :
    Action ShipError Unit := do
  let compressed ← liftExcept ((compressEnvelope C.compress config envelope).mapError .io)
  let body := compressed.1.writeToWithBoundaryAndEncodings C.json DEFAULT_BOUNDARY compressed.2
  match headerValue ("Bearer " ++ token) with
  | none => throw .invalidToken
  | some authorization => do
    let answer : Except HttpError Response ← call (.post entry
      ⟨crashUrl C endpoint, authorization, "multipart/form-data; boundary=" ++ DEFAULT_BOUNDARY, body⟩)
    match answer with
    | .error e => throw (.http e)
    | .ok response =>
      if response.isSuccess then match response.failure with
        | some e => throw (.http e)
        | none => return ()
      else throw (.status response.status)

/-- An entry makes way for one of its name. -/
def moveEntry (entry destination : Path) : Action ShipError Unit := do
  let there : Except IoError Bool ← attempt (.tryExists destination)
  if there = .ok true then file .io (.removeDirAll destination)
  file .io (.renameDir entry destination)

/-- An entry that was answered with success is moved to `sent`. -/
def shipOne (sent : Path) (endpoint : Url) (token : String) (config : ShipConfig) (entry : Path) :
    Action ShipError Unit := do
  let envelope ← readEnvelope C entry
  postEnvelope C entry endpoint token envelope config
  match entry.fileName with
  | none => throw (.io .other)
  | some name => moveEntry entry (sent.join name)

/-! ### Cleaning up -/

/-- Days as a duration; the seconds are as many as 64 bits can tell. -/
def retentionSpan (days : UInt64) : Time := min (days.toNat * (24 * 60 * 60)) (2 ^ 64 - 1) * 1000000000

/-- Entries older than the cutoff are removed. -/
def removeOld (cutoff : Time) : List Path → Action ShipError Unit
  | [] => return ()
  | entry :: rest => do
    let metadata : Metadata ← file .io (.metadata entry)
    if metadata.modified < cutoff then file .io (.removeDirAll entry)
    removeOld cutoff rest

/-- The cutoff is the epoch where it would lie before. -/
def cleanupSent (sent : Path) (retentionDays : UInt64) : Action ShipError Unit := do
  let now : Time ← call .now
  let entries ← pendingEntries sent
  removeOld (now - retentionSpan retentionDays) entries

/-- The longest retention seen so far. -/
def recordRetention (maxRetentionDays : Option UInt64) (retentionDays : UInt64) : Option UInt64 :=
  some ((maxRetentionDays.map fun current => max current retentionDays).getD retentionDays)

def retentionOrDefault (maxRetentionDays : Option UInt64) : UInt64 :=
  maxRetentionDays.getD DEFAULT_SENT_RETENTION_DAYS

/-! ### Runs -/

/-- One entry after the other, up to the first that fails. -/
def shipEntries (ship : Path → Action ShipError Unit) : Nat → List Path → Action ShipError Nat
  | shipped, [] => return shipped
  | shipped, entry :: rest => do
    ship entry
    shipEntries ship (shipped + 1) rest

/-- `ship_pending_with_client`: to one endpoint. -/
def shipPending (spoolDir : Path) (endpoint : Url) (token : String) (config : ShipConfig) : Action ShipError Nat := do
  acquire .io spoolDir
  guarded spoolDir do
    let pending := spoolDir.join "pending"
    let sent := spoolDir.join "sent"
    file .io (.createDirAll pending)
    file .io (.createDirAll sent)
    cleanupSent sent DEFAULT_SENT_RETENTION_DAYS
    let entries ← pendingEntries pending
    shipEntries (shipOne C sent endpoint token config) 0 entries

/-- The same with the endpoint that is stored with each entry. -/
def shipStoredEntries (sent : Path) (token : String) (config : ShipConfig) :
    Nat → Option UInt64 → List Path → Action ShipError (Nat × Option UInt64)
  | shipped, maxRetentionDays, [] => return (shipped, maxRetentionDays)
  | shipped, maxRetentionDays, entry :: rest => do
    let resolved ← resolveStoredEndpoint C entry
    shipOne C sent resolved.1 token config entry
    shipStoredEntries sent token config (shipped + 1) (recordRetention maxRetentionDays resolved.2) rest

/-- `ship_stored_with_client`: to the endpoint that each entry has stored. -/
def shipStored (spoolDir : Path) (token : String) (config : ShipConfig) : Action ShipError Nat := do
  acquire .io spoolDir
  guarded spoolDir do
    let pending := spoolDir.join "pending"
    let sent := spoolDir.join "sent"
    file .io (.createDirAll pending)
    file .io (.createDirAll sent)
    let entries ← pendingEntries pending
    let shipped ← shipStoredEntries C sent token config 0 none entries
    cleanupSent sent (retentionOrDefault shipped.2)
    return shipped.1

end Ship

end Detritus.Client
