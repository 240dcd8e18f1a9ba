import Detritus.Protocol.Envelope
import Detritus.Server.World

/-! The crash endpoint.

An upload is a multipart body: the metadata, then a dump and any attachments. Each of
these goes to a temporary file as it arrives and, once its digest is known, is linked
to the path of that digest unless something is there already. The index that points
to all of them is written last.

Multipart parsing and hashing belong to other crates (`Crates`). -/
namespace Detritus.Server
open Files Protocol Process

/-- `Content-Type`, if there is one, as text, if it is text. -/
structure Headers where
  contentType : Option (Option String)

/-- What is taken from other crates. -/
structure Crates where
  sha256 : Bytes → Sha256
  json : SerdeJson
  parseBoundary : String → Option String
  multipart : String → Body → Multipart

/-- What the handlers share. -/
structure AppState where
  storage : StoragePaths
  maxDumpBytes : Nat
  rateLimit : RateLimitConfig
  schemaRegistry : SchemaRegistry

/-- Why an upload is refused. -/
inductive CrashError where
  | badRequest (message : String)
  | missingPart (name : String)
  | protocolVersion (actual expected : UInt32)
  | permissionDenied
  | rateLimited
  | payloadTooLarge (max : Nat)
  | schemaValidation (errors : List String)
  | internal (message : String)
  | json (error : JsonError)
  | multipart (error : MultipartError)
  | storage (error : StorageError)
  | io (error : IoError)
  deriving DecidableEq

/-- The status that the client gets. -/
def CrashError.statusCode : CrashError → Nat
  | badRequest _ | missingPart _ | json _ | multipart _ => 400
  | protocolVersion _ _ => 412
  | permissionDenied => 403
  | rateLimited => 429
  | payloadTooLarge _ => 413
  | schemaValidation _ => 422
  | internal _ => 500
  | storage (.invalidComponent _ _) => 400
  | storage (.io _) | io _ => 500

/-- A schema that is not there is the fault of the server. -/
def CrashError.fromSchemaError : SchemaError → CrashError
  | .validation _ errors => .schemaValidation errors
  | .unknownSchema project kind =>
    .internal ("no schema registered for project `" ++ project ++ "` / kind `" ++ kind.debug ++ "`")

/-- What a client is told of an upload that was stored. -/
structure CrashResponse where
  id : String
  dedup : Bool
  deriving DecidableEq

/-! ### The index -/

/-- Where the bytes of a part are. -/
structure BlobPointer where
  sha256 : String
  len : Nat
  path : String
  dedup : Bool
  contentEncoding : Option String
  deriving DecidableEq

/-- The same for an attachment, with its key. -/
structure AttachmentPointer where
  key : String
  contentType : String
  sha256 : String
  len : Nat
  path : String
  dedup : Bool
  contentEncoding : Option String
  deriving DecidableEq

/-- The file that makes an upload known. -/
structure CrashIndex where
  metadata : CrashMetadata
  dump : BlobPointer
  attachments : List AttachmentPointer

/-- A field that is left out when it is empty. -/
def encodingField (e : Option String) : List (String × Json) :=
  e.elim [] fun s => [("content_encoding", .string s)]

def BlobPointer.toJson (p : BlobPointer) : Json :=
  .object ([("sha256", .string p.sha256), ("len", .nat (.ofNat p.len)), ("path", .string p.path),
    ("dedup", .bool p.dedup)] ++ encodingField p.contentEncoding)

def AttachmentPointer.toJson (p : AttachmentPointer) : Json :=
  .object ([("key", .string p.key), ("content_type", .string p.contentType), ("sha256", .string p.sha256),
    ("len", .nat (.ofNat p.len)), ("path", .string p.path), ("dedup", .bool p.dedup)] ++
      encodingField p.contentEncoding)

def CrashIndex.toJson (i : CrashIndex) : Json :=
  .object [("metadata", i.metadata.toJson), ("dump", i.dump.toJson),
    ("attachments", .array (i.attachments.map (·.toJson)))]

/-- The digests an index points to. -/
def CrashIndex.hashes (i : CrashIndex) : List String := i.dump.sha256 :: i.attachments.map (·.sha256)

/-! ### Storing a part -/

section Upload
variable (C : Crates) (state : AppState)

/-- Links the temporary file to `dest` unless that is taken, and removes it: whether it
was taken. -/
def placeBlob (temp dest : Path) : Handler CrashError Bool := do
  let taken : Bool ← file .io (.tryExists dest)
  if taken then
    file .io (.removeFile temp)
    return true
  else
    let linked : Except IoError Unit ← attempt (.hardLink temp dest)
    match linked with
    | .ok () =>
      file .io (.removeFile temp)
      return false
    | .error .alreadyExists =>
      file .io (.removeFile temp)
      return true
    | .error error =>
      let _ ← attempt (.removeFile temp)
      throw (.io error)

/-- The path of the blob within the data directory, and whether it was there already. -/
def finalizeBlob (temp : Path) (sha256 : String) : Handler CrashError (String × Bool) := do
  call (.finalizing temp sha256)
  let dest := state.storage.blobPath sha256
  file .io (.createDirAll dest.parent)
  let dedup ← placeBlob temp dest
  call (.finalized temp sha256 dedup)
  return (Path.display (state.storage.relativeToDataDir dest), dedup)

/-- Appends the chunks of a part, within the limit: all bytes, and the file at its end. -/
def writeChunks (temp : Path) (failure : Option MultipartError) :
    List Bytes → Handle → Bytes → Handler CrashError (Handle × Bytes)
  | [], handle, written => match failure with
    | some error => throw (.multipart error)
    | none => return (handle, written)
  | chunk :: rest, handle, written => do
    if state.maxDumpBytes < written.length + chunk.length then
      let _ ← attempt (.removeFile temp)
      throw (.payloadTooLarge state.maxDumpBytes)
    else
      let handle : Handle ← file .io (.write handle chunk)
      writeChunks temp failure rest handle (written ++ chunk)

/-- A part goes to a temporary file first, and then to the place of its digest. -/
def writePartToBlob (field : Field) : Handler CrashError BlobPointer := do
  file .io (.createDirAll state.storage.tmpDir)
  let id : Uuid ← call .newUuid
  let temp := state.storage.tempPath id
  let handle : Handle ← file .io (.create temp)
  let (handle, bytes) ← writeChunks state temp field.failure field.chunks handle []
  file .io (.sync handle)
  let sha256 := (C.sha256 bytes).hex
  let (path, dedup) ← finalizeBlob state temp sha256
  return ⟨sha256, bytes.length, path, dedup, field.contentEncoding⟩

/-- An index of the same path is written over. -/
def writeIndex (source : SourceKey) (metadata : CrashMetadata) (dump : BlobPointer)
    (attachments : List AttachmentPointer) : Handler CrashError Unit := do
  let path := state.storage.indexPath source metadata.timestamp.format dump.sha256
  file .io (.createDirAll path.parent)
  let index : CrashIndex := ⟨metadata, dump, attachments⟩
  let handle : Handle ← file .io (.create path)
  let _ : Handle ← file .io (.write handle (C.json.writePretty index.toJson))
  return ()

/-! ### The request -/

/-- The limit of the metadata part. -/
def METADATA_MAX_BYTES : Nat := 64 * 1024

/-- The bytes of the metadata part, within its limit. -/
def metadataBytes (failure : Option MultipartError) : List Bytes → Bytes → Except CrashError Bytes
  | [], bytes => match failure with
    | some error => .error (.multipart error)
    | none => .ok bytes
  | chunk :: rest, bytes =>
    if METADATA_MAX_BYTES < bytes.length + chunk.length then .error (.payloadTooLarge METADATA_MAX_BYTES)
    else metadataBytes failure rest (bytes ++ chunk)

/-- The metadata part, decoded. -/
def readMetadata (field : Field) : Except CrashError CrashMetadata := do
  let bytes ← metadataBytes field.failure field.chunks []
  (C.json.metadata bytes).mapError .json

/-- The metadata of a body, and the parts that follow it. -/
def readFirst (multipart : Multipart) : Except CrashError (CrashMetadata × List Field) :=
  match multipart.fields with
  | [] => match multipart.failure with
    | some error => .error (.multipart error)
    | none => .error (.missingPart "metadata")
  | field :: rest =>
    if field.name ≠ some "metadata" then
      .error (.badRequest "first multipart part must be `metadata`")
    else (readMetadata C field).map fun metadata => (metadata, rest)

/-- The pointer to an attachment that was stored. -/
def attachmentPointer (key : String) (field : Field) (p : BlobPointer) : AttachmentPointer :=
  ⟨key, field.contentType.getD "application/octet-stream", p.sha256, p.len, p.path, p.dedup, p.contentEncoding⟩

/-- Stores the parts after the metadata, each as it comes. -/
def readParts (failure : Option MultipartError) : List Field → Option BlobPointer → List AttachmentPointer →
    Handler CrashError (Option BlobPointer × List AttachmentPointer)
  | [], dump, attachments => match failure with
    | some error => throw (.multipart error)
    | none => return (dump, attachments)
  | field :: rest, dump, attachments => match field.name with
    | none => throw (.badRequest "multipart part is missing a name")
    | some name =>
      if name = "metadata" then throw (.badRequest "metadata part must appear exactly once")
      else if name = "dump" then
        if dump.isSome then throw (.badRequest "dump part must appear exactly once")
        else do
          let pointer ← writePartToBlob C state field
          readParts failure rest (some pointer) attachments
      else if "attach:".toList <+: name.toList then do
        let pointer ← writePartToBlob C state field
        readParts failure rest dump
          (attachments ++ [attachmentPointer (String.ofList (name.toList.drop 7)) field pointer])
      else throw (.badRequest ("unexpected part `" ++ name ++ "`"))

/-- What follows `attach:` in the name of a part. -/
def attachKey (f : Field) : String := String.ofList ((f.name.getD "").toList.drop 7)

/-- A part that is stored: the first dump, or an attachment. -/
def Storable (dumped : Bool) (f : Field) : Prop := f.isDump = true ∧ dumped = false ∨ f.isAttachment = true

theorem Storable.first {dumped : Bool} {f : Field} (h : Storable dumped f) (hdump : f.isDump = true) :
    dumped = false := by
  rcases h with h | h
  · exact h.2
  · rw [Field.isAttachment_of_isDump hdump] at h
    cases h

theorem Storable.attachment {dumped : Bool} {f : Field} (h : Storable dumped f) (hdump : ¬ f.isDump = true) :
    f.isAttachment = true := h.resolve_left fun h => hdump h.1

/-- Why a part is not stored, if it is not. -/
def refusal (dumped : Bool) (f : Field) : Option CrashError :=
  match f.name with
  | none => some (.badRequest "multipart part is missing a name")
  | some name =>
    if name = "metadata" then some (.badRequest "metadata part must appear exactly once")
    else if name = "dump" then
      if dumped then some (.badRequest "dump part must appear exactly once") else none
    else if "attach:".toList <+: name.toList then none
    else some (.badRequest ("unexpected part `" ++ name ++ "`"))

theorem refusal_eq_none_iff {dumped : Bool} {f : Field} : refusal dumped f = none ↔ Storable dumped f := by
  unfold refusal Storable Field.isDump Field.isAttachment
  cases hname : f.name with
  | none => simp
  | some name =>
    dsimp only
    by_cases hmetadata : name = "metadata"
    · subst hmetadata
      simp
    by_cases hdump : name = "dump"
    · subst hdump
      cases dumped <;> simp
    simp [hmetadata, hdump]

/-- The pointer to a part, put with those to the parts before. -/
def placePart (f : Field) (p : BlobPointer) (stored : Option BlobPointer × List AttachmentPointer) :
    Option BlobPointer × List AttachmentPointer :=
  if f.isDump then (some p, stored.2) else (stored.1, stored.2 ++ [attachmentPointer (attachKey f) f p])

/-- The loop with a part before it: the part is refused, or it is stored before the rest. -/
theorem readParts_cons (failure : Option MultipartError) (f : Field) (rest : List Field) (dump : Option BlobPointer)
    (attachments : List AttachmentPointer) :
    readParts C state failure (f :: rest) dump attachments = match refusal dump.isSome f with
      | some e => throw e
      | none => writePartToBlob C state f >>= fun p =>
          readParts C state failure rest (placePart f p (dump, attachments)).1 (placePart f p (dump, attachments)).2 := by
  rw [readParts]
  unfold refusal placePart Field.isDump attachKey
  cases hname : f.name with
  | none => rfl
  | some name =>
    dsimp only
    by_cases hmetadata : name = "metadata"
    · simp only [if_pos hmetadata]
    by_cases hdump : name = "dump"
    · cases dump <;> simp [hdump]
    by_cases hattach : "attach:".toList <+: name.toList
    · simp only [if_neg hmetadata, if_neg hdump, if_pos hattach]
      simp [hdump]
    · simp only [if_neg hmetadata, if_neg hdump, if_neg hattach]

/-- The body as the multipart parser hands it out. -/
def openMultipart (headers : Headers) (body : Body) : Except CrashError Multipart :=
  match headers.contentType with
  | none => .error (.badRequest "missing content-type header")
  | some none => .error (.badRequest "content-type header is not UTF-8")
  | some (some contentType) => match C.parseBoundary contentType with
    | none => .error (.badRequest "missing multipart boundary")
    | some boundary => .ok (C.multipart boundary body)

/-- The source an upload is for, if its metadata and the token allow it. -/
def admitSource (token : TokenContext) (metadata : CrashMetadata) : Except CrashError SourceKey :=
  if metadata.schemaVersion ≠ PROTOCOL_VERSION then
    .error (.protocolVersion metadata.schemaVersion PROTOCOL_VERSION)
  else match SourceKey.new metadata.source.project metadata.source.installId.toString with
    | .error error => .error (.storage error)
    | .ok source => if token.permits source then .ok source else .error .permissionDenied

/-- What was checked of a source that is admitted. -/
theorem admitSource_ok {token : TokenContext} {metadata : CrashMetadata} {source : SourceKey}
    (h : admitSource token metadata = .ok source) : metadata.schemaVersion = PROTOCOL_VERSION ∧
      source = ⟨metadata.source.project, metadata.source.installId.toString⟩ ∧ source.Valid ∧
      token.permits source = true := by
  unfold admitSource at h
  split at h
  · exact absurd h (by simp)
  · next hv =>
    cases hk : SourceKey.new metadata.source.project metadata.source.installId.toString with
    | error e => rw [hk] at h; exact absurd h (by simp)
    | ok k =>
      rw [hk] at h
      dsimp only at h
      split at h
      · next hp =>
        obtain rfl := Except.ok.inj h
        obtain ⟨hs, hvalid⟩ := SourceKey.new_ok hk
        exact ⟨not_not.mp hv, hs, hvalid, hp⟩
      · exact absurd h (by simp)

omit state in
/-- The parts after the metadata are parts of the body. -/
theorem readFirst_fields {multipart : Multipart} {metadata : CrashMetadata} {fields : List Field}
    (h : readFirst C multipart = .ok (metadata, fields)) : fields ⊆ multipart.fields := by
  unfold readFirst at h
  cases hm : multipart.fields with
  | nil =>
    rw [hm] at h
    cases hf : multipart.failure <;> rw [hf] at h <;> exact absurd h (by simp)
  | cons f rest =>
    rw [hm] at h
    dsimp only at h
    split at h
    · exact absurd h (by simp)
    · cases hr : readMetadata C f with
      | error e => rw [hr] at h; exact absurd h (by simp [Except.map])
      | ok m =>
        rw [hr] at h
        obtain ⟨-, rfl⟩ := Prod.mk.inj (Except.ok.inj h)
        exact List.subset_cons_self ..

/-- Counts a dump that was there already. -/
def observeDedup (dump : BlobPointer) : Handler CrashError Unit :=
  if dump.dedup then call (.observe .dedupHit) else return ()

/-- The end of an upload whose parts are stored. -/
def storeIndex (source : SourceKey) (metadata : CrashMetadata) (dump : BlobPointer)
    (attachments : List AttachmentPointer) : Handler CrashError (Nat × CrashResponse) := do
  call (.observe (.bytes .crashes dump.len))
  observeDedup dump
  writeIndex C state source metadata dump attachments
  return (201, ⟨dump.sha256, dump.dedup⟩)

/-- An upload: what is asked of it before a byte is stored, its parts, and its index. -/
def crashesInner (token : TokenContext) (headers : Headers) (body : Body) :
    Handler CrashError (Nat × CrashResponse) := do
  let multipart ← liftExcept (openMultipart C headers body)
  let (metadata, fields) ← liftExcept (readFirst C multipart)
  let source ← liftExcept (admitSource token metadata)
  let admitted : Bool ← call (.check ⟨.crashes, token.id, source.canonical⟩
    state.rateLimit.crashesPerMinute state.rateLimit.crashesBurst)
  if !admitted then throw .rateLimited
  else match state.schemaRegistry.validate metadata.source.project .crashMetadata metadata.toJson with
    | .error error =>
      call (.observe (.validationFailure .crashes))
      throw (.fromSchemaError error)
    | .ok () =>
      let (dump, attachments) ← readParts C state multipart.failure fields none []
      match dump with
      | none => throw (.missingPart "dump")
      | some dump => storeIndex C state source metadata dump attachments

/-- The request with its metric: what the client is answered. -/
def crashesHandler (token : TokenContext) (headers : Headers) (body : Body) :
    Program serverInterface (Except CrashError (Nat × CrashResponse)) := do
  let result ← (crashesInner C state token headers body).run
  let status := match result with
    | .ok (status, _) => status
    | .error error => error.statusCode
  Program.perform (S := serverInterface) (.observe (.request .crashes status))
  return result

end Upload

end Detritus.Server
