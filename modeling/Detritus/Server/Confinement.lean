import Detritus.Process.Discipline
import Detritus.Server.Crashes
import Detritus.Server.Logs

/-! Where a request reaches.

A task acts for some sources (`Remit`). Of the files that are opened by name it opens
only temporary ones, the indexes and the log files of those sources; it writes only to
files that it has opened, what its remit allows for the source; it links only temporary
files to the path of a digest, and removes only temporary files. A writer writes the
lines that it received, to the files of the source that it accepted. -/
namespace Detritus.Server
open Files Protocol Process Discipline
variable {source : SourceKey}

/-- The sources that each task acts for, what it may put into an index of one, and what it may send to the
writer of one. -/
structure Remit (ι : Type) where
  acts : ι → SourceKey → List (ServerEvent ι) → Prop
  grows : ∀ {i source h h'}, h ⊆ h' → acts i source h → acts i source h'
  index : ι → SourceKey → Bytes → Prop
  line : ι → SourceKey → Json → Prop
  /-- A line as it is stored. -/
  encode : Json → Bytes

section Reach
variable {ι : Type} (P : StoragePaths) (R : Remit ι)

def IsTemp (p : Path) : Prop := ∃ u, p = P.tempPath u

def IsBlob (p : Path) : Prop := ∃ d : Sha256, p = P.blobPath d.hex

/-- The path of an index of the source. -/
def IsIndex (source : SourceKey) (p : Path) : Prop :=
  ∃ (t : DateTime) (d : Sha256), p = P.indexPath source t.format d.hex

def IsLog (source : SourceKey) (p : Path) : Prop := ∃ date, p = P.logFile source date

/-- The path was opened by the task, as this file. -/
def OpenedAt (i : ι) (n : Nat) (p : Path) (h : List (ServerEvent ι)) : Prop :=
  ∃ hd : Handle, hd.inode = n ∧ ((⟨i, .file (.create p), (.ok hd : Except IoError Handle)⟩ : ServerEvent ι) ∈ h ∨
    (⟨i, .file (.openAppend p), (.ok hd : Except IoError Handle)⟩ : ServerEvent ι) ∈ h)

/-- What a task may write to a file that it has opened at a path. -/
def Writes (i : ι) (p : Path) (hd : Handle) (bytes : Bytes) (h : List (ServerEvent ι)) : Prop :=
  IsTemp P p ∨
  (∃ source, R.acts i source h ∧ IsIndex P source p ∧ hd.offset = 0 ∧ hd.append = false ∧ R.index i source bytes) ∨
  ∃ source k line, IsLog P source p ∧ hd.append = true ∧ bytes = R.encode line ∧
    (⟨i, .accept k, source⟩ : ServerEvent ι) ∈ h ∧ (⟨i, .recv k, some line⟩ : ServerEvent ι) ∈ h

def ReachesFile (i : ι) (op : FileOp) (h : List (ServerEvent ι)) : Prop :=
  match op with
  | .createDirAll p => p = P.tmpDir ∨ ∃ q, p = q.parent ∧ (IsBlob P q ∨
      ∃ source, R.acts i source h ∧ (IsIndex P source q ∨ IsLog P source q))
  | .create p => IsTemp P p ∨ ∃ source, R.acts i source h ∧ IsIndex P source p
  | .openAppend p => ∃ source, R.acts i source h ∧ IsLog P source p
  | .write hd bytes => ∃ p, OpenedAt i hd.inode p h ∧ Writes P R i p hd bytes h
  | .hardLink src dst => IsTemp P src ∧ IsBlob P dst
  | .removeFile p => IsTemp P p
  | .tryExists _ | .sync _ | .read _ => True
  | .removeDirAll _ | .renameDir _ _ | .metadata _ | .readDir _ => False

def Reaches (i : ι) (op : ServerOp) (h : List (ServerEvent ι)) : Prop :=
  match op with
  | .file op => ReachesFile P R i op h
  | .senderFor source => R.acts i source h
  | .trySend k line => ∃ source, (⟨i, .senderFor source, k⟩ : ServerEvent ι) ∈ h ∧ R.line i source line
  | _ => True

/-- How files are opened; a write leaves the handle on its file. -/
def Fits (op : ServerOp) (x : op.Answer) : Prop :=
  match op with
  | .file (.create _) => ∀ hd : Handle, x = Except.ok hd → hd.offset = 0 ∧ hd.append = false
  | .file (.openAppend _) => ∀ hd : Handle, x = Except.ok hd → hd.append = true
  | .file (.write hd _) => ∀ hd' : Handle, x = Except.ok hd' → hd'.inode = hd.inode ∧ hd'.append = hd.append
  | _ => True

/-- The server gives no answer that a discipline does not count on. -/
theorem exec_fits {env : Env} (n : Nat) (op : ServerOp) (w : World) (x : op.Answer) (w' : World)
    (hx : World.exec env n op w = some (x, w')) : Fits op x := by
  unfold Fits
  split
  · next p x =>
    intro hd hok
    obtain ⟨hans, -⟩ := World.exec_file.mp hx
    rw [hok] at hans
    obtain rfl := Except.ok.inj hans
    unfold Disk.create
    cases w.disk.file p <;> exact ⟨rfl, rfl⟩
  · intro hd hok
    obtain ⟨hans, -⟩ := World.exec_file.mp hx
    rw [hok] at hans
    obtain rfl := Except.ok.inj hans
    exact Disk.openAppend_self.2
  · intro hd' hok
    obtain ⟨hans, -⟩ := World.exec_file.mp hx
    rw [hok] at hans
    obtain rfl := Except.ok.inj hans
    exact ⟨rfl, rfl⟩
  · trivial

variable {P R} {h h' : List (ServerEvent ι)} {i : ι}

theorem OpenedAt.grow {n : Nat} {p : Path} (hh : h ⊆ h') (ho : OpenedAt i n p h) : OpenedAt i n p h' :=
  ho.imp fun _ => And.imp_right (Or.imp (fun hm => hh hm) fun hm => hh hm)

theorem Writes.grow {p : Path} {hd : Handle} {bytes : Bytes} (hh : h ⊆ h') (hw : Writes P R i p hd bytes h) :
    Writes P R i p hd bytes h' := by
  rcases hw with ht | ⟨s, hs, hi⟩ | ⟨s, k, line, hl, ha, hb, hacc, hrecv⟩
  · exact .inl ht
  · exact .inr (.inl ⟨s, R.grows hh hs, hi⟩)
  · exact .inr (.inr ⟨s, k, line, hl, ha, hb, hh hacc, hh hrecv⟩)

theorem ReachesFile.grow {op : FileOp} (hh : h ⊆ h') (hr : ReachesFile P R i op h) : ReachesFile P R i op h' := by
  cases op with
  | createDirAll p =>
    exact hr.imp_right <| Exists.imp fun q => And.imp_right <| Or.imp_right <| Exists.imp fun s =>
      And.imp_left (R.grows hh)
  | create p => exact hr.imp_right <| Exists.imp fun s => And.imp_left (R.grows hh)
  | openAppend p => exact hr.imp fun s => And.imp_left (R.grows hh)
  | write hd b => exact hr.imp fun p => And.imp (OpenedAt.grow hh) (Writes.grow hh)
  | _ => exact hr

variable (P R) in
/-- What a request may call. -/
def confinement : Discipline serverInterface ι where
  fits := Fits
  may := Reaches P R
  grows := by
    intro i op h h' hh hr
    cases op with
    | file op => exact ReachesFile.grow hh hr
    | senderFor source => exact R.grows hh hr
    | trySend k line => exact hr.imp fun _ => And.imp_left fun hm => hh hm
    | _ => trivial

/-- The same without files. -/
def Messages (R : Remit ι) (i : ι) (op : ServerOp) (h : List (ServerEvent ι)) : Prop :=
  match op with
  | .file _ => False
  | .senderFor source => R.acts i source h
  | .trySend k line => ∃ source, (⟨i, .senderFor source, k⟩ : ServerEvent ι) ∈ h ∧ R.line i source line
  | _ => True

/-- Calls that are messages are within the confinement. -/
theorem Messages.reaches {op : ServerOp} {h : List (ServerEvent ι)} (hm : Messages R i op h) :
    Reaches P R i op h := by
  cases op with
  | file op => exact hm.elim
  | _ => exact hm

variable (R) in
/-- What a log request may call. -/
def messaging : Discipline serverInterface ι where
  fits _ _ := True
  may := Messages R
  grows := by
    intro i op h h' hh hr
    cases op with
    | file op => exact hr.elim
    | senderFor source => exact R.grows hh hr
    | trySend k line => exact hr.imp fun _ => And.imp_left fun hm => hh hm
    | _ => trivial

end Reach

/-! ### Calls of handlers -/

section Handlers
variable {ι α β ε : Type} {D : Discipline serverInterface ι} {i : ι} {h : List (ServerEvent ι)}
  {Q : β → List (ServerEvent ι) → Prop}

/-- A file operation followed by `?`. -/
theorem minds_file {op : FileOp} {wrap : IoError → ε} {f : op.Value → Handler ε β} (hop : D.may i (.file op) h)
    (hf : ∀ v, D.fits (.file op) (.ok v) → D.Minds i Q (f v) (⟨i, .file op, (.ok v : op.Answer)⟩ :: h)) :
    D.Minds i Q (file wrap op >>= f) h := by
  refine Minds.attempt hop fun x v hv hx => ?_
  subst hv
  exact hf v hx

end Handlers

/-! ### Uploads -/

section Upload
variable {ι : Type} {R : Remit ι} {state : AppState} {C : Crates} {i : ι} {h : List (ServerEvent ι)} {u : Uuid}

theorem placeBlob_minds {d : Sha256} :
    (confinement state.storage R).Minds i (fun _ _ => True)
      (placeBlob (state.storage.tempPath u) (state.storage.blobPath d.hex)) h := by
  unfold placeBlob
  refine minds_file trivial fun taken _ => ?_
  split
  · exact minds_file ⟨u, rfl⟩ fun _ _ => Minds.pure trivial
  · refine minds_call ⟨⟨u, rfl⟩, d, rfl⟩ fun linked _ => ?_
    split
    · exact minds_file ⟨u, rfl⟩ fun _ _ => Minds.pure trivial
    · exact minds_file ⟨u, rfl⟩ fun _ _ => Minds.pure trivial
    · exact minds_call ⟨u, rfl⟩ fun _ _ => Minds.throw _

theorem finalizeBlob_minds {d : Sha256} :
    (confinement state.storage R).Minds i (fun _ _ => True)
      (finalizeBlob state (state.storage.tempPath u) d.hex) h := by
  unfold finalizeBlob
  refine minds_call trivial fun _ _ => ?_
  refine minds_file (.inr ⟨_, rfl, .inl ⟨d, rfl⟩⟩) fun _ _ => ?_
  refine placeBlob_minds.bind fun dedup h' _ _ => ?_
  exact minds_call trivial fun _ _ => Minds.pure trivial

/-- All chunks go to the temporary file. -/
theorem writeChunks_minds {failure : Option MultipartError} {handle : Handle} {written : Bytes}
    (chunks : List Bytes) (ho : OpenedAt i handle.inode (state.storage.tempPath u) h) :
    (confinement state.storage R).Minds i (fun _ _ => True)
      (writeChunks state (state.storage.tempPath u) failure chunks handle written) h := by
  induction chunks generalizing handle written h with
  | nil =>
    unfold writeChunks
    cases failure with
    | some error => exact Minds.throw _
    | none => exact Minds.pure trivial
  | cons chunk rest ih =>
    unfold writeChunks
    split
    · exact minds_call ⟨u, rfl⟩ fun _ _ => Minds.throw _
    · refine minds_file ⟨_, ho, .inl ⟨u, rfl⟩⟩ fun hd' hfit => ih ?_
      rw [(hfit hd' rfl).1]
      exact ho.grow (List.subset_cons_self ..)

/-- A part that is stored has a digest for its name. -/
theorem writePartToBlob_minds {f : Field} :
    (confinement state.storage R).Minds i (fun p _ => ∃ d : Sha256, p.sha256 = d.hex)
      (writePartToBlob C state f) h := by
  unfold writePartToBlob
  refine minds_file (.inl rfl) fun _ _ => ?_
  refine minds_call trivial fun u _ => ?_
  refine minds_file (.inl ⟨u, rfl⟩) fun hd _ => ?_
  refine (writeChunks_minds _ ⟨hd, rfl, .inl (.head _)⟩).bind fun r h' _ _ => ?_
  refine minds_file trivial fun _ _ => ?_
  exact finalizeBlob_minds.bind fun _ _ _ _ => Minds.pure ⟨_, rfl⟩

theorem readParts_minds {failure : Option MultipartError} (fs : List Field) {dump : Option BlobPointer}
    {as : List AttachmentPointer} (hd : ∀ p, dump = some p → ∃ d : Sha256, p.sha256 = d.hex) :
    (confinement state.storage R).Minds i (fun r _ => ∀ p, r.1 = some p → ∃ d : Sha256, p.sha256 = d.hex)
      (readParts C state failure fs dump as) h := by
  induction fs generalizing dump as h with
  | nil =>
    unfold readParts
    cases failure with
    | some error => exact Minds.throw _
    | none => exact Minds.pure hd
  | cons f rest ih =>
    rw [readParts_cons]
    split
    · exact Minds.throw _
    · refine writePartToBlob_minds.bind fun p h' _ hp => ih ?_
      unfold placePart
      split
      · intro q hq
        obtain rfl := Option.some.inj hq
        exact hp
      · exact hd

theorem writeIndex_minds {metadata : CrashMetadata} {dump : BlobPointer} {as : List AttachmentPointer}
    (hs : R.acts i source h) (hd : ∃ d : Sha256, dump.sha256 = d.hex)
    (hindex : R.index i source (C.json.writePretty (CrashIndex.toJson ⟨metadata, dump, as⟩))) :
    (confinement state.storage R).Minds i (fun _ _ => True)
      (writeIndex C state source metadata dump as) h := by
  obtain ⟨d, hd⟩ := hd
  have hi : IsIndex state.storage source
      (state.storage.indexPath source metadata.timestamp.format dump.sha256) := ⟨_, d, by rw [hd]⟩
  unfold writeIndex
  refine minds_file (.inr ⟨_, rfl, .inr ⟨source, hs, .inl hi⟩⟩) fun _ _ => ?_
  refine minds_file (.inr ⟨source, R.grows (List.subset_cons_self ..) hs, hi⟩) fun hd hfit => ?_
  obtain ⟨hoffset, happend⟩ := hfit hd rfl
  refine minds_file ⟨_, ⟨hd, rfl, .inl (.head _)⟩, .inr (.inl ⟨source, ?_, hi, hoffset, happend, hindex⟩)⟩
    fun _ _ => ?_
  · exact R.grows (fun e he => .tail _ (.tail _ he)) hs
  exact Minds.pure trivial

theorem observeDedup_minds {dump : BlobPointer} :
    (confinement state.storage R).Minds i (fun _ _ => True) (observeDedup dump) h := by
  unfold observeDedup
  split
  · rw [← bind_pure (call (.observe .dedupHit))]
    exact minds_call trivial fun _ _ => Minds.pure trivial
  · exact Minds.pure trivial

variable (R C state i) in
/-- An upload under a token is within the remit: the token's sources, and indexes whose metadata the schema of
their project accepts. -/
structure UploadRemit (token : TokenContext) : Prop where
  acts : ∀ source : SourceKey, source.Valid → token.permits source = true → ∀ h, R.acts i source h
  index : ∀ source (index : CrashIndex), admitSource token index.metadata = .ok source →
    state.schemaRegistry.validate index.metadata.source.project .crashMetadata index.metadata.toJson = .ok () →
    R.index i source (C.json.writePretty index.toJson)

/-- An upload keeps to its remit. -/
theorem crashesInner_minds {token : TokenContext} {headers : Headers} {body : Body}
    (hremit : UploadRemit R state C i token) :
    (confinement state.storage R).Minds i (fun _ _ => True)
      (crashesInner C state token headers body) h := by
  unfold crashesInner
  apply minds_lift
  intro multipart _
  apply minds_lift
  intro ⟨metadata, fields⟩ _
  apply minds_lift
  intro source hsrc
  obtain ⟨-, -, hvalid, hpermits⟩ := admitSource_ok hsrc
  refine minds_call trivial fun admitted _ => ?_
  split
  · exact Minds.throw _
  · split
    · exact minds_call trivial fun _ _ => Minds.throw _
    · next haccepted =>
      refine (readParts_minds fields (fun p hp => absurd hp (by simp))).bind ?_
      intro ⟨dump, as⟩ h' _ hd
      cases dump with
      | none => exact Minds.throw _
      | some dump =>
        refine minds_call trivial fun _ _ => ?_
        refine observeDedup_minds.bind fun _ h' _ _ => ?_
        refine (writeIndex_minds (hremit.acts source hvalid hpermits _) (hd _ rfl) ?_).bind
          fun _ _ _ _ => Minds.pure trivial
        exact hremit.index source ⟨metadata, dump, as⟩ hsrc haccepted

/-- **An upload reaches no further than its source.** -/
theorem crashesHandler_obeys {token : TokenContext} {headers : Headers} {body : Body}
    (hremit : UploadRemit R state C i token) :
    (confinement state.storage R).Obeys i (fun _ _ => True) (crashesHandler C state token headers body) h :=
  Obeys.bind (crashesInner_minds hremit) fun _ _ _ _ => ⟨trivial, fun _ _ => trivial⟩

end Upload

/-! ### Log requests -/

section Export
variable {ι : Type} {R : Remit ι} {i : ι} {h : List (ServerEvent ι)} {handler : LogsHandler}
  {token : TokenContext} {request : LogsRequest}

theorem sendRecords_minds {k : Nat} (records : List LogRecord)
    (hsender : (⟨i, .senderFor source, k⟩ : ServerEvent ι) ∈ h)
    (hline : ∀ record ∈ records, R.line i source (logRecordJson record)) :
    (messaging R).Minds i (fun _ _ => True) (sendRecords source k records) h := by
  induction records generalizing h with
  | nil =>
    unfold sendRecords
    exact Minds.pure trivial
  | cons record rest ih =>
    unfold sendRecords
    refine minds_call ⟨source, hsender, hline record (.head _)⟩ fun x _ => ?_
    match x with
    | .error _ => exact Minds.pure trivial
    | .ok () =>
      refine minds_call trivial fun depth _ => minds_call trivial fun _ _ => ?_
      exact ih (.tail _ (.tail _ (.tail _ hsender))) fun record hr => hline record (.tail _ hr)

/-- The records of an entry go to the channel of its source. -/
theorem sendEntry_minds {records : List LogRecord} (hs : R.acts i source h)
    (hline : ∀ record ∈ records, R.line i source (logRecordJson record)) :
    (messaging R).Minds i (fun _ _ => True) (sendEntry source records) h := by
  unfold sendEntry
  refine minds_call hs fun k _ => ?_
  refine (sendRecords_minds records (.head _) hline).bind fun r h' _ _ => ?_
  refine minds_call trivial fun _ _ => ?_
  match r with
  | .ok () => exact Minds.pure trivial
  | .error e => exact Minds.throw e

variable (R i handler) in
/-- A log request under a token is within the remit: the token's sources, and the records of entries whose
attributes the schema of the token's project accepts. -/
structure ExportRemit (token : TokenContext) (entries : List ResourceLogs) : Prop where
  acts : ∀ source : SourceKey, source.Valid → token.permits source = true → ∀ h, R.acts i source h
  line : ∀ entry ∈ entries, ∀ source record, admitEntry token entry = .ok source → record ∈ entry.records →
    handler.schemaRegistry.validate token.project .logAttributes (resourceLogsToValidationValue entry) = .ok () →
    R.line i source (logRecordJson record)

/-- What comes after the validation comes after every entry has passed it. -/
theorem validateEntries_minds (entries : List ResourceLogs) :
    (messaging R).Minds i (fun _ _ => ∀ entry ∈ entries, handler.schemaRegistry.validate token.project
      .logAttributes (resourceLogsToValidationValue entry) = .ok ()) (validateEntries handler token entries) h := by
  induction entries generalizing h with
  | nil =>
    unfold validateEntries
    exact Minds.pure (by simp)
  | cons entry rest ih =>
    unfold validateEntries
    split
    · next hentry =>
      refine ih.mono fun _ h' _ hrest => ?_
      exact List.forall_mem_cons.mpr ⟨hentry, hrest⟩
    · exact minds_call trivial fun _ _ => Minds.throw _
    · exact minds_call trivial fun _ _ => Minds.throw _

theorem exportEntries_minds (entries : List ResourceLogs) (hremit : ExportRemit R i handler token entries)
    (hvalid : ∀ entry ∈ entries, handler.schemaRegistry.validate token.project .logAttributes
      (resourceLogsToValidationValue entry) = .ok ()) :
    (messaging R).Minds i (fun _ _ => True) (exportEntries handler token entries) h := by
  induction entries generalizing h with
  | nil =>
    unfold exportEntries
    exact Minds.pure trivial
  | cons entry rest ih =>
    unfold exportEntries
    cases hadmit : admitEntry token entry with
    | error e => exact Minds.throw e
    | ok source =>
    obtain ⟨-, hsource, hpermits⟩ := admitEntry_ok hadmit
    refine minds_call trivial fun admitted _ => ?_
    cases admitted with
    | false => exact Minds.throw _
    | true =>
    refine (sendEntry_minds (hremit.acts source hsource hpermits _) ?_).bind fun _ h' _ _ => ?_
    · exact fun record hr => hremit.line entry (.head _) source record hadmit hr (hvalid entry (.head _))
    · refine ih ⟨hremit.acts, fun e he => hremit.line e (.tail _ he)⟩ fun e he => ?_
      exact hvalid e (.tail _ he)

/-- An export keeps to its remit. -/
theorem exportInner_minds
    (hremit : ∀ token, request.token = some token → ExportRemit R i handler token request.resourceLogs) :
    (messaging R).Minds i (fun _ _ => True) (exportInner handler request) h := by
  unfold exportInner
  apply minds_lift
  intro _ _
  apply minds_lift
  intro token htoken
  have htoken : request.token = some token := by
    unfold tokenFromExtensions at htoken
    split at htoken
    · cases htoken
    · next t ht => rw [ht, Except.ok.inj htoken]
  refine (validateEntries_minds request.resourceLogs).bind fun _ h' _ hvalid => ?_
  exact exportEntries_minds request.resourceLogs (hremit token htoken) hvalid

theorem exportLogs_messages
    (hremit : ∀ token, request.token = some token → ExportRemit R i handler token request.resourceLogs) :
    (messaging R).Obeys i (fun _ _ => True) (exportLogs handler request) h :=
  Obeys.bind (exportInner_minds hremit) fun _ _ _ _ => ⟨trivial, fun _ _ => trivial⟩

/-- **A log request sends to its sources, and only what was vetted.** -/
theorem exportLogs_obeys {P : StoragePaths}
    (hremit : ∀ token, request.token = some token → ExportRemit R i handler token request.resourceLogs) :
    (confinement P R).Obeys i (fun _ _ => True) (exportLogs handler request) h :=
  (exportLogs_messages hremit).weaken (fun _ _ _ => trivial) fun _ _ => Messages.reaches

end Export

/-! ### Writers -/

section Writer
variable {ι : Type} {P : StoragePaths} {R : Remit ι} {i : ι} {k : Nat} {v : WriterFile} {h : List (ServerEvent ι)}
  {json : SerdeJson} {utcDate : Time → NaiveDate}

/-- A writer that has accepted its source; what it has open is a log file of it. -/
structure Accepting (P : StoragePaths) (i : ι) (k : Nat) (v : WriterFile) (h : List (ServerEvent ι)) : Prop where
  accepted : (⟨i, .accept k, v.source⟩ : ServerEvent ι) ∈ h
  file : ∀ handle, v.file = some handle → handle.append = true ∧
    ∃ date, OpenedAt i handle.inode (P.logFile v.source date) h

theorem Accepting.grow {h' : List (ServerEvent ι)} (hh : h ⊆ h') (A : Accepting P i k v h) : Accepting P i k v h' where
  accepted := hh A.accepted
  file handle hf := (A.file handle hf).imp_right (Exists.imp fun _ => OpenedAt.grow hh)

theorem flushFile_obeys {message : String} (handle : Option Handle) :
    (confinement P R).Obeys i (fun _ _ => True) (flushFile message handle) h := by
  cases handle with
  | none => trivial
  | some handle =>
    refine ⟨trivial, fun x _ => ?_⟩
    match x with
    | .ok () => trivial
    | .error _ => exact ⟨trivial, fun _ _ => trivial⟩

/-- What a writer does for the sources that it accepts is within the remit. -/
abbrev WriterRemit (R : Remit ι) (i : ι) (k : Nat) : Prop :=
  ∀ source h, (⟨i, .accept k, source⟩ : ServerEvent ι) ∈ h → R.acts i source h

theorem openLogFile_minds (hremit : WriterRemit R i k) (A : Accepting P i k v h) (date : NaiveDate) :
    (confinement P R).Minds i (fun handle h => handle.append = true ∧
      OpenedAt i handle.inode (P.logFile v.source date) h) (openLogFile P v.source date) h := by
  unfold openLogFile
  refine minds_file (.inr ⟨_, rfl, .inr ⟨v.source, hremit _ _ A.accepted, .inr ⟨date, rfl⟩⟩⟩) fun _ _ => ?_
  rw [← bind_pure (file _ _)]
  refine minds_file ⟨v.source, hremit _ _ (.tail _ A.accepted), date, rfl⟩ fun handle hfit => ?_
  exact Minds.pure ⟨hfit handle rfl, handle, rfl, .inr (.head _)⟩

/-- A writer opens files of its own source only. -/
theorem rotate_obeys (hremit : WriterRemit R i k) (A : Accepting P i k v h) (today : NaiveDate) :
    (confinement P R).Obeys i (fun r h => Accepting P i k r.1 h) (rotate P v today) h := by
  unfold rotate
  split
  · exact A
  · refine (flushFile_obeys v.file).bind fun _ h' hh _ => ?_
    have A := A.grow hh
    refine Obeys.bind (openLogFile_minds hremit A today) fun opened h'' hh' hopened => ?_
    have A := A.grow hh'
    cases opened with
    | error e => exact ⟨trivial, fun _ _ => ⟨.tail _ A.accepted, fun _ h => by cases h⟩⟩
    | ok handle =>
      obtain ⟨happend, ho⟩ := hopened handle rfl
      refine ⟨A.accepted, fun b hb => ?_⟩
      obtain rfl := Option.some.inj hb
      exact ⟨happend, today, ho⟩

/-- What a writer appends is a line that it received. -/
theorem appendLine_obeys {line : Json} (hencode : ∀ line, R.encode line = json.write line ++ [0x0a])
    (A : Accepting P i k v h) (hline : (⟨i, .recv k, some line⟩ : ServerEvent ι) ∈ h) :
    (confinement P R).Obeys i (fun r h => Accepting P i k {v with file := r} h) (appendLine json line v.file) h := by
  unfold appendLine
  cases hfile : v.file with
  | none => exact ⟨A.accepted, fun _ h => by cases h⟩
  | some handle =>
    obtain ⟨happend, date, ho⟩ := A.file handle hfile
    refine ⟨⟨_, ho, .inr (.inr ⟨v.source, k, line, ⟨date, rfl⟩, happend, (hencode line).symm, A.accepted, hline⟩)⟩,
      fun x hfit => ?_⟩
    match x with
    | .ok handle' =>
      refine ⟨.tail _ A.accepted, fun b hb => ?_⟩
      obtain rfl := Option.some.inj hb
      obtain ⟨hin, ha⟩ := hfit handle' rfl
      exact ⟨ha.trans happend, date, hin ▸ ho.grow (List.subset_cons_self ..)⟩
    | .error e =>
      refine ⟨trivial, fun _ _ => ⟨.tail _ (.tail _ A.accepted), fun b hb => ?_⟩⟩
      obtain rfl := Option.some.inj hb
      exact ⟨happend, date, ho.grow fun e he => .tail _ (.tail _ he)⟩

/-- **A writer writes what it received, to the files of its source.** -/
theorem writerLoop_obeys (hencode : ∀ line, R.encode line = json.write line ++ [0x0a])
    (hremit : WriterRemit R i k) (A : Accepting P i k v h) :
    (confinement P R).Obeys i (fun r h => ∀ v, r = .inl v → Accepting P i k v h)
      (writerLoop json P utcDate k v) h := by
  unfold writerLoop
  refine ⟨trivial, fun line _ => ?_⟩
  match line with
  | none =>
    refine (flushFile_obeys v.file).bind fun _ h' _ _ => ?_
    exact ⟨trivial, fun _ _ _ h => by cases h⟩
  | some line =>
    refine ⟨trivial, fun time _ => ?_⟩
    refine (rotate_obeys hremit (A.grow fun e he => .tail _ (.tail _ he)) _).bind fun r h' hh A => ?_
    have hline := hh (.tail _ (.head _))
    obtain ⟨v', opened⟩ := r
    cases opened with
    | false =>
      intro b hb
      obtain rfl := Sum.inl.inj hb
      exact A
    | true =>
      refine (appendLine_obeys hencode A hline).bind fun file h'' _ A b hb => ?_
      obtain rfl := Sum.inl.inj hb
      exact A

end Writer

end Detritus.Server
