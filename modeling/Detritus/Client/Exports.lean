import Detritus.Client.Entry
import Detritus.Client.Worker
import Detritus.Process.Solo

/-! What becomes of the records.

Every record that is sampled goes into the batch, and a batch goes out as one request. So
at each head of the loop the records of the requests, one after the other, and then the
batch are the records that came, in the order in which they came. A request was
acknowledged or its file is in the queue directory: a file that is written there is new,
and after the replay at the start nothing removes one. -/
namespace Detritus.Client
open Files Protocol Process Contract

theorem log_component (u : Uuid) : Component ("log-" ++ u.toString ++ ".protobuf") := by
  refine .of_append ?_ (by decide) (by decide)
  rw [String.toList_append, List.mem_append, not_or]
  exact ⟨by decide, u.toString_slash⟩

theorem logPath_eq (dir : Path) (u : Uuid) : logPath dir u = dir ++ ["log-" ++ u.toString ++ ".protobuf"] :=
  (log_component u).join dir

theorem logPath_injective {dir : Path} {u v : Uuid} (h : logPath dir u = logPath dir v) : u = v := by
  rw [logPath_eq, logPath_eq] at h
  have hname : "log-" ++ u.toString ++ ".protobuf" = "log-" ++ v.toString ++ ".protobuf" := by simpa using h
  have hchars := congrArg String.toList hname
  rw [String.toList_append, String.toList_append, String.toList_append, String.toList_append] at hchars
  exact Uuid.toString_injective (String.toList_inj.mp (List.append_cancel_left (List.append_cancel_right hchars)))

theorem logPath_ne_lock (dir : Path) (u : Uuid) : logPath dir u ≠ lockPath dir := by
  rw [logPath_eq, lockPath, Component.join ⟨by decide, by decide, by decide⟩]
  intro h
  have hname : "log-" ++ u.toString ++ ".protobuf" = ".lock" := by simpa using h
  have hchars := congrArg (fun s : String => s.toList.head?) hname
  simp at hchars

namespace Worker
variable {request : ExportLogsServiceRequest} {p : Path}

/-! ### What the history says -/

section History
variable {ι : Type} (P : ExportCrates) (W : Worker)

/-- The worker asks for its next input. -/
def isNext : ClientOp → Bool
  | .next => true
  | _ => false

/-- The calls since the first message was waited for. -/
def sinceStart : List (ClientEvent ι) → List (ClientEvent ι)
  | [] => []
  | e :: h => if isNext e.op || !(sinceStart h).isEmpty then e :: sinceStart h else []

/-- The record that came, if it is one that is sampled. -/
def sampledOf : ClientEvent ι → Option LogRecord
  | ⟨_, .next, .record record⟩ => if W.shouldSample P record then some record else none
  | _ => none

/-- A request that was sent, and what came of it. -/
def requestOf : ClientEvent ι → Option (ExportLogsServiceRequest × ExportOutcome)
  | ⟨_, .exportLogs request, outcome⟩ => some (request, outcome)
  | _ => none

/-- A file that was created. -/
def fileOf : ClientEvent ι → Option Path
  | ⟨_, .file (.create p), .ok _⟩ => some p
  | _ => none

/-- A call that is about files, or about the name of one. -/
def isFiling (e : ClientEvent ι) : Bool :=
  match e.op with
  | .file _ | .newUuid => true
  | _ => false

/-- The records that came and were sampled, in their order. -/
def sampled (h : List (ClientEvent ι)) : List LogRecord := h.reverse.filterMap (sampledOf P W)

/-- The requests that are not replayed ones, with their outcomes. -/
def requests (h : List (ClientEvent ι)) : List (ExportLogsServiceRequest × ExportOutcome) :=
  (sinceStart h).reverse.filterMap requestOf

/-- The files that the worker has written. -/
def spoolFiles (h : List (ClientEvent ι)) : List Path := (sinceStart h).reverse.filterMap fileOf

/-- The records that went out. -/
def requested (h : List (ClientEvent ι)) : List LogRecord := (requests h).flatMap fun q => requestRecords q.1

/-- The records of the requests that were acknowledged. -/
def acknowledged (h : List (ClientEvent ι)) : List LogRecord :=
  ((requests h).filter fun q => q.2 = .acknowledged).flatMap fun q => requestRecords q.1

/-- The records of the request that a file holds. -/
def fileRecords (d : Disk) (p : Path) : List LogRecord :=
  match (d.content p).map P.decode with
  | some (.ok request) => requestRecords request
  | _ => []

/-- The records in the files that the worker has written. -/
def spooled (d : Disk) (h : List (ClientEvent ι)) : List LogRecord := (spoolFiles h).flatMap (fileRecords P d)

/-- The records that came and did not go out yet. -/
def unsent (h : List (ClientEvent ι)) : List LogRecord := (sampled P W h).drop (requested h).length

/-- A file was read, and the request in it acknowledged. -/
def Replayed (i : ι) (p : Path) (bytes : Bytes) (h : List (ClientEvent ι)) : Prop :=
  ∃ q newer older, P.decode bytes = .ok q ∧ h = newer ++ ⟨i, .exportLogs q, ExportOutcome.acknowledged⟩ ::
    ⟨i, .file (.read p), (.ok bytes : Except IoError Bytes)⟩ :: older

/-- How a flush is answered: nothing is left of what came before, and the answer is that all is well just if there
was nothing or the request for it was acknowledged. -/
def Answered (i : ι) (older : List (ClientEvent ι)) (result : Except LayerError Unit) : Prop :=
  unsent P W older = [] ∧ ∃ during before, older = during ++ ⟨i, .next, Input.flush⟩ :: before ∧
    (∀ e ∈ during, isNext e.op = false) ∧
    (result = .ok () ↔ unsent P W before = [] ∨
      (⟨i, .exportLogs (exportRequestFor W.source (unsent P W before)), ExportOutcome.acknowledged⟩ : ClientEvent ι) ∈
        during)

end History

section Events
variable {ι : Type} {P : ExportCrates} {W : Worker} {e : ClientEvent ι} {h : List (ClientEvent ι)}

theorem Replayed.append {i : ι} {bytes : Bytes} (hr : Replayed P i p bytes h) (new : List (ClientEvent ι)) :
    Replayed P i p bytes (new ++ h) := by
  obtain ⟨q, newer, older, hq, heq⟩ := hr
  exact ⟨q, new ++ newer, older, hq, by rw [heq, List.append_assoc]⟩

theorem exportLogs_inj {i : ι} {x y : ExportOutcome}
    (h : (⟨i, .exportLogs request, x⟩ : ClientEvent ι) = ⟨i, .exportLogs request, y⟩) : x = y := by
  have hrequest := congrArg requestOf h
  simpa [requestOf] using hrequest

theorem sinceStart_cons (hs : isNext e.op = true ∨ sinceStart h ≠ []) :
    sinceStart (e :: h) = e :: sinceStart h := by
  refine if_pos ?_
  rw [Bool.or_eq_true]
  exact hs.imp_right fun hne => by simpa using hne

theorem sampled_cons : sampled P W (e :: h) = sampled P W h ++ (sampledOf P W e).toList := by
  unfold sampled
  rw [List.reverse_cons, List.filterMap_append]
  cases he : sampledOf P W e <;> simp [he]

theorem requests_cons (hs : isNext e.op = true ∨ sinceStart h ≠ []) :
    requests (e :: h) = requests h ++ (requestOf e).toList := by
  unfold requests
  rw [sinceStart_cons hs, List.reverse_cons, List.filterMap_append]
  cases he : requestOf e <;> simp [he]

theorem spoolFiles_cons (hs : isNext e.op = true ∨ sinceStart h ≠ []) :
    spoolFiles (e :: h) = spoolFiles h ++ (fileOf e).toList := by
  unfold spoolFiles
  rw [sinceStart_cons hs, List.reverse_cons, List.filterMap_append]
  cases he : fileOf e <;> simp [he]

theorem requested_cons (hs : isNext e.op = true ∨ sinceStart h ≠ []) :
    requested (e :: h) = requested h ++ (requestOf e).toList.flatMap fun q => requestRecords q.1 := by
  unfold requested
  rw [requests_cons hs, List.flatMap_append]

theorem sinceStart_append (hs : sinceStart h ≠ []) (new : List (ClientEvent ι)) :
    sinceStart (new ++ h) = new ++ sinceStart h := by
  induction new with
  | nil => rfl
  | cons e new ih =>
    rw [List.cons_append, sinceStart_cons (.inr (by simp [ih, hs])), ih]
    rfl

theorem isFiling_spec (he : isFiling e = true) : isNext e.op = false ∧ requestOf e = none ∧
    (∀ P W, sampledOf P W e = none) ∧ ∀ result, e.op ≠ .reply result := by
  obtain ⟨i, op, x⟩ := e
  cases op with
  | file op => exact ⟨rfl, rfl, fun _ _ => rfl, fun _ h => by cases h⟩
  | newUuid => exact ⟨rfl, rfl, fun _ _ => rfl, fun _ h => by cases h⟩
  | _ => cases he

theorem requests_filing (hs : sinceStart h ≠ []) {new : List (ClientEvent ι)}
    (hnew : ∀ e ∈ new, isFiling e = true) : requests (new ++ h) = requests h := by
  have hnone : new.reverse.filterMap requestOf = [] := by
    rw [List.filterMap_eq_nil_iff]
    intro e he
    exact (isFiling_spec (hnew e (List.mem_reverse.mp he))).2.1
  unfold requests
  rw [sinceStart_append hs, List.reverse_append, List.filterMap_append, hnone, List.append_nil]

theorem spoolFiles_append (hs : sinceStart h ≠ []) (new : List (ClientEvent ι)) :
    spoolFiles (new ++ h) = spoolFiles h ++ new.reverse.filterMap fileOf := by
  unfold spoolFiles
  rw [sinceStart_append hs, List.reverse_append, List.filterMap_append]

end Events

/-! ### The books -/

section Books
variable {ι : Type}

/-- What the history alone says: `pending` is what came and did not go out. -/
structure Ledger (P : ExportCrates) (W : Worker) (i : ι) (pending : List LogRecord) (h : List (ClientEvent ι)) :
    Prop where
  order : requested h ++ pending = sampled P W h
  sizes : ∀ q ∈ requests h, 1 ≤ (requestRecords q.1).length ∧ (requestRecords q.1).length ≤ W.batchSize
  replies : ∀ newer older result, h = newer ++ ⟨i, .reply result, ()⟩ :: older → Answered P W i older result

/-- What the disk holds of requests that were not acknowledged, and of what it held at the start. -/
structure Shelf (P : ExportCrates) (W : Worker) (env : Env) (i : ι) (start : Disk) (h : List (ClientEvent ι))
    (d : Disk) : Prop where
  numbered : d.Numbered
  supply : ∀ n u, h.length ≤ n → env.uuid n = some u → d.file (logPath W.queueDir u) = none
  distinct : (spoolFiles h).Nodup
  files : (spoolFiles h).Forall₂ (fun p q => d.content p = some (P.encode q.1))
    ((requests h).filter fun q => q.2 ≠ .acknowledged)
  old : ∀ p bytes, start.content p = some bytes → d.content p = some bytes ∨ Replayed P i p bytes h

variable {P : ExportCrates} {W : Worker} {env : Env} {i : ι} {start : Disk} {pending : List LogRecord}
  {e : ClientEvent ι} {h : List (ClientEvent ι)} {d : Disk}

theorem Ledger.unsent_eq (L : Ledger P W i pending h) : unsent P W h = pending := by
  unfold unsent
  rw [← L.order, List.drop_left]

/-- An event that is not a reply comes before no reply. -/
theorem replies_cons {Q : List (ClientEvent ι) → Except LayerError Unit → Prop}
    (he : ∀ result, e.op ≠ .reply result)
    (hr : ∀ newer older result, h = newer ++ ⟨i, .reply result, ()⟩ :: older → Q older result) :
    ∀ newer older result, e :: h = newer ++ ⟨i, .reply result, ()⟩ :: older → Q older result := by
  intro newer older result heq
  cases newer with
  | nil =>
    have hop : e = ⟨i, .reply result, ()⟩ := (List.cons.inj heq).1
    exact absurd (by rw [hop]) (he result)
  | cons _ newer => exact hr newer older result (List.cons.inj heq).2

/-- A call that is about files only. -/
theorem Ledger.pass (L : Ledger P W i pending h) (hs : sinceStart h ≠ []) (hsampled : sampledOf P W e = none)
    (hrequest : requestOf e = none) (he : ∀ result, e.op ≠ .reply result) : Ledger P W i pending (e :: h) where
  order := by
    rw [requested_cons (.inr hs), hrequest, sampled_cons, hsampled, ← L.order]
    simp
  sizes := by
    rw [requests_cons (.inr hs), hrequest]
    simpa using L.sizes
  replies := replies_cons he L.replies

theorem Ledger.filing (L : Ledger P W i pending h) (hs : sinceStart h ≠ []) {new : List (ClientEvent ι)}
    (hnew : ∀ e ∈ new, isFiling e = true) : Ledger P W i pending (new ++ h) := by
  induction new with
  | nil => exact L
  | cons e new ih =>
    obtain ⟨-, hrequest, hsampled, hreply⟩ := isFiling_spec (hnew e (.head _))
    refine (ih fun e he => hnew e (.tail _ he)).pass ?_ (hsampled P W) hrequest hreply
    rw [sinceStart_append hs]
    simp [hs]

/-- Something came: a record that is sampled, or something that adds none. -/
theorem Ledger.next (L : Ledger P W i pending h) (input : Input) :
    Ledger P W i (pending ++ (sampledOf P W (⟨i, .next, input⟩ : ClientEvent ι)).toList)
      (⟨i, .next, input⟩ :: h) where
  order := by
    rw [requested_cons (.inl rfl), sampled_cons, ← L.order]
    simp [requestOf]
  sizes := by
    rw [requests_cons (.inl rfl)]
    simpa [requestOf] using L.sizes
  replies := replies_cons (fun _ h => by cases h) L.replies

/-- The batch goes out. -/
theorem Ledger.export (L : Ledger P W i pending h) (hs : sinceStart h ≠ []) (hne : pending ≠ [])
    (hle : pending.length ≤ W.batchSize) (outcome : ExportOutcome) :
    Ledger P W i [] (⟨i, .exportLogs (exportRequestFor W.source pending), outcome⟩ :: h) where
  order := by
    rw [requested_cons (.inr hs), sampled_cons, ← L.order]
    simp [requestOf, sampledOf]
  sizes := by
    rw [requests_cons (.inr hs)]
    intro q hq
    rcases List.mem_append.mp hq with hq | hq
    · exact L.sizes q hq
    · obtain rfl : q = (exportRequestFor W.source pending, outcome) := by simpa [requestOf] using hq
      rw [requestRecords_exportRequestFor]
      exact ⟨List.length_pos_iff.mpr hne, hle⟩
  replies := replies_cons (fun _ h => by cases h) L.replies

theorem Ledger.reply (L : Ledger P W i [] h) (hs : sinceStart h ≠ []) {result : Except LayerError Unit}
    (hanswer : Answered P W i h result) : Ledger P W i [] (⟨i, .reply result, ()⟩ :: h) where
  order := by
    rw [requested_cons (.inr hs), sampled_cons, ← L.order]
    simp [requestOf, sampledOf]
  sizes := by
    rw [requests_cons (.inr hs)]
    simpa [requestOf] using L.sizes
  replies := by
    intro newer older result' heq
    cases newer with
    | nil =>
      obtain ⟨hop, rfl⟩ := List.cons.inj heq
      obtain rfl : result = result' := by
        have hops := congrArg Process.Event.op hop
        exact ClientOp.reply.inj hops
      exact hanswer
    | cons _ newer => exact L.replies newer older result' (List.cons.inj heq).2

/-- A call that changes no file. -/
theorem Shelf.pass (S : Shelf P W env i start h d) (hs : isNext e.op = true ∨ sinceStart h ≠ [])
    (hfile : fileOf e = none) (hrequest : ∀ q, requestOf e = some q → q.2 = .acknowledged)
    {d' : Disk} (hd : d.SameFiles d') :
    Shelf P W env i start (e :: h) d' where
  numbered p n hn := by
    rw [hd.file] at hn
    rw [hd.next]
    exact S.numbered p n hn
  supply n u hn hu := by
    rw [hd.file]
    exact S.supply n u (Nat.le_of_succ_le hn) hu
  distinct := by
    rw [spoolFiles_cons hs, hfile]
    simpa using S.distinct
  files := by
    have hfiltered : ((requestOf e).toList.filter fun q => q.2 ≠ .acknowledged) = [] := by
      rw [List.filter_eq_nil_iff]
      intro q hq
      simp [hrequest q (by simpa using hq)]
    rw [spoolFiles_cons hs, hfile, requests_cons hs, List.filter_append, hfiltered]
    simp only [Option.toList_none, List.append_nil, hd.content]
    exact S.files
  old p bytes hp := by
    rw [hd.content]
    exact (S.old p bytes hp).imp_right fun hr => hr.append [_]

end Books

/-! ### Writing a file -/

/-- The writes of the spool do not fail. -/
def SpoolSound {ι : Type} (faults : Faults) (op : ClientOp) (s : ClientState ι) : Prop :=
  match op with
  | .file (.createDirAll _) | .file (.create _) | .file (.write _ _) => faults s.history.length = none
  | _ => True

section Solo
variable {ι ε α : Type} {P : ExportCrates} {W : Worker} {env : Env} {i : ι} {s u : ClientState ι}
  {Q : α → ClientState ι → Prop} {E : ε → ClientState ι → Prop} {pending : List LogRecord}

/-- The worker by itself. -/
abbrev alone (env : Env) (i : ι) : Contract clientInterface (ClientState ι) :=
  Contract.solo (execAs env i) (SpoolSound env.faults)

theorem file_solo {op : FileOp} {wrap : IoError → ε} {f : op.Value → Action ε α}
    (hok : SpoolSound env.faults (.file op) s → ∀ v, (execFile env s.history.length op s.state.disk).1 = .ok v →
      (alone env i).Yields Q E (f v) (after env i s op))
    (herror : SpoolSound env.faults (.file op) s → ∀ e,
      (execFile env s.history.length op s.state.disk).1 = .error e → E (wrap e) (after env i s op)) :
    (alone env i).Yields Q E (file wrap op >>= f) s := by
  refine Yields.solo_step fun x u hsound hx => ?_
  obtain ⟨hanswer, rfl⟩ := execAs_file hx
  cases x with
  | ok v => exact hok hsound v hanswer
  | error e => exact herror hsound e hanswer

theorem call_solo {op : ClientOp} {f : op.Answer → Action ε α}
    (h : ∀ x u, execAs env i op s = some (x, u) → (alone env i).Yields Q E (f x) u) :
    (alone env i).Yields Q E (call op >>= f) s :=
  Yields.solo_step fun x u _ hx => h x u hx

/-- A file with the request is written. -/
structure Written (P : ExportCrates) (W : Worker) (env : Env) (i : ι) (request : ExportLogsServiceRequest)
    (id : Uuid) (s u : ClientState ι) : Prop where
  issued : env.uuid (s.history.length + 1) = some id
  history : ∃ new, u.history = new ++ s.history ∧ new.length = 4 ∧ (∀ e ∈ new, isFiling e = true) ∧
    new.reverse.filterMap fileOf = [logPath W.queueDir id]
  numbered : u.state.disk.Numbered
  content : u.state.disk.content (logPath W.queueDir id) = some (P.encode request)
  others : ∀ q, q ≠ logPath W.queueDir id → u.state.disk.content q = s.state.disk.content q ∧
    u.state.disk.file q = s.state.disk.file q

/-- A file is created and written. -/
theorem writeFile_solo {bytes : Bytes} (hparent : (s.state.disk.dir p.parent).isSome = true) :
    (alone env i).Yields (fun _ u => ∃ (g g' : Handle) (now later : Time), u.history =
        ⟨i, .file (.write g bytes), (.ok g' : Except IoError Handle)⟩ ::
          ⟨i, .file (.create p), (.ok g : Except IoError Handle)⟩ :: s.history ∧
      u.state.disk = ((s.state.disk.create p now).2.write (s.state.disk.create p now).1 bytes later).2)
      (fun _ _ => False) (writeFile p bytes) s := by
  have horphan : orphan (.create p) s.state.disk = false := by rw [orphan, Option.isNone_eq_false_iff, hparent]
  unfold writeFile
  refine file_solo (fun hsound g hg => ?_) fun hsound e he => ?_
  · have hcreate := (execFile_ok hg).2.2
    obtain rfl : (s.state.disk.create p (env.clock s.history.length)).1 = g := by
      rw [hcreate] at hg
      exact Except.ok.inj hg
    refine file_solo (fun hsound g' hg' => ?_) fun hsound e he => ?_
    · have hwrite := (execFile_ok hg').2.2
      let now := env.clock s.history.length
      let later := env.clock (s.history.length + 1)
      refine Yields.solo_pure ⟨(s.state.disk.create p now).1, g', now, later, ?_, ?_⟩
      · show (⟨i, .file (.write _ _), _⟩ : ClientEvent ι) :: ⟨i, .file (.create p), _⟩ :: s.history = _
        rw [hg', hg]
      · rw [after_disk, hwrite, after_disk, hcreate]
        rfl
    · rw [execFile_sound hsound rfl] at he
      cases he
  · rw [execFile_sound hsound horphan] at he
    cases he

theorem writeLogBatch_solo (hnumbered : s.state.disk.Numbered)
    (hfree : ∀ id, env.uuid (s.history.length + 1) = some id → s.state.disk.file (logPath W.queueDir id) = none) :
    (alone env i).Yields (fun _ u => ∃ id, Written P W env i request id s u) (fun _ _ => False)
      (writeLogBatch P W.queueDir request) s := by
  unfold writeLogBatch
  refine file_solo (fun hsound v hv => ?_) fun hsound e he => ?_
  · refine call_solo fun id u₁ hid => ?_
    obtain ⟨hexec, hh⟩ := record_eq_some.mp hid
    obtain ⟨id', hissued, heq⟩ := Option.map_eq_some_iff.mp hexec
    obtain ⟨rfl, hstate⟩ := Prod.mk.inj heq
    have hdisk : u₁.state.disk = s.state.disk.createDirAll W.queueDir (env.clock s.history.length) := by
      rw [← hstate, after_disk, (execFile_ok hv).2.2]
      rfl
    have hnumbered₁ : u₁.state.disk.Numbered := hdisk ▸ hnumbered
    have hnone : u₁.state.disk.file (logPath W.queueDir id') = none := hdisk ▸ hfree id' hissued
    have hparent : (u₁.state.disk.dir (logPath W.queueDir id').parent).isSome = true := by
      rw [hdisk, logPath_eq, Path.parent, List.dropLast_concat, Disk.createDirAll_dir]
      exact .inl (List.prefix_refl _)
    refine Yields.solo_andThen (writeFile_solo hparent) ?_
    rintro _ u ⟨g, g', now, later, hhistory, hfinal⟩
    have hfour : u.history = ⟨i, .file (.write g (P.encode request)), (.ok g' : Except IoError Handle)⟩ ::
        ⟨i, .file (.create (logPath W.queueDir id')), (.ok g : Except IoError Handle)⟩ :: ⟨i, .newUuid, id'⟩ ::
          ⟨i, .file (.createDirAll W.queueDir), (.ok v : Except IoError Unit)⟩ :: s.history := by
      rw [hhistory, hh, ← hv]
      rfl
    refine Yields.solo_pure ⟨id', hissued, ⟨[_, _, _, _], hfour, rfl, ?_, rfl⟩, ?_, ?_, fun q hq => ?_⟩
    · simp [isFiling]
    · rw [hfinal]
      exact hnumbered₁.create_write
    · rw [hfinal]
      exact Disk.create_write_content _
    · rw [hfinal]
      constructor
      · rw [Disk.create_write_other _ hnumbered₁ hq (fun n hn => by rw [hnone] at hn; cases hn), hdisk]
        rfl
      · rw [Disk.create_write_file, if_neg hq, hdisk]
        rfl
  · rw [execFile_sound hsound rfl] at he
    cases he

/-- A request that was not acknowledged is filed. -/
theorem Shelf.spool {start : Disk} {h : List (ClientEvent ι)} {id : Uuid} {outcome : ExportOutcome}
    (S : Shelf P W env i start h s.state.disk) (hs : sinceStart h ≠ [])
    (hh : s.history = ⟨i, .exportLogs request, outcome⟩ :: h) (houtcome : outcome ≠ .acknowledged)
    (hw : Written P W env i request id s u) : Shelf P W env i start u.history u.state.disk := by
  obtain ⟨new, hhistory, hlength, hfiling, hfile⟩ := hw.history
  have hstarted : sinceStart s.history ≠ [] := by
    rw [hh, sinceStart_cons (.inr hs)]
    exact List.cons_ne_nil _ _
  have hfree : s.state.disk.file (logPath W.queueDir id) = none := by
    refine S.supply (s.history.length + 1) id ?_ hw.issued
    rw [hh, List.length_cons]
    omega
  have hnone : s.state.disk.content (logPath W.queueDir id) = none := by
    rw [Disk.content, hfree]
    rfl
  have hkept : ∀ p bytes, s.state.disk.content p = some bytes → u.state.disk.content p = some bytes := by
    intro p bytes hp
    rw [(hw.others p ?_).1, hp]
    rintro rfl
    rw [hnone] at hp
    cases hp
  have hfiles : spoolFiles u.history = spoolFiles h ++ [logPath W.queueDir id] := by
    rw [hhistory, spoolFiles_append hstarted, hfile, hh, spoolFiles_cons (.inr hs)]
    simp [fileOf]
  have hrequests : requests u.history = requests h ++ [(request, outcome)] := by
    rw [hhistory, requests_filing hstarted hfiling, hh, requests_cons (.inr hs)]
    rfl
  refine ⟨hw.numbered, fun n v hn hv => ?_, ?_, ?_, fun p bytes hp => ?_⟩
  · have hlater : s.history.length + 1 < n := by
      rw [hhistory, List.length_append, hlength] at hn
      omega
    have hne : logPath W.queueDir v ≠ logPath W.queueDir id := by
      intro heq
      rw [logPath_injective heq] at hv
      exact absurd (env.fresh hw.issued hv) (Nat.ne_of_lt hlater)
    rw [(hw.others _ hne).2]
    refine S.supply n v ?_ hv
    rw [hh, List.length_cons] at hlater
    omega
  · have hnew : logPath W.queueDir id ∉ spoolFiles h := by
      intro hmem
      have hheld := (List.forall₂_and_left (p := fun p => (s.state.disk.content p).isSome = true) _ _).mp
        (S.files.imp fun p q hp => ⟨by rw [hp]; rfl, hp⟩)
      have hsome := hheld.1 _ hmem
      rw [hnone] at hsome
      cases hsome
    rw [hfiles, List.nodup_append]
    refine ⟨S.distinct, List.nodup_singleton _, ?_⟩
    rintro p hp _ hq rfl
    rw [List.mem_singleton.mp hq] at hp
    exact hnew hp
  · have hfiltered : ([(request, outcome)].filter fun q => q.2 ≠ .acknowledged) = [(request, outcome)] := by
      simp [houtcome]
    rw [hfiles, hrequests, List.filter_append, hfiltered]
    exact List.rel_append (S.files.imp fun p q hp => hkept p _ hp) (.cons hw.content .nil)
  · refine (S.old p bytes hp).imp (hkept p bytes) fun hr => ?_
    rw [hhistory, hh]
    exact (hr.append [_]).append new

/-! ### Sending a batch -/

/-- A batch went out, or there was none. -/
structure Exported (P : ExportCrates) (W : Worker) (env : Env) (i : ι) (start : Disk) (pending : List LogRecord)
    (s : ClientState ι) (result : Except LayerError Unit) (u : ClientState ι) : Prop where
  ledger : Ledger P W i [] u.history
  shelf : Shelf P W env i start u.history u.state.disk
  events : ∃ new, u.history = new ++ s.history ∧ (∀ e ∈ new, isNext e.op = false) ∧
    (result = .ok () ↔ pending = [] ∨
      (⟨i, .exportLogs (exportRequestFor W.source pending), ExportOutcome.acknowledged⟩ : ClientEvent ι) ∈ new)

theorem spoolRecords_solo {start : Disk} {t : ClientState ι} {outcome : ExportOutcome}
    (L : Ledger P W i pending s.history) (S : Shelf P W env i start s.history s.state.disk)
    (hs : sinceStart s.history ≠ []) (hne : pending ≠ []) (hle : pending.length ≤ W.batchSize)
    (hdisk : t.state.disk = s.state.disk)
    (hh : t.history = ⟨i, .exportLogs (exportRequestFor W.source pending), outcome⟩ :: s.history)
    (houtcome : outcome ≠ .acknowledged) (text : String) :
    (alone env i).Yields (fun _ _ => False) (fun e u => Exported P W env i start pending s (.error e) u)
      (spoolRecords P W (exportRequestFor W.source pending) text) t := by
  have hfree : ∀ id, env.uuid (t.history.length + 1) = some id →
      t.state.disk.file (logPath W.queueDir id) = none := by
    intro id hid
    rw [hdisk]
    refine S.supply _ id ?_ hid
    rw [hh, List.length_cons]
    omega
  refine Yields.solo_bind (Yields.solo_adapt (Yields.mono
    (writeLogBatch_solo (hdisk ▸ S.numbered) hfree) ?_ fun _ _ h => h.elim))
  rintro _ u ⟨id, hw⟩
  obtain ⟨new, hhistory, -, hfiling, -⟩ := hw.history
  have hstarted : sinceStart t.history ≠ [] := by
    rw [hh, sinceStart_cons (.inr hs)]
    exact List.cons_ne_nil _ _
  refine Yields.throw (solo_stable _) ⟨?_, Shelf.spool (hdisk ▸ S) hs hh houtcome hw, ?_⟩
  · rw [hhistory]
    exact Ledger.filing (hh ▸ L.export hs hne hle outcome) hstarted hfiling
  · refine ⟨new ++ [⟨i, .exportLogs (exportRequestFor W.source pending), outcome⟩], ?_, ?_, ?_⟩
    · rw [hhistory, hh, List.append_assoc]
      rfl
    · intro e he
      rcases List.mem_append.mp he with he | he
      · exact (isFiling_spec (hfiling e he)).1
      · rw [List.mem_singleton.mp he]
        rfl
    · refine ⟨fun h => (by cases h), fun h => ?_⟩
      rcases h with hnil | hmem
      · exact absurd hnil hne
      · rcases List.mem_append.mp hmem with hmem | hmem
        · cases hfiling _ hmem
        · exact absurd (exportLogs_inj (List.mem_singleton.mp hmem)).symm houtcome

theorem exportRecords_solo {start : Disk} (L : Ledger P W i pending s.history)
    (S : Shelf P W env i start s.history s.state.disk) (hs : sinceStart s.history ≠ [])
    (hle : pending.length ≤ W.batchSize) :
    (alone env i).Holds (Exported P W env i start pending s) (exportRecords P W pending).run s := by
  have hyields : (alone env i).Yields (fun _ u => Exported P W env i start pending s (.ok ()) u)
      (fun e u => Exported P W env i start pending s (.error e) u) (exportRecords P W pending) s := by
    unfold exportRecords
    by_cases hempty : pending = []
    · rw [hempty, if_pos List.isEmpty_nil]
      refine Yields.solo_pure ⟨hempty ▸ L, S, [], rfl, fun _ h => absurd h List.not_mem_nil, ?_⟩
      exact ⟨fun _ => .inl rfl, fun _ => rfl⟩
    · rw [if_neg (by simpa using hempty)]
      refine call_solo fun outcome t ht => ?_
      obtain ⟨hexec, hh⟩ := record_eq_some.mp ht
      have hdisk : t.state.disk = s.state.disk := by rw [← (result_eq hexec).2]
      cases outcome with
      | acknowledged =>
        refine Yields.solo_pure ⟨hh ▸ L.export hs hempty hle _, ?_, [_], hh, ?_, ?_⟩
        · rw [hh, hdisk]
          refine S.pass (.inr hs) rfl (fun q hq => ?_) ⟨rfl, rfl, rfl⟩
          rw [← Option.some.inj hq]
        · intro e he
          rw [List.mem_singleton.mp he]
          rfl
        · exact ⟨fun _ => .inr (List.mem_singleton_self _), fun _ => rfl⟩
      | status text =>
        exact (spoolRecords_solo L S hs hempty hle hdisk hh (by simp) text).mono
          (fun _ _ h => h.elim) fun _ _ h => h
      | timedOut =>
        exact (spoolRecords_solo L S hs hempty hle hdisk hh (by simp) _).mono (fun _ _ h => h.elim) fun _ _ h => h
  refine Holds.mono hyields fun r u hr => ?_
  cases r with
  | ok _ => exact hr
  | error e => exact hr

theorem exportOrSpool_solo {start : Disk} (L : Ledger P W i pending s.history)
    (S : Shelf P W env i start s.history s.state.disk) (hs : sinceStart s.history ≠ [])
    (hle : pending.length ≤ W.batchSize) :
    (alone env i).Holds (fun _ u => Ledger P W i [] u.history ∧ Shelf P W env i start u.history u.state.disk)
      (exportOrSpool P W pending) s := by
  refine Holds.andThen (exportRecords_solo L S hs hle) fun r u hr => ?_
  exact Holds.solo_done ⟨hr.ledger, hr.shelf⟩

/-! ### The loop -/

/-- The books at the head of the loop, and at its end. -/
structure AtHead (P : ExportCrates) (W : Worker) (env : Env) (i : ι) (start : Disk) (r : List LogRecord ⊕ Unit)
    (u : ClientState ι) : Prop where
  short : ∀ batch, r = .inl batch → batch.length < W.batchSize
  ledger : Ledger P W i (r.elim id fun _ => []) u.history
  shelf : Shelf P W env i start u.history u.state.disk

/-- A batch goes out once it is full. -/
theorem taken_solo {start : Disk} {taken : List LogRecord} (hpositive : 0 < W.batchSize)
    (L : Ledger P W i taken s.history) (S : Shelf P W env i start s.history s.state.disk)
    (hs : sinceStart s.history ≠ []) (hle : taken.length ≤ W.batchSize) :
    (alone env i).Holds (AtHead P W env i start) (if W.batchSize ≤ taken.length then do
      exportOrSpool P W taken
      return .inl []
    else return .inl taken) s := by
  by_cases hfull : W.batchSize ≤ taken.length
  · rw [if_pos hfull]
    refine Holds.andThen (exportOrSpool_solo L S hs hle) fun _ u hu => ?_
    refine Holds.solo_done ⟨fun b hb => ?_, hu.1, hu.2⟩
    rw [← Sum.inl.inj hb]
    exact hpositive
  · rw [if_neg hfull]
    refine Holds.solo_done ⟨fun b hb => ?_, L, S⟩
    rw [← Sum.inl.inj hb]
    exact Nat.lt_of_not_le hfull

theorem turn_solo {start : Disk} {batch : List LogRecord} (H : AtHead P W env i start (.inl batch) s) :
    (alone env i).Holds (AtHead P W env i start) (turn P W batch) s := by
  have hshort : batch.length < W.batchSize := H.short batch rfl
  have hpositive : 0 < W.batchSize := Nat.zero_lt_of_lt hshort
  have hnil : ∀ b, (.inl [] : List LogRecord ⊕ Unit) = .inl b → b.length < W.batchSize := by
    intro b hb
    rw [← Sum.inl.inj hb]
    exact hpositive
  refine Holds.solo_call fun input t _ ht => ?_
  obtain ⟨hexec, hh⟩ := record_eq_some.mp ht
  have hdisk : t.state.disk = s.state.disk := by rw [← (result_eq hexec).2]
  have L : Ledger P W i (batch ++ (sampledOf P W (⟨i, .next, input⟩ : ClientEvent ι)).toList) t.history := by
    rw [hh]
    exact H.ledger.next input
  have S : Shelf P W env i start t.history t.state.disk := by
    rw [hh, hdisk]
    exact H.shelf.pass (.inl rfl) rfl (fun q hq => by cases hq) ⟨rfl, rfl, rfl⟩
  have hs : sinceStart t.history ≠ [] := by
    rw [hh, sinceStart_cons (.inl rfl)]
    exact List.cons_ne_nil _ _
  cases input with
  | closed =>
    have L : Ledger P W i batch t.history := by simpa [sampledOf] using L
    refine Holds.andThen (exportOrSpool_solo L S hs hshort.le) fun _ u hu => ?_
    exact Holds.solo_done ⟨fun _ h => (by cases h), hu.1, hu.2⟩
  | tick =>
    have L : Ledger P W i batch t.history := by simpa [sampledOf] using L
    refine Holds.andThen (exportOrSpool_solo L S hs hshort.le) fun _ u hu => ?_
    exact Holds.solo_done ⟨hnil, hu.1, hu.2⟩
  | record record =>
    have htaken : (if W.shouldSample P record then batch ++ [record] else batch) =
        batch ++ (sampledOf P W (⟨i, .next, .record record⟩ : ClientEvent ι)).toList := by
      rw [sampledOf]
      split
      · rfl
      · exact (List.append_nil batch).symm
    rw [← htaken] at L
    have hlength : (if W.shouldSample P record then batch ++ [record] else batch).length ≤ W.batchSize := by
      split
      · rw [List.length_append]
        exact hshort
      · exact hshort.le
    exact taken_solo hpositive L S hs hlength
  | flush =>
    have L : Ledger P W i batch t.history := by simpa [sampledOf] using L
    refine Holds.andThen (exportRecords_solo L S hs hshort.le) fun result u hu => ?_
    have hstarted : sinceStart u.history ≠ [] := by
      obtain ⟨new, hnew, -⟩ := hu.events
      rw [hnew, sinceStart_append hs]
      simp [hs]
    have hanswer : Answered P W i u.history result := by
      obtain ⟨new, hnew, hnext, hresult⟩ := hu.events
      refine ⟨hu.ledger.unsent_eq, new, s.history, by rw [hnew, hh], hnext, ?_⟩
      rw [H.ledger.unsent_eq]
      exact hresult
    refine Holds.solo_call fun _ v _ hv => Holds.solo_done ?_
    obtain ⟨hexec, hh'⟩ := record_eq_some.mp hv
    have hdisk' : v.state.disk = u.state.disk := by rw [← (result_eq hexec).2]
    refine ⟨hnil, ?_, ?_⟩
    · rw [hh']
      exact hu.ledger.reply hstarted hanswer
    · rw [hh', hdisk']
      exact hu.shelf.pass (.inr hstarted) rfl (fun q hq => by cases hq) ⟨rfl, rfl, rfl⟩

/-! ### The replay -/

theorem sinceStart_eq_nil {h : List (ClientEvent ι)} (hquiet : ∀ e ∈ h, isNext e.op = false) :
    sinceStart h = [] := by
  induction h with
  | nil => rfl
  | cons e h ih =>
    unfold sinceStart
    rw [hquiet e (.head _), ih fun e he => hquiet e (.tail _ he)]
    rfl

/-- Before the loop: no message was waited for yet. -/
structure Draining (P : ExportCrates) (W : Worker) (env : Env) (i : ι) (start : Disk) (s : ClientState ι) :
    Prop where
  quiet : ∀ e ∈ s.history, isNext e.op = false ∧ ∀ result, e.op ≠ .reply result
  numbered : s.state.disk.Numbered
  supply : ∀ n u, s.history.length ≤ n → env.uuid n = some u → s.state.disk.file (logPath W.queueDir u) = none
  old : ∀ p bytes, start.content p = some bytes → s.state.disk.content p = some bytes ∨
    Replayed P i p bytes s.history

variable {start : Disk}

theorem Draining.atHead (D : Draining P W env i start s) (hsize : 1 ≤ W.batchSize) :
    AtHead P W env i start (.inl []) s := by
  have hstart : sinceStart s.history = [] := sinceStart_eq_nil fun e he => (D.quiet e he).1
  have hrequests : requests s.history = [] := by
    unfold requests
    rw [hstart]
    rfl
  have hfiles : spoolFiles s.history = [] := by
    unfold spoolFiles
    rw [hstart]
    rfl
  have hsampled : sampled P W s.history = [] := by
    unfold sampled
    rw [List.filterMap_eq_nil_iff]
    intro e he
    have hnext := (D.quiet e (List.mem_reverse.mp he)).1
    obtain ⟨j, op, x⟩ := e
    cases op with
    | next => cases hnext
    | _ => rfl
  refine ⟨fun batch hbatch => ?_, ⟨?_, ?_, ?_⟩, D.numbered, D.supply, ?_, ?_, D.old⟩
  · rw [← Sum.inl.inj hbatch]
    exact hsize
  · unfold requested
    rw [hrequests, hsampled]
    rfl
  · rw [hrequests]
    exact fun _ h => absurd h List.not_mem_nil
  · intro newer older result heq
    have hreply : (⟨i, .reply result, ()⟩ : ClientEvent ι) ∈ s.history := by
      rw [heq]
      exact List.mem_append_right _ (.head _)
    exact absurd rfl ((D.quiet _ hreply).2 result)
  · rw [hfiles]
    exact List.nodup_nil
  · rw [hfiles, hrequests]
    exact .nil

/-- A call before the loop that leaves the files as they are. -/
theorem Draining.pass (D : Draining P W env i start s) {e : ClientEvent ι} {t : ClientState ι}
    (hh : t.history = e :: s.history) (hnext : isNext e.op = false) (hreply : ∀ result, e.op ≠ .reply result)
    (hd : s.state.disk.SameFiles t.state.disk) : Draining P W env i start t where
  quiet := by
    rw [hh, List.forall_mem_cons]
    exact ⟨⟨hnext, hreply⟩, D.quiet⟩
  numbered p n hn := by
    rw [hd.file] at hn
    rw [hd.next]
    exact D.numbered p n hn
  supply n u hn hu := by
    rw [hh] at hn
    rw [hd.file]
    exact D.supply n u (Nat.le_of_succ_le hn) hu
  old p bytes hp := by
    rw [hd.content, hh]
    exact (D.old p bytes hp).imp_right fun hr => hr.append [_]

theorem Draining.quietly (D : Draining P W env i start s) {op : FileOp} (hop : op.quiet = true) :
    Draining P W env i start (after env i s op) :=
  D.pass rfl rfl (fun _ h => by cases h) (execFile_quiet hop)

theorem Draining.openLock (D : Draining P W env i start s) :
    Draining P W env i start (after env i s (.openAppend (lockPath W.queueDir))) := by
  cases hx : (execFile env s.history.length (.openAppend (lockPath W.queueDir)) s.state.disk).1 with
  | error e =>
    refine D.pass rfl rfl (fun _ h => by cases h) ?_
    rw [after_disk, execFile_error (by simp) hx]
    exact ⟨rfl, rfl, rfl⟩
  | ok g =>
    have hdisk : (after env i s (.openAppend (lockPath W.queueDir))).state.disk =
        (s.state.disk.openAppend (lockPath W.queueDir) (env.clock s.history.length)).2 := by
      rw [after_disk, (execFile_ok hx).2.2]
      rfl
    cases hfile : s.state.disk.file (lockPath W.queueDir) with
    | some n =>
      refine D.pass rfl rfl (fun _ h => by cases h) ?_
      rw [hdisk, Disk.openAppend, hfile]
      exact ⟨rfl, rfl, rfl⟩
    | none =>
      refine ⟨?_, ?_, fun n u hn hu => ?_, fun p bytes hp => ?_⟩
      · exact List.forall_mem_cons.mpr ⟨⟨rfl, fun _ h => by cases h⟩, D.quiet⟩
      · rw [hdisk]
        exact D.numbered.openAppend
      · rw [hdisk, Disk.openAppend_other (logPath_ne_lock _ _)]
        exact D.supply n u (Nat.le_of_succ_le hn) hu
      · refine (D.old p bytes hp).imp (fun hcontent => ?_) fun hr => hr.append [_]
        rw [hdisk, (Disk.openAppend_content D.numbered p).2 ?_, hcontent]
        rintro rfl
        rw [Disk.content, hfile] at hcontent
        cases hcontent

/-- A file whose request was acknowledged goes. -/
theorem Draining.remove (D : Draining P W env i start s)
    (hread : ∀ bytes, s.state.disk.content p = some bytes → Replayed P i p bytes s.history) :
    Draining P W env i start (after env i s (.removeFile p)) := by
  cases hx : (execFile env s.history.length (.removeFile p) s.state.disk).1 with
  | error e =>
    refine D.pass rfl rfl (fun _ h => by cases h) ?_
    rw [after_disk, execFile_error (by simp) hx]
    exact ⟨rfl, rfl, rfl⟩
  | ok v =>
    have hdisk : (after env i s (.removeFile p)).state.disk =
        (s.state.disk.removeFile p (env.clock s.history.length)).2 := by
      rw [after_disk, (execFile_ok hx).2.2]
      rfl
    refine ⟨?_, fun q n hn => ?_, fun n u hn hu => ?_, fun q bytes hq => ?_⟩
    · exact List.forall_mem_cons.mpr ⟨⟨rfl, fun _ h => by cases h⟩, D.quiet⟩
    · rw [hdisk] at hn ⊢
      exact D.numbered.removeFile q n hn
    · cases hq : (after env i s (.removeFile p)).state.disk.file (logPath W.queueDir u) with
      | none => rfl
      | some m =>
        have hsame := Disk.removeFile_file (hdisk ▸ hq)
        rw [D.supply n u (Nat.le_of_succ_le hn) hu] at hsame
        cases hsame
    · rcases D.old q bytes hq with hcontent | hr
      · by_cases hqp : q = p
        · refine .inr ?_
          rw [hqp] at hcontent ⊢
          exact (hread bytes hcontent).append [_]
        · refine .inl ?_
          rw [hdisk]
          by_contra hne
          exact hqp (Disk.removeFile_changes (hcontent ▸ hne))
      · exact .inr (hr.append [_])

theorem readLogBatch_solo (D : Draining P W env i start s) :
    (alone env i).Yields (fun q u => Draining P W env i start u ∧ ∃ bytes, P.decode bytes = .ok q ∧
        u.history = ⟨i, .file (.read p), (.ok bytes : Except IoError Bytes)⟩ :: s.history ∧
        u.state.disk.content p = some bytes)
      (fun _ u => Draining P W env i start u) (readLogBatch P p) s := by
  unfold readLogBatch
  refine file_solo (fun _ bytes hbytes => ?_) fun _ _ _ => D.quietly rfl
  have hcontent : s.state.disk.content p = some bytes := execFile_read hbytes
  cases hdecode : P.decode bytes with
  | error e => exact Yields.throw (solo_stable _) (D.quietly rfl)
  | ok q =>
    refine Yields.solo_pure ⟨D.quietly rfl, bytes, hdecode, ?_, ?_⟩
    · rw [after, hbytes]
    · rw [after_disk, (execFile_ok hbytes).2.2]
      exact hcontent

theorem replay_solo (D : Draining P W env i start s) :
    (alone env i).Holds (fun _ u => Draining P W env i start u) (replay P p) s := by
  unfold replay
  refine Holds.andThen (readLogBatch_solo D) fun r u hr => ?_
  cases r with
  | error e => exact Holds.solo_done hr
  | ok q =>
    obtain ⟨D, bytes, hdecode, hread, hcontent⟩ := hr
    refine Holds.solo_call fun outcome t _ ht => ?_
    obtain ⟨hexec, hh⟩ := record_eq_some.mp ht
    have hdisk : t.state.disk = u.state.disk := by rw [← (result_eq hexec).2]
    have D' : Draining P W env i start t := D.pass hh rfl (fun _ h => by cases h) (hdisk ▸ ⟨rfl, rfl, rfl⟩)
    cases outcome with
    | acknowledged =>
      refine Holds.solo_call fun x v _ hv => Holds.solo_done ?_
      obtain ⟨-, rfl⟩ := execAs_file hv
      refine D'.remove fun bytes' hbytes' => ?_
      rw [hdisk, hcontent] at hbytes'
      rw [← Option.some.inj hbytes']
      exact ⟨q, [], s.history, hdecode, by rw [hh, hread]; rfl⟩
    | status text => exact Holds.solo_done D'
    | timedOut => exact Holds.solo_done D'

theorem replayAll_solo (paths : List Path) (D : Draining P W env i start s) :
    (alone env i).Holds (fun _ u => Draining P W env i start u) (replayAll P paths) s := by
  induction paths generalizing s with
  | nil => exact Holds.solo_done D
  | cons p rest ih => exact Holds.andThen (replay_solo D) fun _ _ D => ih D

theorem pendingLogBatches_solo (D : Draining P W env i start s) :
    (alone env i).Yields (fun _ u => Draining P W env i start u) (fun _ u => Draining P W env i start u)
      (pendingLogBatches W.queueDir) s := by
  unfold pendingLogBatches
  refine call_solo fun listing t ht => ?_
  obtain ⟨-, rfl⟩ := execAs_file ht
  have D : Draining P W env i start (after env i s (.readDir W.queueDir)) := D.quietly rfl
  cases listing with
  | ok entries => exact Yields.solo_pure D
  | error e => cases e with
    | notFound => exact Yields.solo_pure D
    | _ => exact Yields.throw (solo_stable _) D

theorem lock_disk {n : Nat} {w w' : World ι} {x : Unit} (h : World.exec env i n (.lock p) w = some (x, w')) :
    w'.disk = w.disk := by
  unfold World.exec at h
  cases hholder : w.holder p with
  | none =>
    simp only [hholder] at h
    rw [← (result_eq h).2]
  | some j =>
    simp only [hholder] at h
    cases h

theorem acquire_solo (D : Draining P W env i start s) :
    (alone env i).Yields (fun _ u => Draining P W env i start u) (fun _ u => Draining P W env i start u)
      (acquire id W.queueDir) s := by
  unfold acquire
  refine file_solo (fun _ _ _ => ?_) fun _ _ _ => D.quietly rfl
  have D : Draining P W env i start (after env i s (.createDirAll W.queueDir)) := D.quietly rfl
  refine file_solo (fun _ _ _ => ?_) fun _ _ _ => D.openLock
  rintro t rfl _ x u hu
  refine ⟨trivial, Holds.solo_done ?_⟩
  obtain ⟨hexec, hh⟩ := record_eq_some.mp hu
  have hdisk := lock_disk hexec
  exact D.openLock.pass hh rfl (fun _ h => by cases h) (hdisk ▸ ⟨rfl, rfl, rfl⟩)

theorem guarded_solo {p : Action IoError Unit} (hp : (alone env i).Yields (fun _ u => Draining P W env i start u)
    (fun _ u => Draining P W env i start u) p s) :
    (alone env i).Yields (fun _ u => Draining P W env i start u) (fun _ u => Draining P W env i start u)
      (guarded W.queueDir p) s := by
  refine Holds.andThen hp fun r u hr => ?_
  have D : Draining P W env i start u := by
    cases r with
    | ok _ => exact hr
    | error e => exact hr
  refine Holds.solo_call fun _ t _ ht => Holds.solo_done ?_
  obtain ⟨hexec, hh⟩ := record_eq_some.mp ht
  have D : Draining P W env i start t := by
    refine D.pass hh rfl (fun _ h => by cases h) ?_
    rw [← (result_eq hexec).2]
    exact ⟨rfl, rfl, rfl⟩
  cases r with
  | ok _ => exact D
  | error e => exact D

theorem drainSpooled_solo (D : Draining P W env i start s) :
    (alone env i).Holds (fun _ u => Draining P W env i start u) (drainSpooled P W) s := by
  have hreplay : ∀ paths t, Draining P W env i start t →
      (alone env i).Yields (fun _ u => Draining P W env i start u) (fun _ u => Draining P W env i start u)
        (ExceptT.lift (replayAll P paths) : Action IoError Unit) t := by
    intro paths t D
    refine Holds.andThen (replayAll_solo paths D) fun _ _ D => ?_
    exact Holds.solo_done D
  refine Holds.bind (Holds.mono (Q := Contract.Outcome (fun _ u => Draining P W env i start u)
    fun _ u => Draining P W env i start u) ?_ fun r u hr => Holds.solo_done ?_)
  · refine Yields.solo_andThen (acquire_solo D) fun _ t D => ?_
    refine guarded_solo (Yields.solo_bind ?_)
    refine Yields.mono (pendingLogBatches_solo D) (fun paths u D => ?_) fun _ _ D => D
    exact hreplay paths u D
  · cases r with
    | ok _ => exact hr
    | error e => exact hr

end Solo

/-! ### Every run -/

section Runs
variable {ι : Type} {P : ExportCrates} {W : Worker} {env : Env} {i : ι} {s u : ClientState ι}

theorem filter_flatMap_perm {α β : Type} (p : α → Bool) (f : α → List β) (l : List α) :
    (l.flatMap f).Perm ((l.filter p).flatMap f ++ (l.filter fun a => !p a).flatMap f) := by
  rw [← List.flatMap_append]
  exact ((List.filter_append_perm p l).symm).flatMap_right f

/-- The files hold what was not acknowledged. -/
theorem Shelf.spooled_eq {start d : Disk} {h : List (ClientEvent ι)} (S : Shelf P W env i start h d)
    (hprost : ∀ q ∈ requests h, P.decode (P.encode q.1) = .ok q.1) :
    spooled P d h = ((requests h).filter fun q => q.2 ≠ .acknowledged).flatMap fun q => requestRecords q.1 := by
  have hread : ∀ q ∈ (requests h).filter (fun q => q.2 ≠ .acknowledged), P.decode (P.encode q.1) = .ok q.1 :=
    fun q hq => hprost q (List.mem_filter.mp hq).1
  have hfiles := S.files
  unfold spooled
  generalize spoolFiles h = paths at hfiles
  generalize (requests h).filter (fun q => q.2 ≠ .acknowledged) = qs at hfiles hread
  induction hfiles with
  | nil => rfl
  | cons hp _ ih =>
    rw [List.forall_mem_cons] at hread
    rw [List.flatMap_cons, List.flatMap_cons, ih hread.2]
    unfold fileRecords
    rw [hp, Option.map_some, hread.1]

/-- What was requested was acknowledged or is spooled. -/
theorem Shelf.requested_perm {start d : Disk} {h : List (ClientEvent ι)} (S : Shelf P W env i start h d)
    (hprost : ∀ q ∈ requests h, P.decode (P.encode q.1) = .ok q.1) :
    (requested h).Perm (acknowledged h ++ spooled P d h) := by
  rw [S.spooled_eq hprost]
  have hperm := filter_flatMap_perm (fun q => decide (q.2 = .acknowledged)) (fun q => requestRecords q.1) (requests h)
  simp only [← decide_not] at hperm
  exact hperm

/-- What is said of the records at the head of the loop, with the batch so far, and at its end, with none. -/
structure Conserved (P : ExportCrates) (W : Worker) (i : ι) (start : Disk) (batch : List LogRecord)
    (u : ClientState ι) : Prop where
  /-- None is lost and none is there twice. -/
  conserved : (sampled P W u.history).Perm (acknowledged u.history ++ spooled P u.state.disk u.history ++ batch)
  distinct : (spoolFiles u.history).Nodup
  /-- The requests take the records in the order in which they came. -/
  order : requested u.history ++ batch = sampled P W u.history
  sizes : ∀ q ∈ requests u.history, 1 ≤ (requestRecords q.1).length ∧ (requestRecords q.1).length ≤ W.batchSize
  replies : ∀ newer older result, u.history = newer ++ ⟨i, .reply result, ()⟩ :: older →
    Answered P W i older result
  /-- A file that was there at the start is there, or its request was acknowledged. -/
  old : ∀ p bytes, start.content p = some bytes → u.state.disk.content p = some bytes ∨
    Replayed P i p bytes u.history

/-- The books of a worker, wherever it has come to. -/
theorem atHead_of_reaches (hsize : 1 ≤ W.batchSize) (hstart : s.history = []) (hnumbered : s.state.disk.Numbered)
    (hsupply : ∀ n id, env.uuid n = some id → s.state.disk.file (logPath W.queueDir id) = none)
    {r : List LogRecord ⊕ Unit} (h : (run P W).Reaches (execAs env i) (SpoolSound env.faults) s r u) :
    AtHead P W env i s.state.disk r u := by
  have D : Draining P W env i s.state.disk s := by
    refine ⟨?_, hnumbered, fun n id _ hid => hsupply n id hid, fun _ _ hp => .inl hp⟩
    rw [hstart]
    exact fun _ h => absurd h List.not_mem_nil
  refine Task.Reaches.invariant (I := AtHead P W env i s.state.disk) ?_ (fun batch w H => turn_solo H) h
  exact Holds.andThen (drainSpooled_solo D) fun _ _ D => Holds.solo_done (D.atHead hsize)

/-- **The exporter loses and duplicates no record**, whatever comes in whatever order, and however the exports end.
Of `prost` it is assumed that it reads back the requests of the run. -/
theorem exporter_conserves (hsize : 1 ≤ W.batchSize) (hstart : s.history = []) (hnumbered : s.state.disk.Numbered)
    (hsupply : ∀ n id, env.uuid n = some id → s.state.disk.file (logPath W.queueDir id) = none)
    {r : List LogRecord ⊕ Unit} (h : (run P W).Reaches (execAs env i) (SpoolSound env.faults) s r u)
    (hprost : ∀ q ∈ requests u.history, P.decode (P.encode q.1) = .ok q.1) :
    Conserved P W i s.state.disk (r.elim id fun _ => []) u ∧
      ∀ batch, r = .inl batch → batch.length < W.batchSize := by
  have H := atHead_of_reaches hsize hstart hnumbered hsupply h
  refine ⟨⟨?_, H.shelf.distinct, H.ledger.order, H.ledger.sizes, H.ledger.replies, H.shelf.old⟩, H.short⟩
  rw [← H.ledger.order]
  exact (H.shelf.requested_perm hprost).append_right _

end Runs

/-! A batch of two that times out, and one record that is flushed. -/

def blankRecord : LogRecord := ⟨0, 0, 9, "INFO", none, [], 0, 0, [], [], ""⟩

def sampleWorker : Worker := ⟨⟨"app", "linux", "1", .repeated 0⟩, 2, ["queue"], some 1⟩

/-- Requests of such records are known by how many they have. -/
def countCrates : ExportCrates where
  encode q := [.ofNat (requestRecords q).length]
  decode bytes := .ok (exportRequestFor sampleWorker.source (List.replicate (bytes.headD 0).toNat blankRecord))
  ioText _ := ""
  round := id

def busyEnv : Env :=
  {quietEnv with
    input := fun n =>
      if n = 5 ∨ n = 6 ∨ n = 12 then .record blankRecord else if n = 13 then .flush else .closed
    exported := fun n => if n = 14 then .acknowledged else .timedOut}

def idleStart : ClientState Unit := ⟨⟨.empty, fun _ => none⟩, []⟩

/-- The state once the channel was closed, at the fourth message. -/
def busyEnd : ClientState Unit :=
  let runs := (run countCrates sampleWorker).turns (execAs busyEnv ()) (fun _ _ => true) 5 idleStart
  (runs.map Prod.snd).getD idleStart

theorem busyEnd_reached : (run countCrates sampleWorker).Reaches (execAs busyEnv ()) (SpoolSound busyEnv.faults)
    idleStart (.inr ()) busyEnd := by
  have hrun : ((run countCrates sampleWorker).turns (execAs busyEnv ()) (fun _ _ => true) 5 idleStart).any
      (fun x => x.1.isRight) = true := by decide +kernel
  obtain ⟨⟨r, u⟩, hx, hright⟩ := (Option.any_eq_true ..).mp hrun
  obtain ⟨_, rfl⟩ := Sum.isRight_iff.mp hright
  have hu : busyEnd = u := by
    unfold busyEnd
    rw [hx]
    rfl
  rw [hu]
  refine Task.reaches_of_turns (fun op s _ => ?_) hx
  unfold SpoolSound
  split <;> trivial

theorem busyEnd_requests : requests busyEnd.history =
    [(exportRequestFor sampleWorker.source [blankRecord, blankRecord], .timedOut),
      (exportRequestFor sampleWorker.source [blankRecord], .acknowledged)] := by
  with_unfolding_all rfl

theorem exporter_conserves_busy :
    (requests busyEnd.history).length = 2 ∧ Conserved countCrates sampleWorker () Disk.empty [] busyEnd := by
  refine ⟨by rw [busyEnd_requests]; rfl, ?_⟩
  refine (exporter_conserves (by decide) rfl (fun _ _ h => by cases h) (fun _ _ _ => rfl) busyEnd_reached ?_).1
  rw [busyEnd_requests]
  exact List.forall_mem_cons.mpr ⟨rfl, List.forall_mem_singleton.mpr rfl⟩

end Worker

end Detritus.Client
