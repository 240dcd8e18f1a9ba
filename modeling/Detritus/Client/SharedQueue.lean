import Detritus.Process.Conduct
import Detritus.Client.Exports

/-! A queue directory that workers share.

One worker files a batch while any number of others replay what they find. A replay takes
the lock of the directory, the worker that files does not: between the call that creates
the file and the one that writes it a replay can read it. It then reads no bytes, which are
a request, the one without records, and once that is acknowledged the file is removed. As
long as no file is read between the two calls the batch stays in its file until its own
request was acknowledged. -/
namespace Detritus.Client
open Files Protocol Process Contract Discipline

/-- The worker that files a request is called `none`. -/
structure SharedQueue (κ : Type) where
  crates : ExportCrates
  env : Env
  dir : Path
  request : ExportLogsServiceRequest
  drainer : κ → Worker
  shared : ∀ k, (drainer k).queueDir = dir

namespace SharedQueue
variable {κ : Type}

@[reducible] def Result : Option κ → Type
  | none => Except IoError Path
  | some _ => Unit

variable (Y : SharedQueue κ) {p : Path} {n : Nat}

/-- The one writes a batch, the others replay the queue. -/
def program : (i : Option κ) → Program clientInterface (Result i)
  | none => (writeLogBatch Y.crates Y.dir Y.request).run
  | some k => (Y.drainer k).drainSpooled Y.crates

def pool [DecidableEq κ] : Pool clientInterface (Option κ) (ClientState (Option κ)) Result where
  task i := Task.once (Y.program i)
  exec := execAs Y.env
  stop i w := some ⟨w.state.release i, w.history⟩

/-- Nobody has called yet, and no lock is held. -/
def start [DecidableEq κ] (disk : Disk) : Config Y.pool := Y.pool.start ⟨⟨disk, fun _ => none⟩, []⟩

/-- The task has read a file. -/
abbrev hasRead {τ : Type} (i : τ) (p : Path) (x : Except IoError Bytes) : ClientEvent τ := ⟨i, .file (.read p), x⟩

/-- A request was acknowledged. -/
abbrev wasAcked {τ : Type} (i : τ) (q : ExportLogsServiceRequest) : ClientEvent τ :=
  ⟨i, .exportLogs q, ExportOutcome.acknowledged⟩

/-- The record is in a request that was acknowledged, or in a file of the directory. -/
def Kept (w : ClientState (Option κ)) (record : LogRecord) : Prop :=
  (∃ i q, wasAcked i q ∈ w.history ∧ record ∈ requestRecords q) ∨
    ∃ p ∈ w.state.disk.children Y.dir, record ∈ Worker.fileRecords Y.crates w.state.disk p

/-! ### What a replay does -/

section Draining
variable {τ : Type} {P : ExportCrates} {dir : Path} {i : τ} {h : List (ClientEvent τ)}

/-- The task has read a file, and the request in it was acknowledged. -/
def Replays (P : ExportCrates) (i : τ) (p : Path) (h : List (ClientEvent τ)) : Prop :=
  ∃ bytes q, hasRead i p (.ok bytes) ∈ h ∧ P.decode bytes = .ok q ∧ wasAcked i q ∈ h

theorem Replays.mono {h' : List (ClientEvent τ)} (hh : h ⊆ h') (hr : Replays P i p h) : Replays P i p h' := by
  obtain ⟨bytes, q, hread, hdecode, hacked⟩ := hr
  exact ⟨bytes, q, hh hread, hdecode, hh hacked⟩

/-- Files are removed only once they were replayed. -/
def draining (P : ExportCrates) (dir : Path) : Discipline clientInterface τ where
  fits _ _ := True
  may i op h := match op with
    | .file (.removeFile p) => Replays P i p h
    | .file (.openAppend p) => p = lockPath dir
    | .file op => op.quiet = true
    | .lock _ | .unlock _ | .exportLogs _ => True
    | _ => False
  grows := by
    intro i op h h' hh hmay
    cases op with
    | file op => cases op with
      | removeFile p => exact Replays.mono hh hmay
      | _ => exact hmay
    | _ => exact hmay

theorem acquire_drains : (draining P dir).Minds i (fun _ _ => True) (acquire id dir : Action IoError Unit) h :=
  minds_file rfl fun _ _ => minds_file rfl fun _ _ => ⟨trivial, fun _ _ _ _ => trivial⟩

theorem pendingLogBatches_drains :
    (draining P dir).Minds i (fun _ _ => True) (pendingLogBatches dir) h := by
  refine minds_call rfl fun listing _ => ?_
  cases listing with
  | ok entries => exact .pure trivial
  | error e => cases e with
    | notFound => exact .pure trivial
    | _ => exact .throw _

theorem replay_drains (path : Path) : (draining P dir).Obeys i (fun _ _ => True) (Worker.replay P path) h := by
  refine Obeys.bind
    (Q := fun r h => ∀ q, r = .ok q → ∃ bytes, hasRead i path (.ok bytes) ∈ h ∧ P.decode bytes = .ok q) ?_ ?_
  · exact minds_file rfl fun bytes _ q hq => ⟨bytes, List.mem_cons_self .., hq⟩
  · intro r h' _ hr
    cases r with
    | error e => trivial
    | ok q =>
      obtain ⟨bytes, hread, hdecode⟩ := hr q rfl
      refine ⟨trivial, fun outcome _ => ?_⟩
      cases outcome with
      | acknowledged =>
        exact ⟨⟨bytes, q, List.mem_cons_of_mem _ hread, hdecode, List.mem_cons_self ..⟩, fun _ _ => trivial⟩
      | status text => trivial
      | timedOut => trivial

theorem replayAll_drains (paths : List Path) :
    (draining P dir).Obeys i (fun _ _ => True) (Worker.replayAll P paths) h := by
  induction paths generalizing h with
  | nil => trivial
  | cons path rest ih => exact (replay_drains path).bind fun _ _ _ _ => ih

theorem drainSpooled_drains (W : Worker) :
    (draining P W.queueDir).Obeys i (fun _ _ => True) (W.drainSpooled P) h := by
  refine Obeys.bind (Q := fun _ _ => True) ?_ fun _ _ _ _ => trivial
  refine Minds.obeys (Minds.bind (R := fun _ _ => True) acquire_drains fun _ h _ _ => ?_)
  refine Obeys.bind (Q := fun _ _ => True) ?_ fun r h _ _ => ⟨trivial, fun _ _ _ _ => trivial⟩
  refine Minds.obeys
    (Minds.bind (R := fun _ _ => True) pendingLogBatches_drains fun paths h _ _ => ?_)
  exact (replayAll_drains paths).bind fun _ _ _ _ _ _ => trivial

end Draining

/-! ### Half-written files -/

section Whole
variable {h h' : List (ClientEvent (Option κ))}

/-- The file was to be created. -/
def creates (p : Path) (e : ClientEvent (Option κ)) : Bool :=
  match e.task, e.op with
  | none, .file (.create q) => q = p
  | _, _ => false

/-- The file was to be written. -/
def writes (e : ClientEvent (Option κ)) : Bool :=
  match e.task, e.op with
  | none, .file (.write _ _) => true
  | _, _ => false

/-- Between the call that creates a file and the one that writes it. -/
def halfway (p : Path) (h : List (ClientEvent (Option κ))) : Bool := h.any (creates p) && !h.any writes

/-- No file is read halfway. -/
def readsWhole (op : ClientOp) (w : ClientState (Option κ)) : Bool :=
  match op with
  | .file (.read p) => !halfway p w.history
  | _ => true

theorem any_apart {f : ClientEvent (Option κ) → Bool} (hf : ∀ e, e.task ≠ none → f e = false) (a : Apart none h h') :
    h'.any f = h.any f := by
  obtain ⟨new, rfl, hnew⟩ := a
  have hnone : new.any f = false := by
    rw [List.any_eq_false]
    intro e he
    rw [hf e (hnew e he)]
    exact Bool.false_ne_true
  rw [List.any_append, hnone, Bool.false_or]

theorem writes_apart (a : Apart none h h') : h'.any writes = h.any writes := by
  refine any_apart (fun e he => ?_) a
  unfold writes
  split
  · next htask _ => exact absurd htask he
  · rfl

theorem halfway_apart (a : Apart none h h') (p : Path) : halfway p h' = halfway p h := by
  have hcreates : h'.any (creates p) = h.any (creates p) := by
    refine any_apart (fun e he => ?_) a
    unfold creates
    split
    · next htask _ => exact absurd htask he
    · rfl
  unfold halfway
  rw [hcreates, writes_apart a]

end Whole

/-! ### What the others do to the files -/

section Emptied
variable {dir : Path} {R R' : Path → Prop} {d e f : Disk}

theorem content_none (h : d.file p = none) : d.content p = none := by
  rw [Disk.content, h]
  rfl

/-- A file is as it was, or it is gone and may be so. -/
structure Emptied (dir : Path) (R : Path → Prop) (d e : Disk) : Prop where
  numbered : e.Numbered
  files : ∀ u, (e.file (logPath dir u) = d.file (logPath dir u) ∧
      e.content (logPath dir u) = d.content (logPath dir u)) ∨
    e.file (logPath dir u) = none ∧ R (logPath dir u)

theorem Emptied.same (hn : d.Numbered) (he : d.SameFiles e) : Emptied dir R d e := by
  refine ⟨fun p m hm => ?_, fun u => .inl ⟨by rw [he.file], he.content _⟩⟩
  rw [he.file] at hm
  rw [he.next]
  exact hn p m hm

theorem Emptied.mono (h : Emptied dir R d e) (hR : ∀ p, R p → R' p) : Emptied dir R' d e :=
  ⟨h.numbered, fun u => (h.files u).imp_right fun hgone => ⟨hgone.1, hR _ hgone.2⟩⟩

theorem Emptied.trans (a : Emptied dir R d e) (b : Emptied dir R e f) : Emptied dir R d f := by
  refine ⟨b.numbered, fun u => ?_⟩
  rcases b.files u with ⟨hfile, hcontent⟩ | hgone
  · rw [hfile, hcontent]
    exact a.files u
  · exact .inr hgone

theorem Emptied.content (h : Emptied dir R d e) {u : Uuid} {bytes : Bytes}
    (he : e.content (logPath dir u) = some bytes) : d.content (logPath dir u) = some bytes := by
  rcases h.files u with ⟨-, hsame⟩ | ⟨hnone, -⟩
  · exact hsame ▸ he
  · rw [content_none hnone] at he
    cases he

/-- What an operation of a replay does to the files. -/
theorem draining_emptied {τ : Type} {P : ExportCrates} {env : Env} {i : τ} {op : FileOp} {h : List (ClientEvent τ)}
    (hd : d.Numbered) (hmay : (draining P dir).may i (.file op) h) :
    Emptied dir (fun p => Replays P i p h) d (execFile env n op d).2 := by
  cases op with
  | removeFile p =>
    cases hx : (execFile env n (.removeFile p) d).1 with
    | error e =>
      rw [execFile_error (by simp) hx]
      exact .same hd ⟨rfl, rfl, rfl⟩
    | ok v =>
      have hdisk : (execFile env n (.removeFile p) d).2 = (d.removeFile p (env.clock n)).2 := by
        rw [(execFile_ok hx).2.2]
        rfl
      rw [hdisk]
      refine ⟨hd.removeFile, fun u => ?_⟩
      by_cases hp : logPath dir u = p
      · rw [hp]
        exact .inr ⟨Disk.removeFile_self, hmay⟩
      · exact .inl ⟨Disk.removeFile_other hp, by_contra fun hne => hp (Disk.removeFile_changes hne)⟩
  | openAppend p =>
    obtain rfl : p = lockPath dir := hmay
    cases hx : (execFile env n (.openAppend (lockPath dir)) d).1 with
    | error e =>
      rw [execFile_error (by simp) hx]
      exact .same hd ⟨rfl, rfl, rfl⟩
    | ok g =>
      have hdisk : (execFile env n (.openAppend (lockPath dir)) d).2 =
          (d.openAppend (lockPath dir) (env.clock n)).2 := by
        rw [(execFile_ok hx).2.2]
        rfl
      rw [hdisk]
      refine ⟨hd.openAppend, fun u => .inl ⟨Disk.openAppend_other (logPath_ne_lock dir u), ?_⟩⟩
      exact (Disk.openAppend_content hd _).2 (logPath_ne_lock dir u)
  | createDirAll p | read p | readDir p | sync g | tryExists p | metadata p =>
    exact .same hd (execFile_quiet rfl)
  | _ => cases hmay

end Emptied

section Drained
variable {P : ExportCrates} {dir : Path} {env : Env} {k : κ} {s t u : ClientState (Option κ)}

/-- What the others did. They have read what there was, and no file halfway. -/
structure Drained (P : ExportCrates) (dir : Path) (s t : ClientState (Option κ)) : Prop where
  apart : Apart none s.history t.history
  emptied : Emptied dir (fun p => ∃ k, Replays P (some k) p t.history) s.state.disk t.state.disk
  reads : ∀ u k bytes, hasRead (some k) (logPath dir u) (.ok bytes) ∈ t.history →
    hasRead (some k) (logPath dir u) (.ok bytes) ∈ s.history ∨ s.state.disk.content (logPath dir u) = some bytes
  whole : ∀ p, halfway p s.history = true →
    ∀ k x, hasRead (some k) p x ∈ t.history → hasRead (some k) p x ∈ s.history

theorem Drained.same (hn : s.state.disk.Numbered) (hd : s.state.disk.SameFiles t.state.disk)
    (hh : t.history = s.history) : Drained P dir s t :=
  ⟨hh ▸ .refl, .same hn hd, fun _ _ _ h => .inl (hh ▸ h), fun _ _ _ _ h => hh ▸ h⟩

theorem Drained.trans (a : Drained P dir s t) (b : Drained P dir t u) : Drained P dir s u := by
  refine ⟨a.apart.trans b.apart, ?_, fun v k bytes h => ?_, fun p hp k x h => ?_⟩
  · exact (a.emptied.mono fun p hr => hr.imp fun k hr => hr.mono b.apart.subset).trans b.emptied
  · rcases b.reads v k bytes h with h | hcontent
    · exact a.reads v k bytes h
    · exact .inr (a.emptied.content hcontent)
  · exact a.whole p hp k x (b.whole p ((halfway_apart a.apart p).trans hp) k x h)

/-- A call of a replay that reads no file halfway. -/
theorem drained_call {op : ClientOp} {x : op.Answer} (hn : s.state.disk.Numbered)
    (hmay : (draining P dir).may (some k) op s.history) (hwhole : readsWhole op s = true)
    (hx : execAs env (some k) op s = some (x, t)) : Drained P dir s t := by
  obtain ⟨hexec, hh⟩ := record_eq_some.mp hx
  have hemptied : Emptied dir (fun p => Replays P (some k) p s.history) s.state.disk t.state.disk := by
    cases op with
    | file op =>
      rw [(execAs_file hx).2]
      exact draining_emptied hn hmay
    | lock p =>
      rw [Worker.lock_disk hexec]
      exact .same hn ⟨rfl, rfl, rfl⟩
    | unlock p | exportLogs q =>
      rw [← (result_eq hexec).2]
      exact .same hn ⟨rfl, rfl, rfl⟩
    | _ => cases hmay
  have hgrow : s.history ⊆ t.history := by
    rw [hh]
    exact List.subset_cons_self ..
  refine ⟨hh ▸ .cons (by simp), hemptied.mono fun p hr => ⟨k, hr.mono hgrow⟩, fun u j bytes hmem => ?_,
    fun p hp j y hmem => ?_⟩
  · rw [hh] at hmem
    rcases List.mem_cons.mp hmem with heq | hmem
    · cases heq
      exact .inr (execFile_read (execAs_file hx).1)
    · exact .inl hmem
  · rw [hh] at hmem
    rcases List.mem_cons.mp hmem with heq | hmem
    · cases heq
      rw [readsWhole, hp] at hwhole
      cases hwhole
    · exact hmem

end Drained

/-! ### The worker that files -/

section Filing

/-- What each task relies on, and what it does. -/
def relies : Option κ → ClientState (Option κ) → ClientState (Option κ) → Prop
  | none => fun s t => s.state.disk.Numbered → Drained Y.crates Y.dir s t
  | some _ => fun s t => s.history ⊆ t.history

def guarantees : Option κ → ClientState (Option κ) → ClientState (Option κ) → Prop
  | none => fun s t => s.history ⊆ t.history
  | some _ => fun s t => s.history ⊆ t.history ∧ (s.state.disk.Numbered → Drained Y.crates Y.dir s t)

theorem relies_refl (i : Option κ) (s : ClientState (Option κ)) : Y.relies i s s := by
  cases i with
  | none => exact fun hn => .same hn ⟨rfl, rfl, rfl⟩ rfl
  | some k => exact List.Subset.refl _

theorem relies_trans (i : Option κ) {s t u : ClientState (Option κ)} (a : Y.relies i s t) (b : Y.relies i t u) :
    Y.relies i s u := by
  cases i with
  | none => exact fun hn => (a hn).trans (b (a hn).emptied.numbered)
  | some k => exact List.Subset.trans a b

def contract (i : Option κ) : Contract clientInterface (ClientState (Option κ)) :=
  ⟨execAs Y.env i, fun op w => readsWhole op w = true, Y.relies i, Y.guarantees i, Y.relies_refl i,
    Y.relies_trans i⟩

/-- Nobody has read the file. -/
def Unread (p : Path) (w : ClientState (Option κ)) : Prop :=
  ∀ k bytes, hasRead (some k) p (.ok bytes) ∉ w.history

/-- Before the file is created. -/
structure Ready (w : ClientState (Option κ)) : Prop where
  numbered : w.state.disk.Numbered
  free : ∀ n u, Y.env.uuid n = some u → w.state.disk.file (logPath Y.dir u) = none
  unread : ∀ n u, Y.env.uuid n = some u → Unread (logPath Y.dir u) w
  unwritten : w.history.any writes = false

/-- The file is there, and nobody has read it. -/
structure Begun (p : Path) (handle : Handle) (w : ClientState (Option κ)) : Prop where
  numbered : w.state.disk.Numbered
  halfway : halfway p w.history = true
  file : w.state.disk.file p = some handle.inode
  content : w.state.disk.content p = some []
  unread : Unread p w

/-- Who has read the file has read the request, and if the file is gone the request was acknowledged. -/
structure Filed (p : Path) (w : ClientState (Option κ)) : Prop where
  numbered : w.state.disk.Numbered
  content : ∀ bytes, w.state.disk.content p = some bytes → bytes = Y.crates.encode Y.request
  reads : ∀ k bytes, hasRead (some k) p (.ok bytes) ∈ w.history → bytes = Y.crates.encode Y.request
  safe : w.state.disk.content p = some (Y.crates.encode Y.request) ∨
    ∃ k, wasAcked (some k) Y.request ∈ w.history

variable {Y} {s t : ClientState (Option κ)} {v : Uuid}

theorem Ready.stable : (Y.contract none).Stable Y.Ready := by
  intro s t hr h
  have hd : Drained Y.crates Y.dir s t := hr h.numbered
  have hfile : ∀ n u, Y.env.uuid n = some u → t.state.disk.file (logPath Y.dir u) = none := by
    intro n u hu
    rcases hd.emptied.files u with ⟨hsame, -⟩ | ⟨hnone, -⟩
    · rw [hsame]
      exact h.free n u hu
    · exact hnone
  refine ⟨hd.emptied.numbered, hfile, fun n u hu k bytes hread => ?_, (writes_apart hd.apart).trans h.unwritten⟩
  rcases hd.reads u k bytes hread with hbefore | hcontent
  · exact h.unread n u hu k bytes hbefore
  · rw [content_none (h.free n u hu)] at hcontent
    cases hcontent

theorem Begun.stable {handle : Handle} : (Y.contract none).Stable (Begun (logPath Y.dir v) handle) := by
  intro s t hr h
  have hd : Drained Y.crates Y.dir s t := hr h.numbered
  have hunread : Unread (logPath Y.dir v) t := fun k bytes hread =>
    h.unread k bytes (hd.whole _ h.halfway k _ hread)
  rcases hd.emptied.files v with ⟨hfile, hcontent⟩ | ⟨-, k, bytes, q, hread, -⟩
  · exact ⟨hd.emptied.numbered, (halfway_apart hd.apart _).trans h.halfway, hfile.trans h.file,
      hcontent.trans h.content, hunread⟩
  · exact absurd hread (hunread k bytes)

theorem Filed.stable (hprost : Y.crates.decode (Y.crates.encode Y.request) = .ok Y.request) :
    (Y.contract none).Stable (Y.Filed (logPath Y.dir v)) := by
  intro s t hr h
  have hd : Drained Y.crates Y.dir s t := hr h.numbered
  have hreads : ∀ k bytes, hasRead (some k) (logPath Y.dir v) (.ok bytes) ∈ t.history →
      bytes = Y.crates.encode Y.request := by
    intro k bytes hread
    rcases hd.reads v k bytes hread with hbefore | hcontent
    · exact h.reads k bytes hbefore
    · exact h.content bytes hcontent
  refine ⟨hd.emptied.numbered, fun bytes hb => h.content bytes (hd.emptied.content hb), hreads, ?_⟩
  rcases hd.emptied.files v with ⟨-, hcontent⟩ | ⟨-, k, bytes, q, hread, hdecode, hacked⟩
  · rw [hcontent]
    exact h.safe.imp_right fun hk => hk.imp fun k hacked => hd.apart.subset hacked
  · -- the file is gone: what was read of it is the request
    rw [hreads k bytes hread, hprost] at hdecode
    rw [← Except.ok.inj hdecode] at hacked
    exact .inr ⟨k, hacked⟩

/-- A file operation of the worker that files, and the rest if it succeeds. -/
theorem file_yields {α : Type} {Q : α → ClientState (Option κ) → Prop} {A : ClientState (Option κ) → Prop}
    {op : FileOp} {wrap : IoError → IoError} {f : op.Value → Action IoError α}
    (hA : (Y.contract none).Stable A) (hs : A s)
    (hok : ∀ t x, A t → (execFile Y.env t.history.length op t.state.disk).1 = .ok x →
      (Y.contract none).Yields Q (fun _ _ => True) (f x) (after Y.env none t op)) :
    (Y.contract none).Yields Q (fun _ _ => True) (file wrap op >>= f) s := by
  refine Yields.step (fun _ _ _ _ h => h) A hA hs fun t x u ht _ hx => ?_
  obtain ⟨hanswer, rfl⟩ := execAs_file hx
  refine ⟨List.subset_cons_self .., ?_⟩
  cases x with
  | ok v => exact hok t v ht hanswer
  | error e => trivial

/-- A call of the worker itself that creates nothing. -/
theorem Ready.pass {e : ClientEvent (Option κ)} (h : Y.Ready s) (hh : t.history = e :: s.history)
    (htask : e.task = none) (hwrites : writes e = false)
    (hd : s.state.disk.SameFiles t.state.disk) : Y.Ready t := by
  refine ⟨fun p m hm => ?_, fun n u hu => ?_, fun n u hu k bytes hread => ?_, ?_⟩
  · rw [hd.file] at hm
    rw [hd.next]
    exact h.numbered p m hm
  · rw [hd.file]
    exact h.free n u hu
  · rw [hh] at hread
    rcases List.mem_cons.mp hread with heq | hread
    · rw [← heq] at htask
      cases htask
    · exact h.unread n u hu k bytes hread
  · rw [hh, List.any_cons, hwrites, h.unwritten]
    rfl

theorem Ready.create {handle : Handle} (h : Y.Ready s) (hv : Y.env.uuid n = some v)
    (hok : (execFile Y.env s.history.length (.create (logPath Y.dir v)) s.state.disk).1 = .ok handle) :
    Begun (logPath Y.dir v) handle (after Y.env none s (.create (logPath Y.dir v))) ∧
      handle.offset = 0 ∧ handle.append = false := by
  have hexec := (execFile_ok hok).2.2
  have hcreate : (execFile Y.env s.history.length (.create (logPath Y.dir v)) s.state.disk) =
      ((.ok ⟨s.state.disk.next, 0, false⟩ : Except IoError Handle),
        s.state.disk.fresh (logPath Y.dir v) (Y.env.clock s.history.length)) := by
    rw [hexec, FileOp.exec, Disk.create_none (h.free n v hv)]
  rw [hcreate] at hok
  obtain rfl := Except.ok.inj hok
  have hdisk : (after Y.env none s (.create (logPath Y.dir v))).state.disk =
      s.state.disk.fresh (logPath Y.dir v) (Y.env.clock s.history.length) := by
    rw [after_disk, hcreate]
  refine ⟨⟨?_, ?_, ?_, ?_, fun k bytes hread => ?_⟩, rfl, rfl⟩
  · rw [hdisk]
    exact h.numbered.fresh
  · unfold SharedQueue.halfway
    rw [after, List.any_cons, List.any_cons, h.unwritten]
    simp [creates, writes]
  · rw [hdisk, Disk.fresh_file, Function.update_self]
  · rw [hdisk, Disk.content, Disk.fresh_file, Disk.fresh_inode, Function.update_self, Option.map_some,
      Function.update_self]
  · rcases List.mem_cons.mp hread with heq | hread
    · cases heq
    · exact h.unread n v hv k bytes hread

theorem Begun.write {handle written : Handle} (h : Begun p handle s) (hstart : handle.offset = 0)
    (happend : handle.append = false)
    (hok : (execFile Y.env s.history.length (.write handle (Y.crates.encode Y.request)) s.state.disk).1 =
      .ok written) : Y.Filed p (after Y.env none s (.write handle (Y.crates.encode Y.request))) := by
  have hempty : (s.state.disk.inode handle.inode).content = [] := by
    have hcontent := h.content
    rw [Disk.content, h.file, Option.map_some] at hcontent
    exact Option.some.inj hcontent
  have hdisk : (after Y.env none s (.write handle (Y.crates.encode Y.request))).state.disk =
      (s.state.disk.write handle (Y.crates.encode Y.request) (Y.env.clock s.history.length)).2 := by
    rw [after_disk, (execFile_ok hok).2.2]
    rfl
  have hcontent : (after Y.env none s (.write handle (Y.crates.encode Y.request))).state.disk.content p =
      some (Y.crates.encode Y.request) := by
    rw [hdisk, Disk.content, Disk.write, Disk.store_file, h.file, Option.map_some, Disk.store_inode,
      Function.update_self, Disk.position, happend, hempty, hstart]
    simp [overlay]
  refine ⟨?_, fun bytes hb => ?_, fun k bytes hread => ?_, .inl hcontent⟩
  · rw [hdisk]
    exact h.numbered
  · rw [hcontent] at hb
    exact (Option.some.inj hb).symm
  · rcases List.mem_cons.mp hread with heq | hread
    · cases heq
    · exact absurd hread (h.unread k bytes)

/-- A file that is created under a name of its own, and written. -/
theorem writeFile_yields (hprost : Y.crates.decode (Y.crates.encode Y.request) = .ok Y.request)
    (hv : Y.env.uuid n = some v) (h : Y.Ready s) :
    (Y.contract none).Yields (fun _ w => Y.Filed (logPath Y.dir v) w) (fun _ _ => True)
      (writeFile (logPath Y.dir v) (Y.crates.encode Y.request)) s := by
  unfold writeFile
  refine file_yields Ready.stable h fun t handle ht hok => ?_
  obtain ⟨hbegun, hstart, happend⟩ := ht.create hv hok
  refine file_yields Begun.stable hbegun fun t written ht hok => ?_
  exact Yields.pure (Filed.stable hprost) (ht.write hstart happend hok)

theorem writeLogBatch_yields (hprost : Y.crates.decode (Y.crates.encode Y.request) = .ok Y.request)
    (h : Y.Ready s) : (Y.contract none).Yields
      (fun path w => ∃ v, path = logPath Y.dir v ∧ Y.Filed (logPath Y.dir v) w) (fun _ _ => True)
      (writeLogBatch Y.crates Y.dir Y.request) s := by
  have hstable : ∀ path, (Y.contract none).Stable fun w =>
      ∃ v, path = logPath Y.dir v ∧ Y.Filed (logPath Y.dir v) w := by
    intro path s t hr hs
    obtain ⟨v, hpath, hfiled⟩ := hs
    exact ⟨v, hpath, Filed.stable hprost s t hr hfiled⟩
  unfold writeLogBatch
  refine file_yields Ready.stable h fun t _ ht _ => ?_
  refine Yields.step (fun _ _ _ _ h => h) Y.Ready Ready.stable (ht.pass rfl rfl rfl (execFile_quiet rfl))
    fun t x u ht _ hx => ?_
  obtain ⟨hexec, hh⟩ := record_eq_some.mp hx
  obtain ⟨v, hv, heq⟩ := Option.map_eq_some_iff.mp hexec
  obtain ⟨rfl, hstate⟩ := Prod.mk.inj heq
  have hu : Y.Ready u := ht.pass hh rfl rfl (hstate ▸ ⟨rfl, rfl, rfl⟩)
  have hgrow : t.history ⊆ u.history := by
    rw [hh]
    exact List.subset_cons_self ..
  refine ⟨hgrow, ?_⟩
  refine Yields.andThen (fun _ _ _ _ h => h) (writeFile_yields hprost hv hu) ?_
  exact fun _ w hw => Yields.pure (hstable _) ⟨v, rfl, hw⟩

theorem Filed.kept (hprost : Y.crates.decode (Y.crates.encode Y.request) = .ok Y.request)
    (h : Y.Filed (logPath Y.dir v) s) : ∀ record ∈ requestRecords Y.request, Y.Kept s record := by
  intro record hrecord
  rcases h.safe with hcontent | ⟨k, hacked⟩
  · refine .inr ⟨logPath Y.dir v, Disk.mem_children.mpr ⟨?_, ?_, ?_⟩, ?_⟩
    · rw [logPath_eq]
      exact List.append_ne_nil_of_right_ne_nil _ (List.cons_ne_nil _ _)
    · rw [logPath_eq, Path.parent, List.dropLast_concat]
    · cases hfile : s.state.disk.file (logPath Y.dir v) with
      | none =>
        rw [content_none hfile] at hcontent
        cases hcontent
      | some n =>
        rw [Disk.occupied, hfile]
        rfl
    · rw [Worker.fileRecords, hcontent, Option.map_some, hprost]
      exact hrecord
  · exact .inl ⟨some k, Y.request, hacked, hrecord⟩

theorem drainSpooled_holds (k : κ) (s : ClientState (Option κ)) :
    (Y.contract (some k)).Holds (fun _ _ => True) ((Y.drainer k).drainSpooled Y.crates) s := by
  have hobeys : (draining Y.crates Y.dir).Obeys (some k) (fun _ _ => True)
      ((Y.drainer k).drainSpooled Y.crates) s.history := by
    have h := drainSpooled_drains (P := Y.crates) (i := some k) (h := s.history) (Y.drainer k)
    rw [Y.shared k] at h
    exact h
  refine (Holds.of_obeys (M := World.exec Y.env (some k)) (A := fun _ => True) rfl (fun _ _ _ h => h)
    (fun _ _ _ hr => hr) (fun _ _ _ _ _ _ => trivial) ?_ (fun _ _ _ _ h => h) hobeys trivial).mono
      fun _ _ _ => trivial
  intro op s x t _ hmay hwhole hx
  refine ⟨⟨?_, fun hn => drained_call hn hmay hwhole hx⟩, trivial⟩
  rw [(record_eq_some.mp hx).2]
  exact List.subset_cons_self ..

end Filing

/-! ### All together -/

section System
variable [DecidableEq κ] {disk : Disk} {c : Config Y.pool}

/-- What each task is proved to do. -/
def specification : Y.pool.Specification (fun _ op w => readsWhole op w = true) where
  rely := Y.relies
  guarantee := Y.guarantees
  refl := Y.relies_refl
  trans := Y.relies_trans
  head _ := Empty.elim
  result
    | none, r => fun w => ∀ path, r = .ok path → ∃ v, path = logPath Y.dir v ∧ Y.Filed (logPath Y.dir v) w
    | some _, _ => fun _ => True
  within i j hij s t hg := by
    cases i with
    | none => cases j with
      | none => exact absurd rfl hij
      | some k => exact hg
    | some k => cases j with
      | none => exact hg.2
      | some k' => exact hg.1
  stops i s t h := by
    obtain rfl := Option.some.inj h
    cases i with
    | none => exact List.Subset.refl _
    | some k => exact ⟨List.Subset.refl _, fun hn => .same hn ⟨rfl, rfl, rfl⟩ rfl⟩

variable {Y}

theorem turns : Y.specification.Turns := fun _ v => v.elim

theorem start_at (hn : disk.Numbered) (hfree : ∀ n u, Y.env.uuid n = some u → disk.file (logPath Y.dir u) = none)
    (hprost : Y.crates.decode (Y.crates.encode Y.request) = .ok Y.request) :
    Y.specification.At (Y.start disk) := by
  intro i p hp
  obtain rfl := Option.some.inj hp
  refine Holds.bind ?_
  cases i with
  | none =>
    have hready : Y.Ready (Y.start disk).world :=
      ⟨hn, hfree, fun _ _ _ _ _ h => absurd h List.not_mem_nil, rfl⟩
    refine Holds.mono (writeLogBatch_yields hprost hready) fun r t ht => Holds.done ?_ ?_
    · intro s t hr h path hpath
      obtain ⟨v, heq, hfiled⟩ := h path hpath
      exact ⟨v, heq, Filed.stable hprost s t hr hfiled⟩
    · intro path hpath
      rw [hpath] at ht
      exact ht
  | some k =>
    exact (drainSpooled_holds k _).mono fun _ _ _ => Holds.done (fun _ _ _ h => h) trivial

/-- **No batch is lost as long as no file is read halfway**, whatever the order of the calls, the outcomes of the
exports and the faults of the disk. -/
theorem filed_batch_kept (hn : disk.Numbered)
    (hfree : ∀ n u, Y.env.uuid n = some u → disk.file (logPath Y.dir u) = none)
    (hprost : Y.crates.decode (Y.crates.encode Y.request) = .ok Y.request) {path : Path}
    (hc : (Y.start disk).Reach (fun _ op w => readsWhole op w = true) c) (hf : c.Finished none (.ok path)) :
    ∀ record ∈ requestRecords Y.request, Y.Kept c.world record := by
  have hat := Y.specification.reach_at turns hc (start_at hn hfree hprost)
  obtain ⟨v, -, hfiled⟩ := Y.specification.finished_result hat hf path rfl
  exact hfiled.kept hprost

end System

/-! A worker that files one record, and another that replays. -/

def oneRecord : ExportLogsServiceRequest := exportRequestFor Worker.sampleWorker.source [Worker.blankRecord]

/-- The request of one record and the one without records are read back, and the latter is no bytes. -/
def oneRecordCrates : ExportCrates where
  encode q := if q.resourceLogs.isEmpty then [] else [1]
  decode bytes := .ok (if bytes.isEmpty then ⟨[]⟩ else oneRecord)
  ioText _ := ""
  round := id

/-- The receiver acknowledges everything. -/
def oneFiles : SharedQueue Unit where
  crates := oneRecordCrates
  env := {quietEnv with exported := fun _ => .acknowledged}
  dir := ["queue"]
  request := oneRecord
  drainer _ := Worker.sampleWorker
  shared _ := rfl

/-- The worker that files makes some calls, then the other one replays, then the first goes on. -/
def replaysAfter (calls : Nat) : List (Move (Option Unit)) :=
  List.replicate calls (.run none) ++ List.replicate 8 (.run (some ())) ++ List.replicate (4 - calls) (.run none)

/-- The batch was filed. -/
def filed (c : Config oneFiles.pool) : Bool := (c.result none).any fun r => r.toOption.isSome

/-- No record is anywhere. -/
def recordless (w : ClientState (Option Unit)) : Bool :=
  (w.history.all fun e => match e.op with
    | .exportLogs q => (requestRecords q).isEmpty
    | _ => true) &&
  (w.state.disk.children ["queue"]).all fun p => (Worker.fileRecords oneRecordCrates w.state.disk p).isEmpty

theorem finished_of_filed {c : Config oneFiles.pool} (h : filed c = true) :
    ∃ path, c.Finished none (.ok path) := by
  obtain ⟨r, hr, hok⟩ := (Option.any_eq_true ..).mp h
  cases r with
  | error e => cases hok
  | ok path => exact ⟨path, Config.finished_of_result hr⟩

theorem not_kept_of_recordless {w : ClientState (Option Unit)} (h : recordless w = true) (record : LogRecord) :
    ¬ oneFiles.Kept w record := by
  obtain ⟨hrequests, hfiles⟩ := Bool.and_eq_true_iff.mp h
  rintro (⟨i, q, hq, hrecord⟩ | ⟨p, hp, hrecord⟩)
  · have hnil := List.isEmpty_iff.mp (List.all_eq_true.mp hrequests _ hq)
    rw [hnil] at hrecord
    cases hrecord
  · have hnil := List.isEmpty_iff.mp (List.all_eq_true.mp hfiles p hp)
    have hrecord : record ∈ Worker.fileRecords oneRecordCrates w.state.disk p := hrecord
    rw [hnil] at hrecord
    cases hrecord

theorem filed_batch_kept_replayed : ∃ c : Config oneFiles.pool,
    (oneFiles.start .empty).Reach (fun _ op w => readsWhole op w = true) c ∧ (∃ path, c.Finished none (.ok path)) ∧
      (c.result (some ())).isSome = true ∧ ∀ record ∈ requestRecords oneRecord, oneFiles.Kept c.world record := by
  obtain ⟨c, hc, hend⟩ := Config.runs_any (fun _ _ _ h => h) (replaysAfter 4)
    (fun c : Config oneFiles.pool => filed c && (c.result (some ())).isSome)
    (show ((oneFiles.start .empty).runs (fun _ => readsWhole) _).any _ = true by decide +kernel)
  obtain ⟨hfiled, hdrained⟩ := Bool.and_eq_true_iff.mp hend
  obtain ⟨path, hf⟩ := finished_of_filed hfiled
  exact ⟨c, hc, ⟨path, hf⟩, hdrained, filed_batch_kept (fun _ _ h => by cases h) (fun _ _ _ => rfl) rfl hc hf⟩

/-- The file is read and taken away before it is written. -/
theorem halfway_batch_lost : oneRecordCrates.decode [] = .ok ⟨[]⟩ ∧
    oneRecordCrates.decode (oneRecordCrates.encode oneRecord) = .ok oneRecord ∧
      ∃ c : Config oneFiles.pool, (oneFiles.start .empty).Reach (fun _ _ _ => True) c ∧
        (∃ path, c.Finished none (.ok path)) ∧
          ∃ record ∈ requestRecords oneRecord, ¬ oneFiles.Kept c.world record := by
  obtain ⟨c, hc, hend⟩ := Config.runs_any (fun _ _ _ _ => trivial) (replaysAfter 3)
    (fun c : Config oneFiles.pool => filed c && recordless c.world)
    (show ((oneFiles.start .empty).runs (fun _ _ _ => true) _).any _ = true by decide +kernel)
  obtain ⟨hfiled, hnone⟩ := Bool.and_eq_true_iff.mp hend
  refine ⟨rfl, rfl, c, hc, finished_of_filed hfiled, Worker.blankRecord, ?_, not_kept_of_recordless hnone _⟩
  exact List.mem_singleton_self _

end SharedQueue

end Detritus.Client
