import Detritus.Process.Conduct
import Detritus.Server.Confinement
import Detritus.Server.Expiry
import Detritus.Files.Region

/-! Log records and retention.

Any number of requests send lines to the writers of their sources, the writers append them
to the file of the day, and any number of passes of the janitor remove log files, all in
any order. A pass that finds a file too old removes it some time later, and a writer keeps
its file open meanwhile. The record is still safe: a file is found too old at a moment at
which the day that it is named for is over, and from then on nobody appends to it. -/
namespace Detritus.Server
open Files Protocol Process
variable {op : ServerOp} {x : op.Answer}

/-- Requests, writers, and passes over the log files. -/
inductive LogParty (κ ι : Type) where
  | handler (j : κ)
  | writer (channel : Nat)
  | pass (i : ι)
  deriving DecidableEq

/-- A log endpoint whose files are removed when they are too old. -/
structure KeptLogs (κ ι : Type) where
  json : SerdeJson
  storage : StoragePaths
  utcDate : Time → NaiveDate
  env : Env
  handler : LogsHandler
  requests : κ → LogsRequest
  ttlDays : UInt64
  /-- For the walks of the passes. -/
  fuel : Nat

/-- A channel is for a source that had one, or that one was asked for. -/
theorem World.exec_sources {env : Env} {n : Nat} {w w' : World} (hx : World.exec env n op w = some (x, w'))
    {c' : Channel} (hc : c' ∈ w'.writers) : (∃ c ∈ w.writers, c'.source = c.source) ∨ op = .senderFor c'.source := by
  have hmodify : ∀ (k : Nat) (f : Channel → Channel), c' ∈ w.writers.modify k f → (∀ c, (f c).source = c.source) →
      ∃ c ∈ w.writers, c'.source = c.source := by
    intro k f hc hf
    obtain ⟨j, hj⟩ := List.getElem?_of_mem hc
    rw [List.getElem?_modify] at hj
    obtain ⟨c, hget, rfl⟩ := Option.map_eq_some_iff.mp hj
    refine ⟨c, List.mem_of_getElem? hget, ?_⟩
    split
    · exact hf c
    · rfl
  cases op with
  | senderFor source =>
    obtain ⟨-, rfl⟩ := result_eq hx
    simp only [Writers.senderFor] at hc
    split at hc
    · exact .inl (hmodify _ _ hc fun _ => rfl)
    · rcases List.mem_append.mp hc with hc | hc
      · exact .inl ⟨c', hc, rfl⟩
      · rw [List.mem_singleton.mp hc]
        exact .inr rfl
  | trySend k line =>
    obtain ⟨r, hr, he⟩ := Option.map_eq_some_iff.mp hx
    obtain ⟨c, -, rfl⟩ := Option.map_eq_some_iff.mp hr
    obtain ⟨-, rfl⟩ := Prod.mk.inj he
    simp only at hc
    split at hc
    · exact .inl ⟨c', hc, rfl⟩
    · split at hc
      · exact .inl ⟨c', hc, rfl⟩
      · exact .inl (hmodify _ _ hc fun _ => rfl)
  | recv k =>
    obtain ⟨r, hr, he⟩ := Option.map_eq_some_iff.mp hx
    obtain ⟨-, rfl⟩ := Prod.mk.inj he
    simp only [Writers.recv] at hr
    split at hr
    · cases hr
    · split at hr
      · obtain rfl := Option.some.inj hr
        exact .inl (hmodify _ _ hc fun _ => rfl)
      · split at hr
        · obtain rfl := Option.some.inj hr
          exact .inl ⟨c', hc, rfl⟩
        · cases hr
  | dropSender k | finish k =>
    obtain ⟨-, rfl⟩ := result_eq hx
    exact .inl (hmodify _ _ hc fun _ => rfl)
  | drain =>
    obtain ⟨-, rfl⟩ := result_eq hx
    obtain ⟨c, hmem, rfl⟩ := List.mem_map.mp hc
    refine .inl ⟨c, hmem, ?_⟩
    split <;> rfl
  | newUuid | capacity k | accept k =>
    obtain ⟨r, -, he⟩ := Option.map_eq_some_iff.mp hx
    obtain ⟨-, rfl⟩ := Prod.mk.inj he
    exact .inl ⟨c', hc, rfl⟩
  | join k =>
    simp only [World.exec] at hx
    split at hx
    · split at hx
      · obtain ⟨-, rfl⟩ := result_eq hx
        exact .inl ⟨c', hc, rfl⟩
      · cases hx
    · cases hx
  | panic | unended => exact x.elim
  | _ =>
    obtain ⟨-, rfl⟩ := result_eq hx
    exact .inl ⟨c', hc, rfl⟩

/-! ### What the history tells -/

section History
variable {κ ι : Type} {τ : Type} {h h' : List (ServerEvent (LogParty κ ι))} {clock : Nat → Time}

def accepts (channel : Nat) : ServerEvent (LogParty κ ι) → Option SourceKey
  | ⟨i, .accept _, source⟩ => match i with
    | .writer k => if k = channel then some source else none
    | _ => none
  | _ => none

/-- The source that the writer of a channel writes for. -/
def accepted (channel : Nat) (h : List (ServerEvent (LogParty κ ι))) : Option SourceKey :=
  h.findSome? (accepts channel)

def looks (channel : Nat) : ServerEvent (LogParty κ ι) → Option Time
  | ⟨i, .now, t⟩ => match i with
    | .writer k => if k = channel then some t else none
    | _ => none
  | _ => none

/-- What the clock said when the writer of a channel last looked. -/
def looked (channel : Nat) (h : List (ServerEvent (LogParty κ ι))) : Option Time := h.findSome? (looks channel)

/-- A record that was appended: for which source, and when. -/
structure Appended where
  source : SourceKey
  time : Time
  bytes : Bytes

def appendOf (clock : Nat → Time) (h : List (ServerEvent (LogParty κ ι))) :
    ServerEvent (LogParty κ ι) → Option Appended
  | ⟨i, .file (.write _ bytes), _⟩ => match i with
    | .writer k => (accepted k h).map fun source => ⟨source, clock h.length, bytes⟩
    | _ => none
  | _ => none

/-- Every record that was appended, the earliest first. -/
def appends (clock : Nat → Time) : List (ServerEvent (LogParty κ ι)) → List Appended
  | [] => []
  | e :: h => appends clock h ++ (appendOf clock h e).toList

theorem findSome?_apart {f : ServerEvent (LogParty κ ι) → Option τ} {i : LogParty κ ι}
    (hf : ∀ e, e.task ≠ i → f e = none) (a : Apart i h h') : h'.findSome? f = h.findSome? f := by
  obtain ⟨new, rfl, hnew⟩ := a
  rw [List.findSome?_append, List.findSome?_eq_none_iff.mpr fun e he => hf e (hnew e he), Option.none_or]

theorem accepted_apart {k : Nat} (a : Apart (.writer k) h h') : accepted k h' = accepted k h := by
  refine findSome?_apart (fun e he => ?_) a
  unfold accepts
  split
  · next i c source =>
    cases i with
    | writer k' => exact if_neg fun hk => he (by rw [hk])
    | handler j => rfl
    | pass i => rfl
  · rfl

theorem looked_apart {k : Nat} (a : Apart (.writer k) h h') : looked k h' = looked k h := by
  refine findSome?_apart (fun e he => ?_) a
  unfold looks
  split
  · next i t =>
    cases i with
    | writer k' => exact if_neg fun hk => he (by rw [hk])
    | handler j => rfl
    | pass i => rfl
  · rfl

theorem appendOf_time {h : List (ServerEvent (LogParty κ ι))} {e : ServerEvent (LogParty κ ι)} {a : Appended}
    (ha : appendOf clock h e = some a) : a.time = clock h.length := by
  unfold appendOf at ha
  split at ha
  · split at ha
    · obtain ⟨source, -, rfl⟩ := Option.map_eq_some_iff.mp ha
      rfl
    · cases ha
  · cases ha

theorem appendOf_source {h : List (ServerEvent (LogParty κ ι))} {e : ServerEvent (LogParty κ ι)} {a : Appended}
    (ha : appendOf clock h e = some a) : ∃ k, accepted k h = some a.source := by
  unfold appendOf at ha
  split at ha
  · split at ha
    · next k =>
      obtain ⟨source, hs, rfl⟩ := Option.map_eq_some_iff.mp ha
      exact ⟨k, hs⟩
    · cases ha
  · cases ha

theorem appendOf_none {h : List (ServerEvent (LogParty κ ι))} {i : LogParty κ ι}
    (hop : ∀ g bytes, op ≠ .file (.write g bytes)) (x : op.Answer) : appendOf clock h ⟨i, op, x⟩ = none := by
  unfold appendOf
  split
  · next he =>
    cases he
    exact absurd rfl (hop _ _)
  · rfl

end History

namespace KeptLogs
variable {κ ι : Type} (Y : KeptLogs κ ι)

abbrev State (κ ι : Type) := ServerState (LogParty κ ι)

abbrev Result : LogParty κ ι → Type
  | .handler _ => Except Status Unit
  | .writer _ => Unit
  | .pass _ => Except JanitorError JanitorStats

def task : (i : LogParty κ ι) → Task serverInterface (Result i)
  | .handler j => .once (exportLogs Y.handler (Y.requests j))
  | .writer channel => writer Y.json Y.storage Y.utcDate channel
  | .pass _ => .once (pruneLogs Y.fuel Y.storage Y.ttlDays ⟨0, 0, 0, 0⟩).run

/-- Any task may be stopped at any time; its files are closed. -/
def pool : Pool serverInterface (LogParty κ ι) (State κ ι) Result where
  task := Y.task
  exec := execAs Y.env
  stop _ w := some w

def start [DecidableEq κ] [DecidableEq ι] (w : World) : Config Y.pool := Y.pool.start ⟨w, []⟩

/-- How long a record is to be kept. -/
def span : Time := Y.ttlDays.toNat * 86400 * 1000000000

/-- What is assumed of the clock, of `chrono` and of the retention: time does not go back, a day has 24 hours, and the
retention is one day or more, and not so many that their seconds do not fit. -/
structure Calendar : Prop where
  clock : ∀ m n, m ≤ n → Y.env.clock m ≤ Y.env.clock n
  day : ∀ s t, s ≤ t → Y.utcDate s = Y.utcDate t → t < s + 86400 * 1000000000
  positive : Y.ttlDays ≠ 0
  fits : Y.ttlDays.toNat * 86400 < 2 ^ 64

/-- Storage in which every log file was last written on the day that it is named for, and not after now. -/
structure Tidy (d : Disk) (now : Time) : Prop where
  numbered : d.Numbered
  single : ∀ source date q n, source.Valid → d.file (Y.storage.logFile source date) = some n → d.file q = some n →
    q = Y.storage.logFile source date
  dated : ∀ source date n, source.Valid → d.file (Y.storage.logFile source date) = some n →
    Y.utcDate (d.inode n).modified = date ∧ (d.inode n).modified ≤ now
  free : ∀ source date, source.Valid → d.dir (Y.storage.logFile source date) = none

/-- A record is appended on the day on which the writer looked at the clock, and an age check is one step: the clock is
read right after the modification time. -/
def punctual [DecidableEq κ] [DecidableEq ι] : LogParty κ ι → ServerOp → State κ ι → Bool
  | .writer k, .file (.openAppend _), w | .writer k, .file (.write _ _), w =>
    (looked k w.history).all fun t => Y.utcDate (Y.env.clock w.history.length) = Y.utcDate t
  | .pass i, .now, w => w.history.head?.any fun e => e.task = .pass i && match e.op with
    | .file (.metadata _) => true
    | _ => false
  | _, _, _ => true

/-- The records of a source and a day. -/
def filed (source : SourceKey) (date : NaiveDate) (h : List (ServerEvent (LogParty κ ι))) : List Appended :=
  (appends Y.env.clock h).filter fun a => a.source = source ∧ Y.utcDate a.time = date

/-- The day is over, by a retention at least. -/
def Over (date : NaiveDate) (h : List (ServerEvent (LogParty κ ι))) : Prop :=
  ∃ m n, n < h.length ∧ Y.utcDate m = date ∧ m + Y.span ≤ Y.env.clock n

/-- The file was written then, before the start or since. -/
def Touched (before : Disk) (source : SourceKey) (date : NaiveDate) (h : List (ServerEvent (LogParty κ ι)))
    (t : Time) : Prop :=
  (∃ n, before.file (Y.storage.logFile source date) = some n ∧ (before.inode n).modified = t) ∨
    ∃ a ∈ Y.filed source date h, a.time = t

/-- The file may go: a retention has passed since it was last written. -/
def Doomed (before : Disk) (source : SourceKey) (date : NaiveDate) (h : List (ServerEvent (LogParty κ ι))) : Prop :=
  ∃ m n, n < h.length ∧ Y.utcDate m = date ∧ m + Y.span ≤ Y.env.clock n ∧
    ∀ t, Y.Touched before source date h t → t ≤ m

/-- The file holds what it held at the start, and every record since then. -/
structure Whole (before : Disk) (source : SourceKey) (date : NaiveDate) (w : State κ ι) : Prop where
  content : (w.state.disk.content (Y.storage.logFile source date)).getD [] =
    (before.content (Y.storage.logFile source date)).getD [] ++ (Y.filed source date w.history).flatMap Appended.bytes
  modified : ∀ t, Y.Touched before source date w.history t →
    ∃ n, w.state.disk.file (Y.storage.logFile source date) = some n ∧ t ≤ (w.state.disk.inode n).modified

structure Inv (before : Disk) (w : State κ ι) : Prop where
  tidy : Y.Tidy w.state.disk (Y.env.clock w.history.length)
  valid : ∀ c ∈ w.state.writers, c.source.Valid
  accepts : ∀ k source, accepted k w.history = some source → source.Valid
  sources : ∀ a ∈ appends Y.env.clock w.history, a.source.Valid
  live : ∀ source date, source.Valid → Y.Whole before source date w ∨ Y.Doomed before source date w.history

/-- What a task finds after the calls of others. -/
structure Frame (j : LogParty κ ι) (s t : State κ ι) : Prop where
  apart : Apart j s.history t.history
  still : t.history = s.history → t = s
  linked : ∀ source date n, source.Valid → s.state.disk.file (Y.storage.logFile source date) = some n →
    t.state.disk.file (Y.storage.logFile source date) = some n ∨ Y.Over date t.history

variable {Y}

/-! ### Days -/

section Days
variable {before : Disk} {source : SourceKey} {date : NaiveDate} {h : List (ServerEvent (LogParty κ ι))}

theorem Calendar.span_le (C : Y.Calendar) : 86400 * 1000000000 ≤ Y.span := by
  have hpos : 0 < Y.ttlDays.toNat := by
    rw [Nat.pos_iff_ne_zero]
    intro hzero
    exact C.positive (UInt64.toNat_inj.mp hzero)
  show (86400 * 1000000000 : Nat) ≤ Y.ttlDays.toNat * 86400 * 1000000000
  omega

theorem Over.mono (new : List (ServerEvent (LogParty κ ι))) (o : Y.Over date h) : Y.Over date (new ++ h) := by
  obtain ⟨m, n, hn, hdate, hpast⟩ := o
  refine ⟨m, n, ?_, hdate, hpast⟩
  rw [List.length_append]
  omega

/-- A day that is over does not come back. -/
theorem Over.date_ne (C : Y.Calendar) (o : Y.Over date h) {n : Nat} (hn : h.length ≤ n) :
    Y.utcDate (Y.env.clock n) ≠ date := by
  obtain ⟨m, n', hn', hdate, hpast⟩ := o
  intro heq
  have hlater : Y.env.clock n' ≤ Y.env.clock n := C.clock n' n (by omega)
  have hnow : m + Y.span ≤ Y.env.clock n := hpast.trans hlater
  have hday := C.day m (Y.env.clock n) ((Nat.le_add_right m _).trans hnow) (hdate.trans heq.symm)
  exact absurd (hday.trans_le ((Nat.add_le_add_left C.span_le m).trans hnow)) (Nat.lt_irrefl _)

theorem Doomed.over (hd : Y.Doomed before source date h) : Y.Over date h := by
  obtain ⟨m, n, hn, hdate, hpast, -⟩ := hd
  exact ⟨m, n, hn, hdate, hpast⟩

theorem filed_cons (e : ServerEvent (LogParty κ ι)) : Y.filed source date (e :: h) = Y.filed source date h ++
    (appendOf Y.env.clock h e).toList.filter fun a => a.source = source ∧ Y.utcDate a.time = date := by
  unfold filed
  rw [appends, List.filter_append]

theorem filed_cons_none {e : ServerEvent (LogParty κ ι)} (he : appendOf Y.env.clock h e = none) :
    Y.filed source date (e :: h) = Y.filed source date h := by
  rw [filed_cons, he]
  exact List.append_nil _

/-- Nothing is filed under a day that is over. -/
theorem Over.filed_append (C : Y.Calendar) (o : Y.Over date h) (new : List (ServerEvent (LogParty κ ι))) :
    Y.filed source date (new ++ h) = Y.filed source date h := by
  induction new with
  | nil => rfl
  | cons e new ih =>
    have hnone : ((appendOf Y.env.clock (new ++ h) e).toList.filter fun a =>
        a.source = source ∧ Y.utcDate a.time = date) = [] := by
      rw [List.filter_eq_nil_iff]
      intro a ha
      have htime := appendOf_time (Option.mem_toList.mp ha)
      have hne := o.date_ne C (n := (new ++ h).length) (by rw [List.length_append]; omega)
      rw [← htime] at hne
      simp [hne]
    rw [List.cons_append, filed_cons, ih, hnone, List.append_nil]

theorem touched_same {h' : List (ServerEvent (LogParty κ ι))}
    (hfiled : Y.filed source date h' = Y.filed source date h) :
    Y.Touched before source date h' = Y.Touched before source date h := by
  unfold Touched
  rw [hfiled]

theorem Doomed.mono (C : Y.Calendar) (new : List (ServerEvent (LogParty κ ι))) (hd : Y.Doomed before source date h) :
    Y.Doomed before source date (new ++ h) := by
  have hsame : Y.filed source date (new ++ h) = Y.filed source date h := hd.over.filed_append C new
  obtain ⟨m, n, hn, hdate, hpast, hall⟩ := hd
  refine ⟨m, n, ?_, hdate, hpast, ?_⟩
  · rw [List.length_append]
    omega
  · rw [touched_same hsame]
    exact hall

end Days

/-! ### Calls -/

/-- What the tasks do. A file is opened and written on its own day only, and removed only once it may go. -/
def Legal (Y : KeptLogs κ ι) (before : Disk) (i : LogParty κ ι) (op : ServerOp) (w : State κ ι) : Prop :=
  match op with
  | .file (.createDirAll p) => ∃ source date, source.Valid ∧ p = (Y.storage.logFile source date).parent
  | .file (.openAppend p) => ∃ source, source.Valid ∧
      p = Y.storage.logFile source (Y.utcDate (Y.env.clock w.history.length))
  | .file (.write g _) => ∃ k source, i = .writer k ∧ accepted k w.history = some source ∧ g.append = true ∧
      w.state.disk.file (Y.storage.logFile source (Y.utcDate (Y.env.clock w.history.length))) = some g.inode
  | .file (.removeFile p) => ∀ source date, source.Valid → p = Y.storage.logFile source date →
      Y.Doomed before source date w.history
  | .file op => op.quiet = true
  | .senderFor source => source.Valid
  | _ => True

section Steps
variable {before : Disk} {w w' : State κ ι} {i : LogParty κ ι} {e : ServerEvent (LogParty κ ι)} {source : SourceKey}
  {date : NaiveDate}

/-- The part of the invariant that is about files, after a call, and what the others find. -/
structure Filing (Y : KeptLogs κ ι) (before : Disk) (w w' : State κ ι) : Prop where
  tidy : Y.Tidy w'.state.disk (Y.env.clock w'.history.length)
  live : ∀ source date, source.Valid → Y.Whole before source date w' ∨ Y.Doomed before source date w'.history
  linked : ∀ source date n, source.Valid → w.state.disk.file (Y.storage.logFile source date) = some n →
    w'.state.disk.file (Y.storage.logFile source date) = some n ∨ Y.Over date w'.history

theorem none_of_isSome {τ : Type} {o o' : Option τ} (h : o'.isSome = true → o.isSome = true) (ho : o = none) :
    o' = none := by
  cases o' with
  | none => rfl
  | some a =>
    rw [ho] at h
    exact absurd (h rfl) (by simp)

theorem Calendar.later (C : Y.Calendar) (hh : w'.history = e :: w.history) :
    Y.env.clock w.history.length ≤ Y.env.clock w'.history.length := by
  rw [hh]
  exact C.clock _ _ (Nat.le_succ _)

/-- A file that a call leaves as it is. -/
theorem Inv.live_same (C : Y.Calendar) (H : Y.Inv before w) (hv : source.Valid) (hh : w'.history = e :: w.history)
    (hfiled : Y.filed source date (e :: w.history) = Y.filed source date w.history)
    (hcontent : w'.state.disk.content (Y.storage.logFile source date) =
      w.state.disk.content (Y.storage.logFile source date))
    (hmodified : ∀ n, w.state.disk.file (Y.storage.logFile source date) = some n →
      w'.state.disk.file (Y.storage.logFile source date) = some n ∧
        (w'.state.disk.inode n).modified = (w.state.disk.inode n).modified) :
    Y.Whole before source date w' ∨ Y.Doomed before source date w'.history := by
  refine (H.live source date hv).imp (fun hwhole => ⟨?_, fun t ht => ?_⟩) fun hdoomed => ?_
  · rw [hcontent, hh, hfiled]
    exact hwhole.content
  · rw [hh, touched_same hfiled] at ht
    obtain ⟨n, hn, hle⟩ := hwhole.modified t ht
    obtain ⟨hfile, hsame⟩ := hmodified n hn
    exact ⟨n, hfile, hsame ▸ hle⟩
  · rw [hh]
    exact hdoomed.mono C [e]

/-- A call that leaves all files as they are. -/
theorem Inv.same (C : Y.Calendar) (H : Y.Inv before w) (hh : w'.history = e :: w.history)
    (he : appendOf Y.env.clock w.history e = none) (hd : w.state.disk.SameFiles w'.state.disk)
    (hdir : ∀ source date, source.Valid → w'.state.disk.dir (Y.storage.logFile source date) = none) :
    Filing Y before w w' := by
  refine ⟨⟨fun p n hn => ?_, fun source date q n hv hp hq => ?_, fun source date n hv hp => ?_, hdir⟩, ?_, ?_⟩
  · rw [hd.file] at hn
    rw [hd.next]
    exact H.tidy.numbered p n hn
  · rw [hd.file] at hp hq
    exact H.tidy.single source date q n hv hp hq
  · rw [hd.file] at hp
    rw [hd.inode]
    exact (H.tidy.dated source date n hv hp).imp_right (·.trans (C.later hh))
  · intro source date hv
    refine H.live_same C hv hh (filed_cons_none he) (hd.content _) fun n hn => ?_
    rw [hd.file, hd.inode]
    exact ⟨hn, rfl⟩
  · intro source date n hv hn
    rw [hd.file]
    exact .inl hn

/-- A file is opened on its day. -/
theorem Inv.opened (C : Y.Calendar) (H : Y.Inv before w) (hv : source.Valid) (hh : w'.history = e :: w.history)
    (he : appendOf Y.env.clock w.history e = none) {now : Time} (hnow : now = Y.env.clock w.history.length)
    (hdate : Y.utcDate now = date)
    (hd : w'.state.disk = (w.state.disk.openAppend (Y.storage.logFile source date) now).2) : Filing Y before w w' := by
  cases hp : w.state.disk.file (Y.storage.logFile source date) with
  | some n =>
    have hsame : w'.state.disk = w.state.disk := by rw [hd, Disk.openAppend, hp]
    refine H.same C hh he (hsame ▸ ⟨rfl, rfl, rfl⟩) ?_
    rw [hsame]
    exact H.tidy.free
  | none =>
    have hd : w'.state.disk = w.state.disk.fresh (Y.storage.logFile source date) now := by
      rw [hd, Disk.openAppend, hp]
    have hnone : w.state.disk.content (Y.storage.logFile source date) = none := by
      rw [Disk.content, hp]
      rfl
    refine ⟨⟨?_, fun source' date' q n hv' hq hr => ?_, fun source' date' n hv' hq => ?_, fun source' date' hv' => ?_⟩,
      fun source' date' hv' => ?_, fun source' date' n hv' hq => ?_⟩
    · rw [hd]
      exact H.tidy.numbered.fresh
    · rw [hd] at hq hr
      rcases Disk.fresh_some hq with ⟨hpath, hn⟩ | ⟨-, hq⟩ <;> rcases Disk.fresh_some hr with ⟨hpath', hn'⟩ | ⟨-, hr⟩
      · exact hpath'.trans hpath.symm
      · exact absurd (H.tidy.numbered q n hr) (Nat.not_lt.mpr hn.ge)
      · exact absurd (H.tidy.numbered _ n hq) (Nat.not_lt.mpr hn'.ge)
      · exact H.tidy.single source' date' q n hv' hq hr
    · rw [hd] at hq ⊢
      rw [Disk.fresh_inode]
      rcases Disk.fresh_some hq with ⟨hpath, rfl⟩ | ⟨-, hq⟩
      · rw [Function.update_self, hdate, (Y.storage.logFile_injective hv' hv hpath).2]
        exact ⟨rfl, hnow.trans_le (C.later hh)⟩
      · rw [Function.update_of_ne (Nat.ne_of_lt (H.tidy.numbered _ n hq))]
        exact (H.tidy.dated source' date' n hv' hq).imp_right (·.trans (C.later hh))
    · refine none_of_isSome ?_ (H.tidy.free source' date' hv')
      rw [hd, Disk.fresh_dir]
      exact id
    · by_cases hpath : Y.storage.logFile source' date' = Y.storage.logFile source date
      · -- nothing was ever appended to a file that is not there and may not go
        refine (H.live source' date' hv').imp (fun hwhole => ⟨?_, fun t ht => ?_⟩) fun hdoomed => ?_
        · have hbefore := hwhole.content
          rw [hpath] at hbefore ⊢
          rw [hh, filed_cons_none he, ← hbefore, hnone, hd, Disk.content, Disk.fresh_file, Function.update_self,
            Option.map_some, Disk.fresh_inode, Function.update_self]
          rfl
        · rw [hh, touched_same (filed_cons_none he)] at ht
          obtain ⟨n, hn, -⟩ := hwhole.modified t ht
          rw [hpath, hp] at hn
          cases hn
        · rw [hh]
          exact hdoomed.mono C [e]
      · have hfile : w'.state.disk.file (Y.storage.logFile source' date') =
            w.state.disk.file (Y.storage.logFile source' date') := by
          rw [hd, Disk.fresh_file, Function.update_of_ne hpath]
        refine H.live_same C hv' hh (filed_cons_none he) ?_ fun n hn => ⟨hfile.trans hn, ?_⟩
        · by_contra hne
          rw [hd] at hne
          exact hpath (Disk.fresh_changes H.tidy.numbered hne)
        · rw [hd, Disk.fresh_inode, Function.update_of_ne (Nat.ne_of_lt (H.tidy.numbered _ n hn))]
    · have hpath : Y.storage.logFile source' date' ≠ Y.storage.logFile source date := by
        intro heq
        rw [heq, hp] at hq
        cases hq
      rw [hd, Disk.fresh_file, Function.update_of_ne hpath]
      exact .inl hq

/-- A record is appended on its day. -/
theorem Inv.written (C : Y.Calendar) (H : Y.Inv before w) (hv : source.Valid) (hh : w'.history = e :: w.history)
    {g : Handle} {bytes : Bytes}
    (he : appendOf Y.env.clock w.history e = some ⟨source, Y.env.clock w.history.length, bytes⟩)
    (happend : g.append = true)
    (hfile : w.state.disk.file (Y.storage.logFile source (Y.utcDate (Y.env.clock w.history.length))) = some g.inode)
    (hd : w'.state.disk = (w.state.disk.write g bytes (Y.env.clock w.history.length)).2) : Filing Y before w w' := by
  have hfiles : w'.state.disk.file = w.state.disk.file := by
    rw [hd]
    rfl
  have hself : (w'.state.disk.inode g.inode).modified = Y.env.clock w.history.length := by
    rw [hd, Disk.write, Disk.store_inode, Function.update_self]
  have hother : ∀ n, n ≠ g.inode → w'.state.disk.inode n = w.state.disk.inode n := by
    intro n hn
    rw [hd, Disk.write, Disk.store_inode, Function.update_of_ne hn]
  refine ⟨⟨?_, fun source' date' q n hv' hq hr => ?_, fun source' date' n hv' hq => ?_, fun source' date' hv' => ?_⟩,
    fun source' date' hv' => ?_, fun source' date' n hv' hq => ?_⟩
  · rw [hd]
    exact H.tidy.numbered
  · rw [hfiles] at hq hr
    exact H.tidy.single source' date' q n hv' hq hr
  · rw [hfiles] at hq
    by_cases hn : n = g.inode
    · rw [hn] at hq ⊢
      rw [hself]
      exact ⟨(Y.storage.logFile_injective hv hv' (H.tidy.single source' date' _ _ hv' hq hfile)).2, C.later hh⟩
    · rw [hother n hn]
      exact (H.tidy.dated source' date' n hv' hq).imp_right (·.trans (C.later hh))
  · rw [hd]
    exact H.tidy.free source' date' hv'
  · by_cases hpath : source' = source ∧ date' = Y.utcDate (Y.env.clock w.history.length)
    · obtain ⟨rfl, rfl⟩ := hpath
      have hfiled : Y.filed source' (Y.utcDate (Y.env.clock w.history.length)) (e :: w.history) =
          Y.filed source' (Y.utcDate (Y.env.clock w.history.length)) w.history ++
            [⟨source', Y.env.clock w.history.length, bytes⟩] := by
        rw [filed_cons, he]
        simp
      rcases H.live source' _ hv' with hwhole | hdoomed
      · refine .inl ⟨?_, fun t ht => ⟨g.inode, by rw [hfiles]; exact hfile, ?_⟩⟩
        · rw [hh, hfiled, hd, Disk.write_append_content happend, if_pos hfile, List.flatMap_append, ← List.append_assoc,
            ← hwhole.content, Disk.content, hfile]
          simp
        · rw [hself]
          rw [hh, Touched, hfiled] at ht
          rcases ht with hbefore | ⟨a, ha, rfl⟩
          · obtain ⟨n, hn, hle⟩ := hwhole.modified t (.inl hbefore)
            exact hle.trans (H.tidy.dated source' _ n hv' hn).2
          · rcases List.mem_append.mp ha with ha | ha
            · obtain ⟨n, hn, hle⟩ := hwhole.modified a.time (.inr ⟨a, ha, rfl⟩)
              exact hle.trans (H.tidy.dated source' _ n hv' hn).2
            · rw [List.mem_singleton.mp ha]
      · exact absurd rfl (hdoomed.over.date_ne C (Nat.le_refl _))
    · have hne : w.state.disk.file (Y.storage.logFile source' date') ≠ some g.inode := by
        intro heq
        have hsame := H.tidy.single source' date' _ _ hv' heq hfile
        obtain ⟨hs, ht⟩ := Y.storage.logFile_injective hv hv' hsame
        exact hpath ⟨hs.symm, ht.symm⟩
      have hfiled : Y.filed source' date' (e :: w.history) = Y.filed source' date' w.history := by
        have hother : ¬(source = source' ∧ Y.utcDate (Y.env.clock w.history.length) = date') :=
          fun hsame => hpath ⟨hsame.1.symm, hsame.2.symm⟩
        rw [filed_cons, he]
        simp [hother]
      refine H.live_same C hv' hh hfiled ?_ fun n hn => ⟨by rw [hfiles]; exact hn, ?_⟩
      · rw [hd, Disk.write_append_content happend, if_neg hne]
      · rw [hother n fun heq => hne (heq ▸ hn)]
  · rw [hfiles]
    exact .inl hq

/-- A file goes that may. -/
theorem Inv.removed (C : Y.Calendar) (H : Y.Inv before w) (hh : w'.history = e :: w.history)
    (he : appendOf Y.env.clock w.history e = none) {p : Path} {now : Time}
    (hgo : ∀ source date, source.Valid → p = Y.storage.logFile source date → Y.Doomed before source date w.history)
    (hd : w'.state.disk = (w.state.disk.removeFile p now).2) : Filing Y before w w' := by
  have hinode : w'.state.disk.inode = w.state.disk.inode := by
    rw [hd]
    exact Disk.removeFile_inode
  refine ⟨⟨?_, fun source date q n hv hq hr => ?_, fun source date n hv hq => ?_, fun source date hv => ?_⟩,
    fun source date hv => ?_, fun source date n hv hq => ?_⟩
  · rw [hd]
    exact H.tidy.numbered.removeFile
  · rw [hd] at hq hr
    exact H.tidy.single source date q n hv (Disk.removeFile_file hq) (Disk.removeFile_file hr)
  · rw [hd] at hq
    rw [hinode]
    exact (H.tidy.dated source date n hv (Disk.removeFile_file hq)).imp_right (·.trans (C.later hh))
  · refine none_of_isSome ?_ (H.tidy.free source date hv)
    rw [hd, Disk.removeFile_dir]
    exact id
  · by_cases hp : Y.storage.logFile source date = p
    · rw [hh]
      exact .inr ((hgo source date hv hp.symm).mono C [e])
    · refine H.live_same C hv hh (filed_cons_none he) ?_ fun n hn => ⟨?_, by rw [hinode]⟩
      · by_contra hne
        rw [hd] at hne
        exact hp (Disk.removeFile_changes hne)
      · rw [hd, Disk.removeFile_other hp]
        exact hn
  · by_cases hp : Y.storage.logFile source date = p
    · rw [hh]
      exact .inr ((hgo source date hv hp.symm).over.mono [e])
    · rw [hd, Disk.removeFile_other hp]
      exact .inl hq

/-- The directory of a log file is not where one is. -/
theorem logFile_not_parent (P : StoragePaths) {source source' : SourceKey} (hv : source.Valid) (hv' : source'.Valid)
    (date date' : NaiveDate) : ¬ P.logFile source date <+: (P.logFile source' date').parent := by
  intro hle
  have hlen := hle.length_le
  rw [P.logFile_eq hv, P.logFile_eq hv', Path.parent, List.length_dropLast, List.length_append,
    List.length_append] at hlen
  simp only [List.length_cons, List.length_nil] at hlen
  omega

theorem Inv.filing (C : Y.Calendar) (H : Y.Inv before w) (hl : Y.Legal before i op w)
    (hx : execAs Y.env i op w = some (x, w')) : Filing Y before w w' := by
  obtain ⟨hexec, hh⟩ := record_eq_some.mp hx
  have hquiet : (∀ g bytes, op ≠ .file (.write g bytes)) → w'.state.disk = w.state.disk → Filing Y before w w' := by
    intro hop hsame
    refine H.same C hh (appendOf_none hop x) (hsame ▸ ⟨rfl, rfl, rfl⟩) ?_
    rw [hsame]
    exact H.tidy.free
  cases op with
  | file op =>
    have hd := congrArg World.disk (World.exec_file.mp hexec).2
    cases op with
    | createDirAll p =>
      obtain ⟨source', date', hv', rfl⟩ := hl
      refine H.same C hh (appendOf_none (by simp) x) (hd ▸ ⟨rfl, rfl, rfl⟩) fun source date hv => ?_
      refine none_of_isSome (fun hdir => ?_) (H.tidy.free source date hv)
      rw [hd] at hdir
      refine ((Disk.createDirAll_dir _ _ _).mp hdir).resolve_left ?_
      exact logFile_not_parent Y.storage hv hv' date date'
    | openAppend p =>
      obtain ⟨source, hv, rfl⟩ := hl
      exact H.opened C hv hh (appendOf_none (by simp) x) rfl rfl hd
    | write g bytes =>
      obtain ⟨k, source, rfl, haccepted, happend, hfile⟩ := hl
      refine H.written C (H.accepts k source haccepted) hh ?_ happend hfile hd
      show (accepted k w.history).map _ = _
      rw [haccepted]
      rfl
    | removeFile p => exact H.removed C hh (appendOf_none (by simp) x) hl hd
    | create p | hardLink p q | removeDirAll p | renameDir p q => cases hl
    | _ => exact hquiet (by simp) hd
  | _ => exact hquiet (by simp) (World.exec_disk (by simp) hexec)

/-- What a legal call keeps, and what the others find after it. -/
theorem Inv.call (C : Y.Calendar) (H : Y.Inv before w) (hl : Y.Legal before i op w)
    (hx : execAs Y.env i op w = some (x, w')) : Y.Inv before w' ∧ ∀ j, j ≠ i → Y.Frame j w w' := by
  obtain ⟨hexec, hh⟩ := record_eq_some.mp hx
  have F := H.filing C hl hx
  refine ⟨⟨F.tidy, fun c hc => ?_, fun k source hk => ?_, fun a ha => ?_, F.live⟩,
    fun j hj => ⟨?_, fun hsame => ?_, F.linked⟩⟩
  · rcases World.exec_sources hexec hc with ⟨c', hc', hs⟩ | hop
    · rw [hs]
      exact H.valid c' hc'
    · subst hop
      exact hl
  · rw [hh, accepted, List.findSome?_cons] at hk
    split at hk
    · next source' hs =>
      obtain rfl := Option.some.inj hk
      unfold Server.accepts at hs
      split at hs
      · next he =>
        cases he
        split at hs
        · split at hs
          · obtain ⟨c, hc, he⟩ := Option.map_eq_some_iff.mp hexec
            obtain rfl := Option.some.inj hs
            rw [← (Prod.mk.inj he).1]
            exact H.valid c (List.mem_of_getElem? hc)
          · cases hs
        · cases hs
      · cases hs
    · exact H.accepts k source hk
  · rw [hh] at ha
    rcases List.mem_append.mp ha with ha | ha
    · exact H.sources a ha
    · obtain ⟨k, hk⟩ := appendOf_source (Option.mem_toList.mp ha)
      exact H.accepts k a.source hk
  · rw [hh]
    exact .cons (Ne.symm hj)
  · rw [hh] at hsame
    exact absurd hsame (List.cons_ne_self _ _)

end Steps

end KeptLogs

end Detritus.Server
