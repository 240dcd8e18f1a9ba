import Detritus.Client.QueueAccount

/-! The startup of a worker.

Before it takes a message a worker replays the batches of its queue directory, in the
order of their names and under the lock of the directory. It sends the request of each
file, and removes the file if the request was acknowledged. Unless a fault hits it, it
sees every batch; and it comes to its end unless somebody holds the lock. -/
namespace Detritus.Client.Worker
open Files Protocol Process
variable {op : FileOp}

/-! ### The replay at the start -/

section Replay
variable {ι : Type} (P : ExportCrates) (env : Env) (i : ι)

/-- The request that a file is read to hold. -/
def found (s : ClientState ι) (p : Path) : Except IoError ExportLogsServiceRequest :=
  (execFile env s.history.length (.read p) s.state.disk).1.bind P.decode

/-- The state after the replay of one file. -/
def replayed (s : ClientState ι) (p : Path) : ClientState ι :=
  match found P env s p with
  | .error _ => after env i s (.read p)
  | .ok request =>
    let sent := called i (after env i s (.read p)) (.exportLogs request) (env.exported (s.history.length + 1))
    match env.exported (s.history.length + 1) with
    | .acknowledged => after env i sent (.removeFile p)
    | _ => sent

variable {P env i} {s t u : ClientState ι} {p : Path} {d : Disk}

theorem readLogBatch_run : (readLogBatch P p).run.run (execAs env i) s =
    some (found P env s p, after env i s (.read p)) := by
  have hread : (file id (.read p) : Action IoError Bytes).run.run (execAs env i) s =
      some ((execFile env s.history.length (.read p) s.state.disk).1.mapError id, after env i s (.read p)) := rfl
  unfold readLogBatch found
  cases hx : (execFile env s.history.length (.read p) s.state.disk).1 with
  | error e =>
    rw [hx] at hread
    exact Program.run_bind_error _ hread
  | ok bytes =>
    rw [hx] at hread
    exact Program.run_bind_ok _ hread

theorem replay_run : (replay P p).run (execAs env i) s = some ((), replayed P env i s p) := by
  unfold replay replayed
  rw [Program.run_bind, readLogBatch_run, Option.bind_some]
  cases found P env s p with
  | error e => rfl
  | ok request =>
    have hexport : execAs env i (.exportLogs request) (after env i s (.read p)) =
        some (env.exported (s.history.length + 1), called i (after env i s (.read p)) (.exportLogs request)
          (env.exported (s.history.length + 1))) := rfl
    dsimp only
    rw [Program.run_bind, Program.run_perform, hexport, Option.bind_some]
    cases env.exported (s.history.length + 1) <;> rfl

theorem replayAll_run (paths : List Path) :
    (replayAll P paths).run (execAs env i) s = some ((), paths.foldl (replayed P env i) s) := by
  induction paths generalizing s with
  | nil => rfl
  | cons p rest ih =>
    unfold replayAll
    rw [Program.run_bind, replay_run]
    exact ih

/-- The file was no request, or its request was not acknowledged, or it was and the file is to go. -/
theorem replayed_cases (P : ExportCrates) (env : Env) (i : ι) (s : ClientState ι) (p : Path) :
    (replayed P env i s p = after env i s (.read p) ∧ ∃ e, found P env s p = .error e) ∨
    ∃ request bytes, s.state.disk.content p = some bytes ∧ P.decode bytes = .ok request ∧
      (env.exported (s.history.length + 1) ≠ .acknowledged ∧ replayed P env i s p =
          called i (after env i s (.read p)) (.exportLogs request) (env.exported (s.history.length + 1)) ∨
        env.exported (s.history.length + 1) = .acknowledged ∧ replayed P env i s p =
          after env i (called i (after env i s (.read p)) (.exportLogs request) ExportOutcome.acknowledged)
            (.removeFile p)) := by
  unfold replayed
  cases hfound : found P env s p with
  | error e => exact .inl ⟨rfl, e, rfl⟩
  | ok request =>
    unfold found at hfound
    cases hx : (execFile env s.history.length (.read p) s.state.disk).1 with
    | error e =>
      rw [hx] at hfound
      cases hfound
    | ok bytes =>
      rw [hx] at hfound
      refine .inr ⟨request, bytes, execFile_read hx, hfound, ?_⟩
      cases houtcome : env.exported (s.history.length + 1) with
      | acknowledged => exact .inr ⟨rfl, rfl⟩
      | status text => exact .inl ⟨fun h => (by cases h), rfl⟩
      | timedOut => exact .inl ⟨fun h => (by cases h), rfl⟩

theorem replayed_holder : (replayed P env i s p).state.holder = s.state.holder := by
  rcases replayed_cases P env i s p with ⟨h, -⟩ | ⟨_, _, -, -, ⟨-, h⟩ | ⟨-, h⟩⟩ <;> rw [h] <;> rfl

theorem quiet_content {n : Nat} (hop : op.quiet = true) (q : Path) :
    (execFile env n op d).2.content q = d.content q :=
  (execFile_quiet hop).content q

theorem quiet_numbered {n : Nat} (hop : op.quiet = true) (h : d.Numbered) : (execFile env n op d).2.Numbered := by
  have hsame : d.SameFiles (execFile env n op d).2 := execFile_quiet hop
  intro q m hm
  rw [hsame.file] at hm
  rw [hsame.next]
  exact h q m hm

/-- A file is removed, or the call has failed. -/
theorem removeFile_cases (env : Env) (i : ι) (s : ClientState ι) (p : Path) :
    (∃ e, (execFile env s.history.length (.removeFile p) s.state.disk).1 = .error e ∧
        (after env i s (.removeFile p)).state.disk = s.state.disk) ∨
      (execFile env s.history.length (.removeFile p) s.state.disk).1 = .ok () ∧
        (after env i s (.removeFile p)).state.disk = (s.state.disk.removeFile p (env.clock s.history.length)).2 := by
  cases hx : (execFile env s.history.length (.removeFile p) s.state.disk).1 with
  | error e => exact .inl ⟨e, rfl, execFile_error (by simp) hx⟩
  | ok v =>
    refine .inr ⟨rfl, ?_⟩
    rw [after_disk, (execFile_ok hx).2.2]
    rfl

theorem removeFile_content {now : Time} (q : Path) :
    (d.removeFile p now).2.content q = if q = p then none else d.content q := by
  split
  · next hq =>
    rw [hq, Disk.content, Disk.removeFile_self]
    rfl
  · next hq =>
    by_contra hne
    exact hq (Disk.removeFile_changes hne)

section Balance
variable {W : Worker} {pending : List LogRecord}

/-- The account, over the replay of one file. -/
theorem replayed_balanced (B : Balanced P W env t pending s) (hp : IsBatch W.queueDir p) :
    Balanced P W env t pending (replayed P env i s p) := by
  rcases replayed_cases P env i s p with ⟨h, -⟩ | ⟨request, bytes, hcontent, hdecode, ⟨houtcome, h⟩ | ⟨-, h⟩⟩
  · rw [h]
    have hall : (after env i s (.read p)).history =
      [⟨i, .file (.read p), (execFile env s.history.length (.read p) s.state.disk).1⟩] ++ s.history := rfl
    exact B.aside hall (List.forall_mem_singleton.mpr ⟨rfl, rfl⟩) (quiet_numbered rfl B.numbered)
      fun q _ => quiet_content rfl q
  · rw [h]
    have hall : (called i (after env i s (.read p)) (.exportLogs request)
        (env.exported (s.history.length + 1))).history =
      [⟨i, .exportLogs request, env.exported (s.history.length + 1)⟩,
        ⟨i, .file (.read p), (execFile env s.history.length (.read p) s.state.disk).1⟩] ++ s.history := rfl
    refine B.advance hall (quiet_numbered rfl B.numbered)
      (fun n id _ _ hnone => (quiet_content rfl _).trans hnone) (fun _ => ?_)
      fun _ hold => hold.of_le fun q b _ hb => (quiet_content rfl q).symm.trans hb
    have hsame : queue P W.queueDir (after env i s (.read p)).state.disk = queue P W.queueDir s.state.disk :=
      queue_congr fun q _ => quiet_content rfl q
    have hnone : delivered [(⟨i, .exportLogs request, env.exported (s.history.length + 1)⟩ : ClientEvent ι),
        ⟨i, .file (.read p), (execFile env s.history.length (.read p) s.state.disk).1⟩] = 0 := by
      cases hx : env.exported (s.history.length + 1) with
      | acknowledged => exact absurd hx houtcome
      | _ => rfl
    rw [called_state, hsame, hnone]
    simp [sampled, sampledOf]
  · rw [h]
    generalize hsent : called i (after env i s (.read p)) (.exportLogs request) ExportOutcome.acknowledged = sent
    have hdisk : ∀ q, sent.state.disk.content q = s.state.disk.content q := fun q => hsent ▸ quiet_content rfl q
    have hnumbered : sent.state.disk.Numbered := hsent ▸ quiet_numbered rfl B.numbered
    have hall : (after env i sent (.removeFile p)).history =
        [⟨i, .file (.removeFile p), (execFile env sent.history.length (.removeFile p) sent.state.disk).1⟩,
          ⟨i, .exportLogs request, ExportOutcome.acknowledged⟩,
          ⟨i, .file (.read p), (execFile env s.history.length (.read p) s.state.disk).1⟩] ++ s.history := by
      rw [← hsent]
      rfl
    rcases removeFile_cases env i sent p with ⟨e, herror, hkept⟩ | ⟨-, hremoved⟩
    · have hfailed : ¬ Sound P (⟨i, .file (.removeFile p),
          (execFile env sent.history.length (.removeFile p) sent.state.disk).1⟩ : ClientEvent ι) := by
        intro hsound
        have hok : (execFile env sent.history.length (.removeFile p) sent.state.disk).1 = .ok () := hsound
        rw [herror] at hok
        cases hok
      refine B.advance hall (hkept ▸ hnumbered) (fun n id _ _ hnone => ?_)
        (fun hsound => absurd (hsound _ (.head _)) hfailed) fun hsound => absurd (hsound _ (.head _)) hfailed
      rw [hkept, hdisk, hnone]
    · have hafter : ∀ q, (after env i sent (.removeFile p)).state.disk.content q =
          if q = p then none else s.state.disk.content q := by
        intro q
        rw [hremoved, removeFile_content, hdisk]
      refine B.advance hall (hremoved ▸ hnumbered.removeFile) (fun n id _ _ hnone => ?_) (fun _ => ?_)
        fun _ hold => hold.of_le fun q b _ hb => ?_
      · rw [hafter, hnone, ite_self]
      · have hrecords : fileRecords P s.state.disk p = requestRecords request := by
          unfold fileRecords
          rw [hcontent, Option.map_some, hdecode]
        have hqueue := queue_insert (P := P) hp ((hafter p).trans (if_pos rfl)) (hcontent ▸ rfl)
          fun q _ hq => ((hafter q).trans (if_neg hq)).symm
        rw [hqueue, hrecords]
        simp [delivered, deliveredOf, requestOf, sampled, sampledOf]
      · rw [hafter] at hb
        split at hb
        · cases hb
        · exact hb

theorem foldl_replayed_balanced {paths : List Path} (hpaths : ∀ p ∈ paths, IsBatch W.queueDir p)
    (B : Balanced P W env t pending s) : Balanced P W env t pending (paths.foldl (replayed P env i) s) := by
  induction paths generalizing s with
  | nil => exact B
  | cons p rest ih =>
    rw [List.forall_mem_cons] at hpaths
    exact ih hpaths.2 (replayed_balanced B hpaths.1)

theorem foldl_replayed_holder {paths : List Path} :
    (paths.foldl (replayed P env i) s).state.holder = s.state.holder := by
  induction paths generalizing s with
  | nil => rfl
  | cons p rest ih => exact ih.trans replayed_holder

end Balance

end Replay

/-! ### The startup -/

section Startup
variable {ι : Type} {P : ExportCrates} {W : Worker} {env : Env} {i : ι} {dir : Path} {s t u v : ClientState ι}

/-- Calls that leave the batches as they are. -/
structure Unmoved (dir : Path) (s v : ClientState ι) : Prop where
  history : ∃ new, v.history = new ++ s.history ∧ ∀ e ∈ new, Aside e ∧ ∀ P, Sound P e
  numbered : s.state.disk.Numbered → v.state.disk.Numbered
  content : s.state.disk.Numbered → ∀ q, IsBatch dir q → v.state.disk.content q = s.state.disk.content q

theorem Unmoved.trans (h : Unmoved dir s u) (h' : Unmoved dir u v) : Unmoved dir s v := by
  obtain ⟨new, hnew, haside⟩ := h.history
  obtain ⟨newer, hnewer, haside'⟩ := h'.history
  refine ⟨⟨newer ++ new, ?_, List.forall_mem_append.mpr ⟨haside', haside⟩⟩, fun hd => h'.numbered (h.numbered hd),
    fun hd q hq => (h'.content (h.numbered hd) q hq).trans (h.content hd q hq)⟩
  rw [hnewer, hnew, List.append_assoc]

theorem Unmoved.quiet (hop : op.quiet = true) : Unmoved dir s (after env i s op) := by
  refine ⟨⟨[⟨i, .file op, _⟩], rfl, List.forall_mem_singleton.mpr ⟨⟨rfl, rfl⟩, fun _ => ?_⟩⟩, quiet_numbered hop,
    fun _ q _ => quiet_content hop q⟩
  cases op with
  | removeFile p => cases hop
  | _ => trivial

theorem Unmoved.same {e : ClientEvent ι} (hh : v.history = e :: s.history) (he : Aside e ∧ ∀ P, Sound P e)
    (hdisk : v.state.disk = s.state.disk) : Unmoved dir s v :=
  ⟨⟨[e], hh, List.forall_mem_singleton.mpr he⟩, fun hd => hdisk ▸ hd, fun _ _ _ => by rw [hdisk]⟩

theorem Unmoved.openLock : Unmoved dir s (after env i s (.openAppend (lockPath dir))) := by
  cases hx : (execFile env s.history.length (.openAppend (lockPath dir)) s.state.disk).1 with
  | error e => exact .same rfl ⟨⟨rfl, rfl⟩, fun _ => trivial⟩ (execFile_error (by simp) hx)
  | ok g =>
    have hdisk : (after env i s (.openAppend (lockPath dir))).state.disk =
        (s.state.disk.openAppend (lockPath dir) (env.clock s.history.length)).2 := by
      rw [after_disk, (execFile_ok hx).2.2]
      rfl
    refine ⟨⟨[⟨i, .file (.openAppend (lockPath dir)), _⟩], rfl,
      List.forall_mem_singleton.mpr ⟨⟨rfl, rfl⟩, fun _ => trivial⟩⟩,
      fun hd => hdisk ▸ hd.openAppend, fun hd q hq => ?_⟩
    rw [hdisk]
    exact (Disk.openAppend_content hd q).2 fun heq => lockPath_not_isBatch dir (heq ▸ hq)

theorem Balanced.unmoved {pending : List LogRecord} (B : Balanced P W env t pending s)
    (h : Unmoved W.queueDir s v) : Balanced P W env t pending v := by
  obtain ⟨new, hnew, haside⟩ := h.history
  exact B.aside hnew (fun e he => (haside e he).1) (h.numbered B.numbered) (h.content B.numbered)

/-- Some call from here on is hit by a fault. -/
def Faulty (env : Env) (s : ClientState ι) : Prop := ∃ n, s.history.length ≤ n ∧ env.faults n ≠ none

theorem acquire_some {r : Except IoError Unit} (h : Action.alone env i (acquire id dir) s = some (r, u)) :
    Unmoved dir s u ∧ (r = .ok () ∧ s.state.holder (lockPath dir) = none ∧
        u.state.holder = Function.update s.state.holder (lockPath dir) (some i) ∨
      (∃ e, r = .error e) ∧ u.state.holder = s.state.holder ∧ Faulty env s) := by
  unfold acquire at h
  rcases file_some h with ⟨v, hv, h⟩ | ⟨e, he, rfl, rfl⟩
  · rcases file_some h with ⟨g, hg, h⟩ | ⟨e, he, rfl, rfl⟩
    · obtain ⟨⟨x, w⟩, hx, hr⟩ := Option.bind_eq_some_iff.mp h
      obtain ⟨rfl, rfl⟩ := result_eq hr
      obtain ⟨hexec, hh⟩ := record_eq_some.mp hx
      have hdisk := lock_disk hexec
      refine ⟨((Unmoved.quiet rfl).trans .openLock).trans (.same hh ⟨⟨rfl, rfl⟩, fun _ => trivial⟩ hdisk), .inl ⟨rfl, ?_⟩⟩
      unfold World.exec at hexec
      cases hholder : s.state.holder (lockPath dir) with
      | some j =>
        have hheld : (after env i (after env i s (.createDirAll dir)) (.openAppend (lockPath dir))).state.holder
          (lockPath dir) = some j := hholder
        simp only [hheld] at hexec
        cases hexec
      | none =>
        have hfree : (after env i (after env i s (.createDirAll dir)) (.openAppend (lockPath dir))).state.holder
          (lockPath dir) = none := hholder
        simp only [hfree] at hexec
        rw [← (result_eq hexec).2]
        exact ⟨rfl, rfl⟩
    · refine ⟨(Unmoved.quiet rfl).trans .openLock, .inr ⟨⟨_, rfl⟩, rfl, s.history.length + 1, Nat.le_succ _, fun hn => ?_⟩⟩
      have horphan : orphan (.openAppend (lockPath dir)) (after env i s (.createDirAll dir)).state.disk = false := by
        rw [after_disk, (execFile_ok hv).2.2, orphan, Option.isNone_eq_false_iff, lockPath,
          Component.join ⟨by decide, by decide, by decide⟩, Path.parent, List.dropLast_concat]
        exact Disk.createDirAll_dir _ _ _ |>.mpr (.inl (List.prefix_refl _))
      rw [after_calls, execFile_sound hn horphan] at he
      cases he
  · refine ⟨.quiet rfl, .inr ⟨⟨_, rfl⟩, rfl, s.history.length, Nat.le_refl _, fun hn => ?_⟩⟩
    rw [execFile_sound hn rfl] at he
    cases he

/-- The batches that a listing shows, which are all unless it has failed. -/
theorem pendingLogBatches_run (env : Env) (i : ι) (s : ClientState ι) (dir : Path) :
    ∃ r, (pendingLogBatches dir).alone env i s = some (r, after env i s (.readDir dir)) ∧
    (∀ paths, r = .ok paths → ∀ p ∈ paths, IsBatch dir p) ∧
    (Faulty env s ∨ ∃ paths, r = .ok paths ∧
      ∀ p, IsBatch dir p → (s.state.disk.content p).isSome = true → p ∈ paths) := by
  unfold pendingLogBatches
  rw [alone_attempt]
  cases hx : (execFile env s.history.length (.readDir dir) s.state.disk).1 with
  | ok entries =>
    have hmem : ∀ p, p ∈ ((entries.map Prod.fst).filter isLogBatch).mergeSort ↔
        p ∈ s.state.disk.children dir ∧ isLogBatch p = true := by
      intro p
      have hentries : (s.state.disk.children dir |> (env.order s.history.length).arrange).map
          (fun q => (q, (s.state.disk.dir q).isSome)) = entries := by
        rw [(execFile_ok hx).2.2] at hx
        exact Except.ok.inj hx
      rw [(List.mergeSort_perm _ _).mem_iff, List.mem_filter, ← hentries, List.map_map]
      refine and_congr_left fun _ => ?_
      rw [← ((env.order s.history.length).perm (s.state.disk.children dir)).mem_iff]
      simp
    refine ⟨.ok _, rfl, fun paths hpaths p hp => ?_, .inr ⟨_, rfl, fun p hp hcontent => (hmem p).mpr ⟨?_, hp.2.2⟩⟩⟩
    · rw [← Except.ok.inj hpaths, hmem] at hp
      obtain ⟨hne, hparent, -⟩ := Disk.mem_children.mp hp.1
      exact ⟨hne, hparent, hp.2⟩
    · rw [content_isSome] at hcontent
      exact Disk.mem_children.mpr ⟨hp.1, hp.2.1, by rw [Disk.occupied, hcontent, Bool.true_or]⟩
  | error e =>
    have hfaulty : Faulty env s := by
      refine ⟨s.history.length, Nat.le_refl _, fun hn => ?_⟩
      rw [execFile_sound hn rfl] at hx
      cases hx
    cases e with
    | notFound =>
      refine ⟨.ok [], rfl, fun paths hpaths p hp => ?_, .inl hfaulty⟩
      rw [← Except.ok.inj hpaths] at hp
      cases hp
    | _ => exact ⟨.error _, rfl, fun _ h => (by cases h), .inl hfaulty⟩

/-- The replay, which the lock is held for. -/
theorem replays_run (env : Env) (i : ι) (s : ClientState ι) (dir : Path) : ∃ (r : Except IoError Unit) (paths : List Path),
    Action.alone env i (do
      let paths ← pendingLogBatches dir
      ExceptT.lift (replayAll P paths)) s =
        some (r, paths.foldl (replayed P env i) (after env i s (.readDir dir))) ∧
      (∀ p ∈ paths, IsBatch dir p) ∧
      (Faulty env s ∨ ∀ p, IsBatch dir p → (s.state.disk.content p).isSome = true → p ∈ paths) := by
  obtain ⟨r, hlisting, hbatches, hcomplete⟩ := pendingLogBatches_run env i s dir
  cases r with
  | error e =>
    refine ⟨.error e, [], Program.run_bind_error _ hlisting, fun _ h => (by cases h), .inl (hcomplete.resolve_right ?_)⟩
    rintro ⟨_, hok, -⟩
    cases hok
  | ok paths =>
    have hreplay : Action.alone env i (ExceptT.lift (replayAll P paths) : Action IoError Unit)
        (after env i s (.readDir dir)) =
        some (.ok (), paths.foldl (replayed P env i) (after env i s (.readDir dir))) := by
      show (replayAll P paths >>= fun a => .done (Except.ok a : Except IoError Unit)).run (execAs env i) _ = _
      rw [Program.run_bind, replayAll_run]
      rfl
    refine ⟨.ok (), paths, (Program.run_bind_ok _ hlisting).trans hreplay, hbatches paths rfl, hcomplete.imp_right ?_⟩
    rintro ⟨_, hpaths, hall⟩
    obtain rfl := Except.ok.inj hpaths
    exact hall

/-- The state once the lock is dropped. -/
def released (i : ι) (dir : Path) (v : ClientState ι) : ClientState ι :=
  ⟨{v.state with holder := Function.update v.state.holder (lockPath dir) none},
    ⟨i, .unlock (lockPath dir), ()⟩ :: v.history⟩

theorem released_holder : (released i dir v).state.holder = Function.update v.state.holder (lockPath dir) none := rfl

/-- The lock is given back whatever comes of the work. -/
theorem guarded_run {p : Action IoError Unit} {r : Except IoError Unit} (hp : p.alone env i s = some (r, v)) :
    (guarded dir p).alone env i s = some (r, released i dir v) := by
  have hp : p.run.run (execAs env i) s = some (r, v) := hp
  show (p.run >>= fun r => Program.perform (S := clientInterface) (.unlock (lockPath dir)) >>=
    fun _ => .done r).run (execAs env i) s = _
  rw [Program.run_bind, hp]
  rfl

/-- What a startup has done: it has replayed batches, all of them unless it was hit by a fault. -/
structure Started (P : ExportCrates) (env : Env) (i : ι) (dir : Path) (s u : ClientState ι) : Prop where
  holder : u.state.holder = s.state.holder
  paths : ∃ (v : ClientState ι) (paths : List Path), Unmoved dir s v ∧ (∀ p ∈ paths, IsBatch dir p) ∧
    (Faulty env s ∨ ∀ p, IsBatch dir p → (v.state.disk.content p).isSome = true → p ∈ paths) ∧
    Unmoved dir (paths.foldl (replayed P env i) v) u

theorem Unmoved.refl (s : ClientState ι) : Unmoved dir s s := ⟨⟨[], rfl, fun _ h => (by cases h)⟩, id, fun _ _ _ => rfl⟩

theorem Faulty.of_unmoved (h : Unmoved dir s v) (hv : Faulty env v) : Faulty env s := by
  obtain ⟨n, hn, hfault⟩ := hv
  obtain ⟨new, hnew, -⟩ := h.history
  rw [hnew, List.length_append] at hn
  exact ⟨n, by omega, hfault⟩

theorem drainSpooled_some (h : (drainSpooled P W).run (execAs env i) s = some ((), u)) :
    Started P env i W.queueDir s u := by
  unfold drainSpooled at h
  rw [Program.run_bind] at h
  obtain ⟨⟨r, w⟩, hw, h⟩ := Option.bind_eq_some_iff.mp h
  obtain ⟨-, rfl⟩ := result_eq h
  obtain ⟨r', v, hacquire, hrest⟩ := bind_some hw
  obtain ⟨hv, ⟨rfl, hfree, hheld⟩ | ⟨⟨e, rfl⟩, hholder, hfaulty⟩⟩ := acquire_some hacquire
  · obtain ⟨r₁, paths, hreplays, hbatches, hcomplete⟩ := replays_run (P := P) env i v W.queueDir
    obtain ⟨-, rfl⟩ := Prod.mk.inj (Option.some.inj ((guarded_run hreplays).symm.trans hrest))
    have hquiet : Unmoved W.queueDir v (after env i v (.readDir W.queueDir)) := .quiet rfl
    refine ⟨?_, _, paths, hv.trans hquiet, hbatches, ?_, .same rfl ⟨⟨rfl, rfl⟩, fun _ => trivial⟩ rfl⟩
    · have hkept : (paths.foldl (replayed P env i) (after env i v (.readDir W.queueDir))).state.holder = v.state.holder :=
        foldl_replayed_holder
      rw [released_holder, hkept, hheld, Function.update_idem, ← hfree, Function.update_eq_self]
    · refine hcomplete.imp (.of_unmoved hv) fun hall p hp hcontent => hall p hp ?_
      rwa [show (after env i v (.readDir W.queueDir)).state.disk.content p = v.state.disk.content p from
        quiet_content rfl p] at hcontent
  · obtain ⟨-, rfl⟩ := hrest
    exact ⟨hholder, w, [], hv, fun _ h => (by cases h), .inl hfaulty, .refl _⟩

theorem file_run {ε : Type} (env : Env) (i : ι) (s : ClientState ι) (op : FileOp) (wrap : IoError → ε) :
    (file wrap op).run.run (execAs env i) s =
      some ((execFile env s.history.length op s.state.disk).1.mapError wrap, after env i s op) := rfl

theorem lock_run (env : Env) (i : ι) (w : ClientState ι) (hfree : w.state.holder (lockPath dir) = none) :
    ∃ v, (call (.lock (lockPath dir)) : Action IoError Unit).run.run (execAs env i) w = some (.ok (), v) := by
  have hlock : execAs env i (.lock (lockPath dir)) w = some ((),
      ⟨{w.state with holder := Function.update w.state.holder (lockPath dir) (some i)},
        ⟨i, .lock (lockPath dir), ()⟩ :: w.history⟩) := by
    refine record_eq_some.mpr ⟨?_, rfl⟩
    unfold World.exec
    simp only [hfree]
  exact ⟨_, congrArg (Option.bind · _) hlock⟩

/-- A lock that is free does not make anyone wait. -/
theorem acquire_ends (env : Env) (i : ι) (hfree : s.state.holder (lockPath dir) = none) :
    ∃ r v, (acquire id dir : Action IoError Unit).run.run (execAs env i) s = some (r, v) := by
  have hdir := file_run env i s (.createDirAll dir) id
  unfold acquire
  cases hx : (execFile env s.history.length (.createDirAll dir) s.state.disk).1 with
  | error e =>
    rw [hx] at hdir
    exact ⟨_, _, Program.run_bind_error _ hdir⟩
  | ok v =>
    rw [hx] at hdir
    have hopen := file_run env i (after env i s (.createDirAll dir)) (.openAppend (lockPath dir)) id
    rw [Program.run_bind_ok _ hdir]
    cases hy : (execFile env (after env i s (.createDirAll dir)).history.length (.openAppend (lockPath dir))
        (after env i s (.createDirAll dir)).state.disk).1 with
    | error e =>
      rw [hy] at hopen
      exact ⟨_, _, Program.run_bind_error _ hopen⟩
    | ok g =>
      rw [hy] at hopen
      obtain ⟨v, hlock⟩ := lock_run env i (after env i (after env i s (.createDirAll dir))
        (.openAppend (lockPath dir))) hfree
      exact ⟨_, v, (Program.run_bind_ok _ hopen).trans hlock⟩

/-- The replay takes no message. -/
theorem drainSpooled_only : (drainSpooled P W).Only fun op => isNext op = false := by
  have hreplay : ∀ paths, (replayAll P paths).Only fun op => isNext op = false := by
    intro paths
    induction paths with
    | nil => trivial
    | cons path rest ih =>
      refine Program.Only.bind (Program.Only.bind ?_ fun request => ?_) fun _ => ih
      · exact Program.Only.andThen ⟨rfl, fun _ => trivial⟩ fun _ => trivial
      · cases request with
        | error e => trivial
        | ok request =>
          refine ⟨rfl, fun outcome => ?_⟩
          cases outcome with
          | acknowledged => exact ⟨rfl, fun _ => trivial⟩
          | status text => trivial
          | timedOut => trivial
  refine Program.Only.bind ?_ fun _ => trivial
  refine Program.Only.andThen ?_ fun _ => ?_
  · refine Program.Only.andThen ⟨rfl, fun _ => trivial⟩ fun _ => ?_
    exact Program.Only.andThen ⟨rfl, fun _ => trivial⟩ fun _ => ⟨rfl, fun _ => trivial⟩
  · refine Program.Only.bind ?_ fun _ => ⟨rfl, fun _ => trivial⟩
    refine Program.Only.andThen ?_ fun paths => Program.Only.bind (hreplay paths) fun _ => trivial
    refine Program.Only.andThen ⟨rfl, fun _ => trivial⟩ fun listing => ?_
    cases listing with
    | ok entries => trivial
    | error e => cases e <;> trivial

/-- A startup comes to its end if nobody holds the lock. -/
theorem drainSpooled_ends (P : ExportCrates) (env : Env) (i : ι) (hfree : s.state.holder (lockPath W.queueDir) = none) :
    ∃ u, (drainSpooled P W).run (execAs env i) s = some ((), u) := by
  obtain ⟨r, v, hacquire⟩ := acquire_ends env i hfree
  unfold drainSpooled
  rw [Program.run_bind]
  cases r with
  | error e => exact ⟨v, by rw [Program.run_bind_error _ hacquire]; rfl⟩
  | ok _ =>
    obtain ⟨r, paths, hreplays, -⟩ := replays_run (P := P) env i v W.queueDir
    refine ⟨released i W.queueDir (paths.foldl (replayed P env i) (after env i v (.readDir W.queueDir))), ?_⟩
    rw [Program.run_bind_ok _ hacquire]
    exact congrArg (Option.bind · _) (guarded_run hreplays)

end Startup

end Detritus.Client.Worker
