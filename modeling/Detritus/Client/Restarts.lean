import Detritus.Client.Startup

/-! Workers one after the other on one queue directory.

A record goes from the channel to the server, or to a file and, when a later worker
starts, from there to the server. Over any number of workers the account is kept: what
was in the files and what came is what was acknowledged, what is in the files, and the
batches of workers that ended while they waited for a message. A startup while the server
answers leaves no batch behind. -/
namespace Detritus.Client.Worker
open Files Protocol Process

/-! ### One worker after the other -/

section Lifetimes
variable {ι : Type} {P : ExportCrates} {W : Worker} {env : Env} {i : ι} {dir : Path} {s t u v : ClientState ι}
  {pending : List LogRecord}

theorem Started.balanced (h : Started P env i W.queueDir s u) (B : Balanced P W env t pending s) :
    Balanced P W env t pending u := by
  obtain ⟨v, paths, hv, hpaths, -, hu⟩ := h.paths
  exact (foldl_replayed_balanced hpaths (B.unmoved hv)).unmoved hu

theorem init_some {r : List LogRecord ⊕ Unit} (h : (run P W).init.run (execAs env i) s = some (r, u)) :
    r = .inl [] ∧ Started P env i W.queueDir s u := by
  have h : (drainSpooled P W >>= fun _ => .done (.inl [])).run (execAs env i) s = some (r, u) := h
  rw [Program.run_bind] at h
  obtain ⟨⟨_, w⟩, hw, h⟩ := Option.bind_eq_some_iff.mp h
  obtain ⟨rfl, rfl⟩ := result_eq h
  exact ⟨rfl, drainSpooled_some hw⟩

/-- The account of one worker, wherever it has come to. -/
theorem reaches_balanced (B : Balanced P W env t [] t) {r : (run P W).Var ⊕ Unit}
    (h : (run P W).Reaches (execAs env i) (SpoolSound env.faults) t r u) :
    Balanced P W env t (r.elim id fun _ => []) u := by
  induction h with
  | init _ hr =>
    obtain ⟨rfl, hstarted⟩ := init_some hr
    exact hstarted.balanced B
  | turn _ hm hr ih => exact (turn_balanced ih).run hm hr

/-- The runs of workers one after the other on a queue directory, with the records that came and were sampled, and
those that were in memory when a worker ended while it waited. -/
inductive Lifetimes (P : ExportCrates) (env : Env) (dir : Path) (s : ClientState ι) :
    Multiset LogRecord → Multiset LogRecord → ClientState ι → Prop
  | start : Lifetimes P env dir s 0 0 s
  | worker {came lost : Multiset LogRecord} {t u : ClientState ι} {new : List (ClientEvent ι)} (i : ι) (W : Worker)
      {r : List LogRecord ⊕ Unit} (h : Lifetimes P env dir s came lost t) (hdir : W.queueDir = dir)
      (hrun : (run P W).Reaches (execAs env i) (SpoolSound env.faults) t r u) (hnew : u.history = new ++ t.history) :
      Lifetimes P env dir s (came + (sampled P W new : Multiset LogRecord))
        (lost + (r.elim id fun _ => [] : List LogRecord)) u

/-- The account of all of them. -/
structure Settled (P : ExportCrates) (env : Env) (dir : Path) (s : ClientState ι) (came lost : Multiset LogRecord)
    (u : ClientState ι) : Prop where
  numbered : u.state.disk.Numbered
  supply : ∀ n id, u.history.length ≤ n → env.uuid n = some id → u.state.disk.content (logPath dir id) = none
  balance : ∃ new, u.history = new ++ s.history ∧ ((∀ e ∈ new, Sound P e) →
    queue P dir s.state.disk + came = delivered new + queue P dir u.state.disk + lost ∧
      (Legible P dir s.state.disk → Legible P dir u.state.disk))

theorem Lifetimes.settled {came lost : Multiset LogRecord} (h : Lifetimes P env dir s came lost u)
    (hnumbered : s.state.disk.Numbered) (hsupply : ∀ n id, s.history.length ≤ n → env.uuid n = some id →
      s.state.disk.content (logPath dir id) = none) : Settled P env dir s came lost u := by
  induction h with
  | start =>
    refine ⟨hnumbered, hsupply, [], rfl, fun _ => ⟨?_, id⟩⟩
    simp [delivered]
  | worker i W _ hdir hrun hnew ih =>
    subst hdir
    obtain ⟨older, holder, hbefore⟩ := ih.balance
    have B := reaches_balanced (.start ih.numbered ih.supply) hrun
    obtain ⟨new', hnew', hworker⟩ := B.balance
    obtain rfl := List.append_cancel_right (hnew.symm.trans hnew')
    refine ⟨B.numbered, B.supply, _, by rw [hnew, holder, List.append_assoc], fun hsound => ?_⟩
    rw [List.forall_mem_append] at hsound
    obtain ⟨hbooks, hlegible⟩ := hbefore hsound.2
    have hw := hworker hsound.1
    refine ⟨?_, fun hs => hw.legible (hlegible hs)⟩
    rw [delivered_append, ← add_assoc, hbooks, add_right_comm, add_assoc _ (queue P W.queueDir _), hw.books]
    abel

theorem reaches_holder {r : (run P W).Var ⊕ Unit}
    (h : (run P W).Reaches (execAs env i) (SpoolSound env.faults) t r u) : u.state.holder = t.state.holder := by
  induction h with
  | init _ hr => exact (init_some hr).2.holder
  | turn _ _ hr ih => exact (own_holder (turn_own _) hr).trans ih

theorem Lifetimes.holder {came lost : Multiset LogRecord} (h : Lifetimes P env dir s came lost u) :
    u.state.holder = s.state.holder := by
  induction h with
  | start => rfl
  | worker i W _ _ hrun _ ih => exact (reaches_holder hrun).trans ih

/-- **No record is lost or doubled, whoever restarts when.** What was in the queue and what came is what was
acknowledged, what is in the queue, and what workers had in memory that ended while they waited. -/
theorem restarts_conserve {came lost : Multiset LogRecord} (hnumbered : s.state.disk.Numbered)
    (hsupply : ∀ n id, s.history.length ≤ n → env.uuid n = some id → s.state.disk.content (logPath dir id) = none)
    (h : Lifetimes P env dir s came lost u) {new : List (ClientEvent ι)} (hnew : u.history = new ++ s.history)
    (hsound : ∀ e ∈ new, Sound P e) :
    queue P dir s.state.disk + came = delivered new + queue P dir u.state.disk + lost := by
  obtain ⟨new', hnew', hbalance⟩ := (h.settled hnumbered hsupply).balance
  obtain rfl := List.append_cancel_right (hnew.symm.trans hnew')
  exact (hbalance hsound).1

end Lifetimes

/-! ### A startup while the server answers -/

section Calm
variable {ι : Type} {P : ExportCrates} {W : Worker} {env : Env} {i : ι} {dir p : Path} {s t u : ClientState ι}

/-- From here on no call is hit by a fault, and every export is acknowledged. -/
def Calm (env : Env) (s : ClientState ι) : Prop :=
  ∀ n, s.history.length ≤ n → env.faults n = none ∧ env.exported n = .acknowledged

theorem Calm.later (h : Calm env s) {new : List (ClientEvent ι)} (hu : u.history = new ++ s.history) : Calm env u := by
  intro n hn
  rw [hu, List.length_append] at hn
  exact h n (by omega)

theorem Calm.not_faulty (h : Calm env s) : ¬ Faulty env s := by
  rintro ⟨n, hn, hfault⟩
  exact hfault (h n hn).1

theorem found_calm (hcalm : Calm env s) (hlegible : Legible P dir s.state.disk) (hp : IsBatch dir p) {bytes : Bytes}
    (hcontent : s.state.disk.content p = some bytes) : ∃ request, found P env s p = .ok request := by
  obtain ⟨request, hrequest⟩ := hlegible p bytes hp hcontent
  have hread : (execFile env s.history.length (.read p) s.state.disk).1 = .ok bytes := by
    rw [execFile_sound (hcalm _ (Nat.le_refl _)).1 rfl]
    show s.state.disk.read p = _
    rw [Disk.read, hcontent]
  refine ⟨request, ?_⟩
  rw [found, hread]
  exact hrequest

/-- The file goes, and nothing else. -/
theorem replayed_calm (hcalm : Calm env s) (hlegible : Legible P dir s.state.disk) (hp : IsBatch dir p) :
    (∃ new, (replayed P env i s p).history = new ++ s.history ∧ ∀ e ∈ new, Sound P e) ∧
      ∀ q, (replayed P env i s p).state.disk.content q = if q = p then none else s.state.disk.content q := by
  rcases replayed_cases P env i s p with ⟨h, e, herror⟩ | ⟨request, bytes, hcontent, -, ⟨houtcome, -⟩ | ⟨-, h⟩⟩
  · have hnone : s.state.disk.content p = none := by
      cases hcontent : s.state.disk.content p with
      | none => rfl
      | some bytes =>
        obtain ⟨request, hfound⟩ := found_calm hcalm hlegible hp hcontent
        rw [herror] at hfound
        cases hfound
    rw [h]
    refine ⟨⟨[⟨i, .file (.read p), _⟩], rfl, List.forall_mem_singleton.mpr trivial⟩, fun q => ?_⟩
    rw [after_disk, quiet_content rfl]
    split
    · next hq => rw [hq, hnone]
    · rfl
  · exact absurd (hcalm _ (Nat.le_succ _)).2 houtcome
  · rw [h]
    generalize hsent : called i (after env i s (.read p)) (.exportLogs request) ExportOutcome.acknowledged = sent
    have hdisk : ∀ q, sent.state.disk.content q = s.state.disk.content q := fun q => hsent ▸ quiet_content rfl q
    have hfile : ∃ n, sent.state.disk.file p = some n := by
      rw [← Option.isSome_iff_exists, ← content_isSome, hdisk, hcontent]
      rfl
    have hhistory : sent.history = [⟨i, .exportLogs request, ExportOutcome.acknowledged⟩,
        ⟨i, .file (.read p), (execFile env s.history.length (.read p) s.state.disk).1⟩] ++ s.history := by
      rw [← hsent]
      rfl
    have hcalm' : Calm env sent := hcalm.later hhistory
    have hexec : execFile env sent.history.length (.removeFile p) sent.state.disk =
        sent.state.disk.removeFile p (env.clock sent.history.length) :=
      execFile_sound (hcalm' _ (Nat.le_refl _)).1 rfl
    obtain ⟨n, hn⟩ := hfile
    refine ⟨⟨[⟨i, .file (.removeFile p), _⟩, _, _], congrArg (List.cons _) hhistory, ?_⟩, fun q => ?_⟩
    · refine List.forall_mem_cons.mpr ⟨?_, List.forall_mem_cons.mpr ⟨fun hne => absurd rfl hne,
        List.forall_mem_singleton.mpr trivial⟩⟩
      show (execFile env sent.history.length (.removeFile p) sent.state.disk).1 = _
      rw [hexec, Disk.removeFile_some hn]
    · rw [after_disk, hexec, removeFile_content, hdisk]

theorem foldl_calm {paths : List Path} (hpaths : ∀ p ∈ paths, IsBatch dir p) (hcalm : Calm env s)
    (hlegible : Legible P dir s.state.disk) :
    (∃ new, (paths.foldl (replayed P env i) s).history = new ++ s.history ∧ ∀ e ∈ new, Sound P e) ∧
      ∀ q, (paths.foldl (replayed P env i) s).state.disk.content q =
        if q ∈ paths then none else s.state.disk.content q := by
  induction paths generalizing s with
  | nil => exact ⟨⟨[], rfl, fun _ h => (by cases h)⟩, fun q => by simp⟩
  | cons p rest ih =>
    rw [List.forall_mem_cons] at hpaths
    obtain ⟨⟨new, hnew, hsound⟩, hcontent⟩ := replayed_calm (i := i) hcalm hlegible hpaths.1
    have hlegible' : Legible P dir (replayed P env i s p).state.disk := by
      refine hlegible.of_le fun q bytes _ hq => ?_
      rw [hcontent] at hq
      split at hq
      · cases hq
      · exact hq
    obtain ⟨⟨newer, hnewer, hsound'⟩, hcontent'⟩ := ih hpaths.2 (hcalm.later hnew) hlegible'
    refine ⟨⟨newer ++ new, ?_, List.forall_mem_append.mpr ⟨hsound', hsound⟩⟩, fun q => ?_⟩
    · rw [List.foldl_cons, hnewer, hnew, List.append_assoc]
    · rw [List.foldl_cons, hcontent', hcontent]
      by_cases hq : q = p <;> by_cases hr : q ∈ rest <;> simp [hq, hr]

/-- All batches go, and the calls are those of which the account speaks. -/
theorem Started.calm (h : Started P env i W.queueDir s u) (B : Balanced P W env s [] s) (hcalm : Calm env s)
    (hlegible : Legible P W.queueDir s.state.disk) :
    (∃ new, u.history = new ++ s.history ∧ ∀ e ∈ new, Sound P e) ∧ batches W.queueDir u.state.disk = [] := by
  obtain ⟨v, paths, hv, hpaths, hcomplete, hu⟩ := h.paths
  obtain ⟨first, hfirst, hsound⟩ := hv.history
  have hlegible : Legible P W.queueDir v.state.disk :=
    hlegible.of_le fun q bytes hq hbytes => (hv.content B.numbered q hq).symm.trans hbytes
  obtain ⟨⟨second, hsecond, hsound'⟩, hcontent⟩ := foldl_calm (i := i) hpaths (hcalm.later hfirst) hlegible
  obtain ⟨third, hthird, hsound''⟩ := hu.history
  have hnumbered := (foldl_replayed_balanced (i := i) hpaths (B.unmoved hv)).numbered
  refine ⟨⟨third ++ (second ++ first), ?_, ?_⟩, List.eq_nil_iff_forall_not_mem.mpr fun q hq => ?_⟩
  · rw [hthird, hsecond, hfirst, List.append_assoc, List.append_assoc]
  · exact List.forall_mem_append.mpr ⟨fun e he => (hsound'' e he).2 P,
      List.forall_mem_append.mpr ⟨hsound', fun e he => (hsound e he).2 P⟩⟩
  · obtain ⟨hbatch, hsome⟩ := mem_batches.mp hq
    rw [hu.content hnumbered q hbatch, hcontent] at hsome
    split at hsome
    · cases hsome
    · next hmem => exact hmem (hcomplete.resolve_left hcalm.not_faulty q hbatch hsome)

/-- **A startup while the server answers leaves nothing behind**: it comes to its end, the directory has no batch
then, and every record that ever came was acknowledged or in memory when a worker ended. -/
theorem restart_delivers {came lost : Multiset LogRecord} (hnumbered : s.state.disk.Numbered)
    (hsupply : ∀ n id, s.history.length ≤ n → env.uuid n = some id → s.state.disk.content (logPath dir id) = none)
    (hfree : s.state.holder (lockPath dir) = none) (hlegible : Legible P dir s.state.disk)
    (h : Lifetimes P env dir s came lost t) {old : List (ClientEvent ι)} (hold : t.history = old ++ s.history)
    (hsound : ∀ e ∈ old, Sound P e) (hcalm : Calm env t) (hdir : W.queueDir = dir) (i : ι) :
    ∃ u new, (run P W).init.run (execAs env i) t = some (.inl [], u) ∧ u.history = new ++ s.history ∧
      batches dir u.state.disk = [] ∧ queue P dir s.state.disk + came = delivered new + lost := by
  subst hdir
  have hsettled := h.settled hnumbered hsupply
  obtain ⟨old', hold', hbalance⟩ := hsettled.balance
  obtain rfl := List.append_cancel_right (hold.symm.trans hold')
  obtain ⟨hbooks, hkept⟩ := hbalance hsound
  obtain ⟨u, hu⟩ := drainSpooled_ends P env i ((congrFun h.holder _).trans hfree)
  have hstarted := drainSpooled_some hu
  have hstart : Balanced P W env t [] t := .start hsettled.numbered hsettled.supply
  obtain ⟨⟨new, hnew, hsound'⟩, hempty⟩ := hstarted.calm hstart hcalm (hkept hlegible)
  obtain ⟨new', hnew', hworker⟩ := (hstarted.balanced hstart).balance
  obtain rfl := List.append_cancel_right (hnew.symm.trans hnew')
  have hquiet : sampled P W new = [] := by
    obtain ⟨new', hnew', hnext⟩ := drainSpooled_only.history hu
    obtain rfl := List.append_cancel_right (hnew.symm.trans hnew')
    exact sampled_eq_nil hnext
  have hnone : queue P W.queueDir u.state.disk = 0 := by
    rw [queue, hempty]
    rfl
  have hstartup := (hworker hsound').books
  rw [hquiet, hnone] at hstartup
  refine ⟨u, new ++ old, ?_, by rw [hnew, hold, List.append_assoc], hempty, ?_⟩
  · have hinit : (run P W).init.run (execAs env i) t =
        ((drainSpooled P W).run (execAs env i) t).bind fun x => some (.inl [], x.2) := Program.run_bind ..
    rw [hinit, hu]
    rfl
  · have hqueue : queue P W.queueDir t.state.disk = delivered new := by simpa using hstartup
    rw [hbooks, hqueue, delivered_append, add_comm (delivered old)]

end Calm

/-! Three records: two that time out, and one that is in memory when the worker ends. The worker after it brings the
two to the server, and two more. -/

def haltEnv : Env :=
  {quietEnv with
    input := fun _ => .record blankRecord
    exported := fun n => if n = 7 then .timedOut else .acknowledged}

/-- A worker that takes `n` messages. -/
def sampleTurns (n : Nat) (s : ClientState Unit) : Option ((List LogRecord ⊕ Unit) × ClientState Unit) :=
  (run countCrates sampleWorker).turns (execAs haltEnv ()) (fun _ _ => true) n s

theorem sampleTurns_reaches {n : Nat} {s u : ClientState Unit} {r : List LogRecord ⊕ Unit}
    (h : sampleTurns n s = some (r, u)) :
    (run countCrates sampleWorker).Reaches (execAs haltEnv ()) (SpoolSound haltEnv.faults) s r u := by
  refine Task.reaches_of_turns (fun op s _ => ?_) h
  unfold SpoolSound
  split <;> trivial

def halted : ClientState Unit := ((sampleTurns 3 idleStart).map Prod.snd).getD idleStart

def restarted : ClientState Unit := ((sampleTurns 2 halted).map Prod.snd).getD halted

theorem halted_length : halted.history.length = 13 := by decide +kernel

theorem halted_turns : sampleTurns 3 idleStart = some (.inl [blankRecord], halted) := by with_unfolding_all rfl

theorem restarted_turns : sampleTurns 2 halted = some (.inl [], restarted) := by with_unfolding_all rfl

theorem halted_lifetimes : Lifetimes countCrates haltEnv ["queue"] idleStart
    (0 + ([blankRecord, blankRecord, blankRecord] : List LogRecord)) (0 + ([blankRecord] : List LogRecord)) halted := by
  have hsampled : sampled countCrates sampleWorker halted.history = [blankRecord, blankRecord, blankRecord] := by
    with_unfolding_all rfl
  rw [← hsampled]
  exact .worker () sampleWorker .start rfl (sampleTurns_reaches halted_turns) (List.append_nil _).symm

theorem restarted_lifetimes : Lifetimes countCrates haltEnv ["queue"] idleStart
    (0 + ([blankRecord, blankRecord, blankRecord] : List LogRecord) + ([blankRecord, blankRecord] : List LogRecord))
    (0 + ([blankRecord] : List LogRecord) + ([] : List LogRecord)) restarted := by
  have hnew : restarted.history = restarted.history.take (restarted.history.length - 13) ++ halted.history := by
    with_unfolding_all rfl
  have hsampled : sampled countCrates sampleWorker (restarted.history.take (restarted.history.length - 13)) =
      [blankRecord, blankRecord] := by with_unfolding_all rfl
  have hlifetimes := Lifetimes.worker () sampleWorker halted_lifetimes rfl (sampleTurns_reaches restarted_turns) hnew
  rw [hsampled] at hlifetimes
  exact hlifetimes

/-- Removals that have not failed. -/
def removes (e : ClientEvent Unit) : Bool :=
  match e with
  | ⟨_, .file (.removeFile _), x⟩ => decide (x = (.ok () : Except IoError Unit))
  | _ => true

theorem sound_of_requests {h : List (ClientEvent Unit)} (hremoves : h.all removes = true)
    (hrequests : ∀ q ∈ h.filterMap requestOf, q.1 = exportRequestFor sampleWorker.source [blankRecord, blankRecord]) :
    ∀ e ∈ h, Sound countCrates e := by
  intro e he
  have hremove := List.all_eq_true.mp hremoves e he
  obtain ⟨i, op, x⟩ := e
  cases op with
  | exportLogs request =>
    have hrequest := hrequests (request, x) (List.mem_filterMap.mpr ⟨_, he, rfl⟩)
    rw [show request = _ from hrequest]
    exact fun _ => rfl
  | file op =>
    cases op with
    | removeFile p =>
      have hx : x = (.ok () : Except IoError Unit) := by simpa [removes] using hremove
      exact hx
    | _ => trivial
  | _ => trivial

theorem restarted_sound : ∀ e ∈ restarted.history, Sound countCrates e := by
  have hrequests : restarted.history.filterMap requestOf =
      [(exportRequestFor sampleWorker.source [blankRecord, blankRecord], .acknowledged),
        (exportRequestFor sampleWorker.source [blankRecord, blankRecord], .acknowledged),
        (exportRequestFor sampleWorker.source [blankRecord, blankRecord], .timedOut)] := by with_unfolding_all rfl
  refine sound_of_requests (by decide +kernel) ?_
  rw [hrequests]
  simp

/-- The queue is empty after the restart: of the five records one was lost with the first worker. -/
theorem restarts_conserve_restarted : batches ["queue"] restarted.state.disk = [] ∧ queue countCrates ["queue"] Disk.empty +
      (0 + ([blankRecord, blankRecord, blankRecord] : List LogRecord) + ([blankRecord, blankRecord] : List LogRecord)) =
    delivered restarted.history + queue countCrates ["queue"] restarted.state.disk +
      (0 + ([blankRecord] : List LogRecord) + ([] : List LogRecord)) :=
  ⟨by decide +kernel, restarts_conserve (fun _ _ h => by cases h) (fun _ _ _ _ => rfl) restarted_lifetimes
    (List.append_nil _).symm restarted_sound⟩

/-- The startup alone brings the two to the server. -/
theorem restart_delivers_halted : ∃ u new,
    (run countCrates sampleWorker).init.run (execAs haltEnv ()) halted = some (.inl [], u) ∧
      u.history = new ++ idleStart.history ∧ batches ["queue"] u.state.disk = [] ∧
      queue countCrates ["queue"] Disk.empty + (0 + ([blankRecord, blankRecord, blankRecord] : List LogRecord)) =
        delivered new + (0 + ([blankRecord] : List LogRecord)) := by
  have hrequests : halted.history.filterMap requestOf =
      [(exportRequestFor sampleWorker.source [blankRecord, blankRecord], .timedOut)] := by with_unfolding_all rfl
  have hsound : ∀ e ∈ halted.history, Sound countCrates e := by
    refine sound_of_requests (by decide +kernel) ?_
    rw [hrequests]
    simp
  refine restart_delivers (fun _ _ h => by cases h) (fun _ _ _ _ => rfl) rfl (fun _ _ _ h => by cases h)
    halted_lifetimes (List.append_nil _).symm hsound (fun n hn => ⟨rfl, ?_⟩) rfl ()
  rw [halted_length] at hn
  exact if_neg (by omega)

end Detritus.Client.Worker
