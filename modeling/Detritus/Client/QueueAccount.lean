import Mathlib.Algebra.Order.Group.Multiset
import Mathlib.Tactic.Abel
import Detritus.Process.Leads
import Detritus.Client.Exports

/-! The records of a queue directory, and their account.

What a worker could not export is in files of the queue directory. As bags: what was in
the files and what came is what was acknowledged, what is in the files, and what is in
memory. Each call of the loop keeps the account, whichever exports are acknowledged, as
long as the files that it writes are written. -/
namespace Detritus.Client.Worker
open Files Protocol Process Contract

/-! ### The queue -/

theorem extension_append {stem ext : String} (hstem : stem.toList ≠ []) (hext : '.' ∉ ext.toList) :
    Path.extension (stem ++ "." ++ ext) = some ext := by
  have hreverse : (stem ++ "." ++ ext).toList.reverse = ext.toList.reverse ++ '.' :: stem.toList.reverse := by
    simp [String.toList_append]
  have hplain : ∀ c ∈ ext.toList.reverse, decide (c ≠ '.') = true := by
    intro c hc
    rw [decide_eq_true_eq]
    rintro rfl
    exact hext (List.mem_reverse.mp hc)
  unfold Path.extension
  rw [hreverse, List.dropWhile_append_of_pos hplain, List.takeWhile_append_of_pos hplain]
  obtain ⟨c, cs, hcs⟩ := List.exists_cons_of_ne_nil (List.reverse_ne_nil_iff.mpr hstem)
  rw [hcs]
  simp

/-- A path that a listing of the directory may have as a batch. -/
def IsBatch (dir q : Path) : Prop := q ≠ [] ∧ q.parent = dir ∧ isLogBatch q = true

theorem logPath_isBatch (dir : Path) (u : Uuid) : IsBatch dir (logPath dir u) := by
  have hname : "log-" ++ u.toString ++ ".protobuf" = ("log-" ++ u.toString) ++ "." ++ "protobuf" := by
    simp only [String.append_assoc]
    rfl
  rw [logPath_eq]
  refine ⟨by simp, List.dropLast_concat, ?_⟩
  unfold isLogBatch Path.fileName
  rw [List.getLast?_concat, Option.bind_some, hname, extension_append (by simp) (by decide)]
  rfl

theorem lockPath_not_isBatch (dir : Path) : ¬ IsBatch dir (lockPath dir) := by
  rintro ⟨-, -, h⟩
  unfold isLogBatch Path.fileName at h
  rw [lockPath, Component.join ⟨by decide, by decide, by decide⟩, List.getLast?_concat, Option.bind_some] at h
  revert h
  decide

section Queue
variable (P : ExportCrates) (dir : Path)

/-- The batches of the directory. -/
def batches (d : Disk) : List Path :=
  d.known.filter fun q => q ≠ [] && q.parent = dir && isLogBatch q && (d.file q).isSome

/-- The records in them. -/
def queue (d : Disk) : Multiset LogRecord := ((batches dir d).flatMap (fileRecords P d) : List LogRecord)

/-- Every batch is a request. -/
def Legible (d : Disk) : Prop :=
  ∀ p bytes, IsBatch dir p → d.content p = some bytes → ∃ q, P.decode bytes = .ok q

variable {P dir} {d e : Disk} {p : Path}

theorem content_isSome (d : Disk) (p : Path) : (d.content p).isSome = (d.file p).isSome := by
  rw [Disk.content, Option.isSome_map]

theorem mem_batches {q : Path} : q ∈ batches dir d ↔ IsBatch dir q ∧ (d.content q).isSome = true := by
  unfold batches IsBatch
  rw [List.mem_filter, content_isSome]
  simp only [Bool.and_eq_true, decide_eq_true_eq, and_assoc]
  exact and_iff_right_of_imp fun h => d.listed q (.inl h.2.2.2)

theorem batches_nodup (dir : Path) (d : Disk) : (batches dir d).Nodup := d.nodup.filter _

theorem fileRecords_congr {q : Path} (h : e.content q = d.content q) : fileRecords P e q = fileRecords P d q := by
  unfold fileRecords
  rw [h]

theorem flatMap_congr_of_isBatch {l : List Path} (h : ∀ q ∈ l, e.content q = d.content q) :
    l.flatMap (fileRecords P e) = l.flatMap (fileRecords P d) :=
  List.flatMap_congr fun q hq => fileRecords_congr (h q hq)

theorem queue_congr (h : ∀ q, IsBatch dir q → e.content q = d.content q) : queue P dir e = queue P dir d := by
  have hperm : (batches dir e).Perm (batches dir d) := by
    refine (List.perm_ext_iff_of_nodup (batches_nodup dir e) (batches_nodup dir d)).mpr fun q => ?_
    rw [mem_batches, mem_batches]
    exact and_congr_right fun hq => by rw [h q hq]
  refine Multiset.coe_eq_coe.mpr ((hperm.flatMap_right _).trans (.of_eq ?_))
  exact flatMap_congr_of_isBatch fun q hq => h q (mem_batches.mp hq).1

/-- One batch more. -/
theorem queue_insert (hp : IsBatch dir p) (hnone : d.content p = none) (hsome : (e.content p).isSome = true)
    (h : ∀ q, IsBatch dir q → q ≠ p → e.content q = d.content q) :
    queue P dir e = (fileRecords P e p : Multiset LogRecord) + queue P dir d := by
  have hnew : p ∉ batches dir d := by
    rw [mem_batches, hnone]
    exact fun h => (by cases h.2)
  have hperm : (batches dir e).Perm (p :: batches dir d) := by
    refine (List.perm_ext_iff_of_nodup (batches_nodup dir e)
      (List.nodup_cons.mpr ⟨hnew, batches_nodup dir d⟩)).mpr fun q => ?_
    rw [List.mem_cons, mem_batches, mem_batches]
    by_cases hq : q = p
    · simp [hq, hp, hsome]
    · rw [or_iff_right hq]
      exact and_congr_right fun hbatch => by rw [h q hbatch hq]
  rw [queue, queue, Multiset.coe_add, Multiset.coe_eq_coe]
  refine (hperm.flatMap_right _).trans (.of_eq ?_)
  rw [List.flatMap_cons, flatMap_congr_of_isBatch]
  intro q hq
  exact h q (mem_batches.mp hq).1 fun heq => hnew (heq ▸ hq)

theorem Legible.of_le (h : Legible P dir d) (hle : ∀ q bytes, IsBatch dir q → e.content q = some bytes →
    d.content q = some bytes) : Legible P dir e :=
  fun q bytes hq hbytes => h q bytes hq (hle q bytes hq hbytes)

end Queue

/-! ### The account -/

section Account
variable {ι : Type}

/-- The records that the call has brought to the server. -/
def deliveredOf (e : ClientEvent ι) : Multiset LogRecord :=
  match requestOf e with
  | some (request, .acknowledged) => (requestRecords request : Multiset LogRecord)
  | _ => 0

/-- The records that were acknowledged, those of a replay among them. -/
def delivered (h : List (ClientEvent ι)) : Multiset LogRecord := (h.map deliveredOf).sum

/-- A request that is not acknowledged is one that `prost` reads back, and a removal has not failed. -/
def Sound (P : ExportCrates) (e : ClientEvent ι) : Prop :=
  match e with
  | ⟨_, .exportLogs request, outcome⟩ => outcome ≠ ExportOutcome.acknowledged → P.decode (P.encode request) = .ok request
  | ⟨_, .file (.removeFile _), x⟩ => x = (.ok () : Except IoError Unit)
  | _ => True

variable {P : ExportCrates} {W : Worker} {new h : List (ClientEvent ι)}

theorem delivered_append : delivered (new ++ h) = delivered new + delivered h := by
  rw [delivered, List.map_append, List.sum_append]
  rfl

theorem sampled_append : sampled P W (new ++ h) = sampled P W h ++ sampled P W new := by
  rw [sampled, List.reverse_append, List.filterMap_append]
  rfl

/-- A call that neither sends a request nor waits for a message. -/
def Aside (e : ClientEvent ι) : Prop := requestOf e = none ∧ isNext e.op = false

theorem delivered_aside (hnew : ∀ e ∈ new, Aside e) : delivered new = 0 := by
  refine List.sum_eq_zero fun x hx => ?_
  obtain ⟨e, he, rfl⟩ := List.mem_map.mp hx
  rw [deliveredOf, (hnew e he).1]

theorem sampled_eq_nil (hnew : ∀ e ∈ new, isNext e.op = false) : sampled P W new = [] := by
  refine List.filterMap_eq_nil_iff.mpr fun e he => ?_
  have hnext := hnew e (List.mem_reverse.mp he)
  obtain ⟨j, op, x⟩ := e
  cases op with
  | next => cases hnext
  | _ => rfl

/-- The account since a start, with the records that are in memory. -/
structure Balance (P : ExportCrates) (W : Worker) (start : Disk) (new : List (ClientEvent ι))
    (pending : List LogRecord) (d : Disk) : Prop where
  books : queue P W.queueDir start + (sampled P W new : Multiset LogRecord) =
    delivered new + queue P W.queueDir d + (pending : Multiset LogRecord)
  legible : Legible P W.queueDir start → Legible P W.queueDir d

/-- A state of a worker that has started in `t`. The names of files that are yet to come are free. -/
structure Balanced (P : ExportCrates) (W : Worker) (env : Env) (t : ClientState ι)
    (pending : List LogRecord) (u : ClientState ι) : Prop where
  numbered : u.state.disk.Numbered
  supply : ∀ n id, u.history.length ≤ n → env.uuid n = some id → u.state.disk.content (logPath W.queueDir id) = none
  balance : ∃ new, u.history = new ++ t.history ∧ ((∀ e ∈ new, Sound P e) →
    Balance P W t.state.disk new pending u.state.disk)

variable {env : Env} {t s u : ClientState ι} {pending rest : List LogRecord}

theorem Balanced.start (hnumbered : t.state.disk.Numbered) (hsupply : ∀ n id, t.history.length ≤ n →
    env.uuid n = some id → t.state.disk.content (logPath W.queueDir id) = none) :
    Balanced P W env t [] t := by
  refine ⟨hnumbered, hsupply, [], rfl, fun _ => ⟨?_, id⟩⟩
  simp [sampled, delivered]

/-- Some calls more: what they take from memory and from the queue they bring to the server or to the queue. -/
theorem Balanced.advance (B : Balanced P W env t pending s) (hh : u.history = new ++ s.history)
    (hnumbered : u.state.disk.Numbered)
    (hsupply : ∀ n id, u.history.length ≤ n → env.uuid n = some id →
      s.state.disk.content (logPath W.queueDir id) = none → u.state.disk.content (logPath W.queueDir id) = none)
    (hbooks : (∀ e ∈ new, Sound P e) → queue P W.queueDir s.state.disk + (pending : Multiset LogRecord) +
        (sampled P W new : Multiset LogRecord) =
      delivered new + queue P W.queueDir u.state.disk + (rest : Multiset LogRecord))
    (hlegible : (∀ e ∈ new, Sound P e) → Legible P W.queueDir s.state.disk → Legible P W.queueDir u.state.disk) :
    Balanced P W env t rest u := by
  obtain ⟨older, holder, hbalance⟩ := B.balance
  refine ⟨hnumbered, fun n id hn hid => ?_, new ++ older, ?_, fun hsound => ?_⟩
  · refine hsupply n id hn hid (B.supply n id ?_ hid)
    rw [hh, List.length_append] at hn
    omega
  · rw [hh, holder, List.append_assoc]
  · rw [List.forall_mem_append] at hsound
    have hold := hbalance hsound.2
    refine ⟨?_, fun h => hlegible hsound.1 (hold.legible h)⟩
    have hnew := hbooks hsound.1
    rw [sampled_append, delivered_append, ← Multiset.coe_add, ← add_assoc, hold.books]
    calc delivered older + queue P W.queueDir s.state.disk + (pending : Multiset LogRecord) +
          (sampled P W new : Multiset LogRecord)
        = delivered older + (queue P W.queueDir s.state.disk + (pending : Multiset LogRecord) +
          (sampled P W new : Multiset LogRecord)) := by abel
      _ = delivered older + (delivered new + queue P W.queueDir u.state.disk + (rest : Multiset LogRecord)) := by
          rw [hnew]
      _ = delivered new + delivered older + queue P W.queueDir u.state.disk + (rest : Multiset LogRecord) := by abel

/-- Calls that leave the batches as they are. -/
theorem Balanced.aside (B : Balanced P W env t pending s) (hh : u.history = new ++ s.history)
    (hnew : ∀ e ∈ new, Aside e) (hnumbered : u.state.disk.Numbered)
    (hcontent : ∀ q, IsBatch W.queueDir q → u.state.disk.content q = s.state.disk.content q) :
    Balanced P W env t pending u := by
  refine B.advance hh hnumbered (fun n id _ _ hnone => ?_) (fun _ => ?_) fun _ h => h.of_le fun q bytes hq hb => ?_
  · rw [hcontent _ (logPath_isBatch _ _), hnone]
  · rw [delivered_aside hnew, sampled_eq_nil fun e he => (hnew e he).2, queue_congr hcontent]
    simp
  · rw [← hcontent q hq, hb]

end Account

/-! ### A turn of the loop -/

section Turn
variable {ι : Type} {P : ExportCrates} {W : Worker} {env : Env} {i : ι} {t s u : ClientState ι}
  {pending : List LogRecord}

/-- A request that was not acknowledged is filed. -/
theorem Balanced.spool {outcome : ExportOutcome} {id : Uuid} (B : Balanced P W env t pending s)
    (hh : u.history = ⟨i, .exportLogs (exportRequestFor W.source pending), outcome⟩ :: s.history)
    (hstate : u.state = s.state) (houtcome : outcome ≠ .acknowledged) {v : ClientState ι}
    (hw : Written P W env i (exportRequestFor W.source pending) id u v) :
    Balanced P W env t [] v := by
  obtain ⟨new, hhistory, hlength, hfiling, -⟩ := hw.history
  have haside : ∀ e ∈ new, Aside e := fun e he => ⟨(isFiling_spec (hfiling e he)).2.1, (isFiling_spec (hfiling e he)).1⟩
  have hfree : s.state.disk.content (logPath W.queueDir id) = none := by
    refine B.supply _ id ?_ hw.issued
    rw [hh, List.length_cons]
    omega
  have hothers : ∀ q, q ≠ logPath W.queueDir id → v.state.disk.content q = s.state.disk.content q := by
    intro q hq
    rw [(hw.others q hq).1, hstate]
  have hall : v.history = (new ++ [⟨i, .exportLogs (exportRequestFor W.source pending), outcome⟩]) ++ s.history := by
    rw [hhistory, hh, List.append_assoc]
    rfl
  have hdecode (hsound : ∀ e ∈ new ++ [⟨i, .exportLogs (exportRequestFor W.source pending), outcome⟩], Sound P e) :
      P.decode (P.encode (exportRequestFor W.source pending)) = .ok (exportRequestFor W.source pending) :=
    hsound ⟨i, .exportLogs (exportRequestFor W.source pending), outcome⟩
      (List.mem_append_right _ (List.mem_singleton_self _)) houtcome
  refine B.advance hall hw.numbered (fun n id' hn hid' hnone => ?_) (fun hsound => ?_) fun hsound hold => ?_
  · rw [hothers _ ?_, hnone]
    intro heq
    rw [logPath_injective heq] at hid'
    have hsame := env.fresh hw.issued hid'
    rw [hhistory, List.length_append, hlength] at hn
    omega
  · have hrecords : fileRecords P v.state.disk (logPath W.queueDir id) = pending := by
      unfold fileRecords
      rw [hw.content, Option.map_some, hdecode hsound]
      exact requestRecords_exportRequestFor ..
    have hundelivered : delivered [(⟨i, .exportLogs (exportRequestFor W.source pending), outcome⟩ : ClientEvent ι)] = 0 := by
      cases outcome with
      | acknowledged => exact absurd rfl houtcome
      | _ => rfl
    rw [delivered_append, delivered_aside haside, hundelivered, sampled_append, sampled_eq_nil fun e he => (haside e he).2,
      queue_insert (logPath_isBatch _ _) hfree (by rw [hw.content]; rfl) fun q _ hq => hothers q hq, hrecords]
    show _ + _ + (([] : List LogRecord) : Multiset LogRecord) = _
    simp [add_comm]
  · intro q bytes hq hbytes
    by_cases heq : q = logPath W.queueDir id
    · rw [heq, hw.content] at hbytes
      rw [← Option.some.inj hbytes]
      exact ⟨_, hdecode hsound⟩
    · rw [hothers q heq] at hbytes
      exact hold q bytes hq hbytes

theorem spoolRecords_balanced {outcome : ExportOutcome} (B : Balanced P W env t pending s)
    (hh : u.history = ⟨i, .exportLogs (exportRequestFor W.source pending), outcome⟩ :: s.history)
    (hstate : u.state = s.state) (houtcome : outcome ≠ .acknowledged) (text : String) :
    (alone env i).Yields (fun _ v => Balanced P W env t [] v) (fun _ v => Balanced P W env t [] v)
      (spoolRecords P W (exportRequestFor W.source pending) text) u := by
  have hfree : ∀ id, env.uuid (u.history.length + 1) = some id →
      u.state.disk.file (logPath W.queueDir id) = none := by
    intro id hid
    rw [hstate, ← Option.map_eq_none_iff]
    refine B.supply _ id ?_ hid
    rw [hh, List.length_cons]
    omega
  refine Yields.solo_bind (Yields.solo_adapt (Yields.mono
    (writeLogBatch_solo (hstate ▸ B.numbered) hfree) (fun _ v hv => ?_) fun _ _ h => h.elim))
  obtain ⟨id, hw⟩ := hv
  exact Yields.throw (solo_stable _) (B.spool hh hstate houtcome hw)

/-- What was pending is acknowledged, or it goes to the queue. -/
theorem exportRecords_balanced (B : Balanced P W env t pending s) :
    (alone env i).Holds (fun _ u => Balanced P W env t [] u) (exportRecords P W pending).run s := by
  have hyields : (alone env i).Yields (fun _ u => Balanced P W env t [] u) (fun _ u => Balanced P W env t [] u)
      (exportRecords P W pending) s := by
    unfold exportRecords
    by_cases hempty : pending = []
    · rw [hempty, if_pos List.isEmpty_nil]
      exact Yields.solo_pure (hempty ▸ B)
    · rw [if_neg (by simpa using hempty)]
      refine call_solo fun outcome u hu => ?_
      obtain ⟨hexec, hh⟩ := record_eq_some.mp hu
      have hstate : u.state = s.state := (result_eq hexec).2.symm
      cases outcome with
      | acknowledged =>
        have hall : u.history = [⟨i, .exportLogs (exportRequestFor W.source pending), ExportOutcome.acknowledged⟩] ++
          s.history := hh
        refine Yields.solo_pure (B.advance hall (hstate ▸ B.numbered) (fun _ _ _ _ h => hstate ▸ h)
          (fun _ => ?_) fun _ h => hstate ▸ h)
        rw [hstate]
        simp [delivered, deliveredOf, requestOf, sampled, sampledOf, add_comm]
      | status text => exact spoolRecords_balanced B hh hstate (by simp) text
      | timedOut => exact spoolRecords_balanced B hh hstate (by simp) _
  refine Holds.mono hyields fun r u hr => ?_
  cases r with
  | ok _ => exact hr
  | error e => exact hr

theorem exportOrSpool_balanced (B : Balanced P W env t pending s) :
    (alone env i).Holds (fun _ u => Balanced P W env t [] u) (exportOrSpool P W pending) s :=
  Holds.andThen (exportRecords_balanced B) fun _ _ hu => Holds.solo_done hu

/-- Something came: a record that is sampled, or something that adds none. -/
theorem Balanced.next {input : Input} (B : Balanced P W env t pending s)
    (hh : u.history = ⟨i, .next, input⟩ :: s.history) (hstate : u.state = s.state) :
    Balanced P W env t (pending ++ (sampledOf P W (⟨i, .next, input⟩ : ClientEvent ι)).toList) u := by
  have hall : u.history = [⟨i, .next, input⟩] ++ s.history := hh
  refine B.advance hall (hstate ▸ B.numbered) (fun _ _ _ _ h => hstate ▸ h) (fun _ => ?_) fun _ h => hstate ▸ h
  have hsampled : sampled P W [(⟨i, .next, input⟩ : ClientEvent ι)] =
      (sampledOf P W (⟨i, .next, input⟩ : ClientEvent ι)).toList := sampled_cons
  have hnone : delivered [(⟨i, .next, input⟩ : ClientEvent ι)] = 0 := rfl
  rw [hstate, hsampled, hnone, zero_add, add_assoc, Multiset.coe_add]

/-- A turn of the worker keeps the account. -/
theorem turn_balanced {batch : List LogRecord} (B : Balanced P W env t batch s) :
    (alone env i).Holds (fun r u => Balanced P W env t (r.elim id fun _ => []) u) (turn P W batch) s := by
  refine Holds.solo_call fun input u _ hu => ?_
  obtain ⟨hexec, hh⟩ := record_eq_some.mp hu
  have B : Balanced P W env t (batch ++ (sampledOf P W (⟨i, .next, input⟩ : ClientEvent ι)).toList) u :=
    B.next hh (result_eq hexec).2.symm
  cases input with
  | closed =>
    rw [show batch ++ (sampledOf P W (⟨i, .next, .closed⟩ : ClientEvent ι)).toList = batch from List.append_nil _] at B
    exact Holds.andThen (exportOrSpool_balanced B) fun _ _ hv => Holds.solo_done hv
  | tick =>
    rw [show batch ++ (sampledOf P W (⟨i, .next, .tick⟩ : ClientEvent ι)).toList = batch from List.append_nil _] at B
    exact Holds.andThen (exportOrSpool_balanced B) fun _ _ hv => Holds.solo_done hv
  | record record =>
    have htaken : (if W.shouldSample P record then batch ++ [record] else batch) =
        batch ++ (sampledOf P W (⟨i, .next, .record record⟩ : ClientEvent ι)).toList := by
      rw [sampledOf]
      split
      · rfl
      · exact (List.append_nil batch).symm
    rw [← htaken] at B
    dsimp only
    generalize (if W.shouldSample P record then batch ++ [record] else batch) = taken at B ⊢
    split
    · exact Holds.andThen (exportOrSpool_balanced B) fun _ _ hv => Holds.solo_done hv
    · exact Holds.solo_done B
  | flush =>
    rw [show batch ++ (sampledOf P W (⟨i, .next, .flush⟩ : ClientEvent ι)).toList = batch from List.append_nil _] at B
    refine Holds.andThen (exportRecords_balanced B) fun result v hv => ?_
    refine Holds.solo_call fun _ w _ hw => Holds.solo_done ?_
    obtain ⟨hexec, hh⟩ := record_eq_some.mp hw
    have hstate : w.state = v.state := (result_eq hexec).2.symm
    have hall : w.history = [⟨i, .reply result, ()⟩] ++ v.history := hh
    refine hv.aside hall ?_ (hstate ▸ hv.numbered) fun _ _ => by rw [hstate]
    exact List.forall_mem_singleton.mpr ⟨rfl, rfl⟩

/-- The calls of the loop, of which a request is for records of the worker. -/
def Own (W : Worker) : ClientOp → Prop
  | .exportLogs request => ∃ records, request = exportRequestFor W.source records
  | .file _ | .newUuid | .next | .reply _ => True
  | _ => False

theorem exportRecords_own (records : List LogRecord) : (exportRecords P W records).run.Only (Own W) := by
  have hspool : ∀ text, (spoolRecords P W (exportRequestFor W.source records) text).run.Only (Own W) := by
    intro text
    refine Program.Only.andThen (Program.Only.bind ?_ fun _ => trivial) fun _ => trivial
    refine Program.Only.andThen ⟨trivial, fun _ => trivial⟩ fun _ => ?_
    refine Program.Only.andThen ⟨trivial, fun _ => trivial⟩ fun _ => ?_
    refine Program.Only.andThen ?_ fun _ => trivial
    refine Program.Only.andThen ⟨trivial, fun _ => trivial⟩ fun _ => ?_
    exact Program.Only.andThen ⟨trivial, fun _ => trivial⟩ fun _ => trivial
  unfold exportRecords
  split
  · trivial
  · refine Program.Only.andThen ⟨⟨records, rfl⟩, fun _ => trivial⟩ fun outcome => ?_
    cases outcome with
    | acknowledged => trivial
    | status text => exact hspool text
    | timedOut => exact hspool _

theorem turn_own (batch : List LogRecord) : (turn P W batch).Only (Own W) := by
  have hexport : ∀ records, (exportOrSpool P W records).Only (Own W) :=
    fun records => Program.Only.bind (exportRecords_own records) fun _ => trivial
  refine Program.Only.bind ⟨trivial, fun _ => trivial⟩ fun input => ?_
  cases input with
  | closed => exact Program.Only.bind (hexport batch) fun _ => trivial
  | record record =>
    dsimp only
    generalize (if W.shouldSample P record then batch ++ [record] else batch) = taken
    split
    · exact Program.Only.bind (hexport taken) fun _ => trivial
    · trivial
  | flush => exact Program.Only.bind (exportRecords_own batch) fun _ =>
      Program.Only.bind ⟨trivial, fun _ => trivial⟩ fun _ => trivial
  | tick => exact Program.Only.bind (hexport batch) fun _ => trivial

/-- No lock is taken or given back. -/
theorem own_holder {α : Type} {p : Program clientInterface α} (hp : p.Only (Own W)) {a : α}
    (h : p.run (execAs env i) s = some (a, u)) : u.state.holder = s.state.holder := by
  induction p generalizing s with
  | done b =>
    obtain ⟨-, rfl⟩ := result_eq h
    rfl
  | call op next ih =>
    obtain ⟨⟨x, v⟩, hx, hrest⟩ := Option.bind_eq_some_iff.mp h
    refine (ih x (hp.2 x) hrest).trans ?_
    have hexec := (record_eq_some.mp hx).1
    have hop := hp.1
    cases op with
    | newUuid =>
      obtain ⟨id, -, heq⟩ := Option.map_eq_some_iff.mp hexec
      rw [← (Prod.mk.inj heq).2]
    | file op => rw [← (result_eq hexec).2]
    | next => rw [← (result_eq hexec).2]
    | exportLogs request => rw [← (result_eq hexec).2]
    | reply result => rw [← (result_eq hexec).2]
    | _ => cases hop

end Turn

end Detritus.Client.Worker
