import Detritus.Process.Interleaving
import Detritus.Protocol.JsonText
import Detritus.Server.LogWriters

/-! The log store.

Requests, writers and a shutdown run together as each was shown to run. Once the shutdown
is over, the files of a source hold the records of the requests, each request's in its
order, and those of one day in the file of the day. -/
namespace Detritus.Server
open Files Protocol Process Contract

/-- What is assumed of `serde_json`: a compact document has no raw newline, and a line is read as it was. -/
structure CompactLawful (J : SerdeJson) : Prop where
  newline : ∀ v, 0x0a ∉ J.write v
  read : ∀ record, J.read (J.write (logRecordJson record)) = some (logRecordJson record)

namespace LogSystem
variable {κ : Type} [DecidableEq κ] {Y : LogSystem κ} {w : LogState κ} {source : SourceKey} {d : Disk} {k : Nat}

/-! ### All tasks together -/

variable (Y) in
def specification : Y.pool.Specification Orderly where
  rely i := (Y.contract i).rely
  guarantee i := (Y.contract i).guarantee
  refl i := (Y.contract i).refl
  trans i := (Y.contract i).trans
  head i v := match i with
    | .handler _ => Empty.elim v
    | .writer k => Y.Writing k v False [] []
    | .shutdown => Empty.elim v
  result i r := match i with
    | .handler j => Y.Answered j r
    | .writer _ => Y.Inv
    | .shutdown => Y.Joining []
  within i j hij s t hg hs := (hg hs).imp_right fun C => C.frame (Ne.symm hij)
  stops _ _ _ hs := absurd hs (by simp [pool])

theorem specification_turns : Y.specification.Turns := by
  intro i v s hs
  cases i with
  | handler j => exact Empty.elim v
  | shutdown => exact Empty.elim v
  | writer k =>
    refine Holds.mono (writerLoop_holds hs) fun r t h => ?_
    cases r with
    | inl v => exact h
    | inr _ => exact h

theorem inv_initial (hd : Y.Blank d) (buckets : Buckets) : Y.Inv (initial d buckets) := by
  have hnone : ∀ s date n, d.file (Y.storage.logFile s date) ≠ some n := fun s date n h => by
    rw [hd.logs] at h
    cases h
  refine ⟨⟨fun _ => rfl, by simp [sent, initial]⟩, ⟨?_, ?_, ?_, ?_⟩, ⟨?_, ?_, ?_⟩, ⟨hd.below, ?_, ?_⟩, ?_⟩
  · simp [initial]
  · simp [initial]
  · simp [initial]
  · simp [initial, Drained]
  · simp [initial]
  · simp [initial]
  · simp [initial, countBy]
  · exact fun s date q n h => absurd h (hnone s date n)
  · exact fun s date n _ h => absurd h (hnone s date n)
  · simp [Settled, initial]

theorem start_at (hd : Y.Blank d) (buckets : Buckets) : Y.specification.At (Y.pool.start (initial d buckets)) := by
  have hI := inv_initial hd buckets
  intro i p hp
  obtain rfl := Option.some.inj hp
  cases i with
  | handler j =>
    refine Holds.andThen (exportLogs_holds ⟨hI, ?_, rfl⟩) fun r t h => ?_
    · simp [Replied, Pool.start, initial]
    · exact Holds.done (answered_stable r) h
  | writer k =>
    refine Holds.mono (writer_holds ⟨hI, rfl, rfl, by simp [Pool.start, initial]⟩) fun r t h => ?_
    cases r with
    | inl v => exact h
    | inr _ => exact h
  | shutdown =>
    refine Holds.andThen (shutdown_holds ⟨hI, ?_⟩) fun r t h => ?_
    · simp [Drained, Pool.start, initial]
    · exact Holds.done joining_stable h

/-! ### Times -/

/-- What a writer read off the clock: the time of a call, each no earlier a day than the one before. -/
structure Timely (Y : LogSystem κ) (k : Nat) (h : List (LogEvent κ)) : Prop where
  sorted : (stamps k h).Pairwise fun s t => Y.utcDate s ≤ Y.utcDate t
  read : ∀ t ∈ stamps k h, ∃ n < h.length, t = Y.env.clock n

omit [DecidableEq κ] in
theorem reads_clock {i : LogTask κ} {op : ServerOp} {x : op.Answer} {v : World} {n k : Nat} {t : Time}
    (hx : World.exec Y.env n op w.state = some (x, v)) (hr : reads k ⟨i, op, x⟩ = some t) : t = Y.env.clock n := by
  cases op with
  | now =>
    have hclock := (result_eq hx).1
    simp only [reads] at hr
    split at hr
    · split at hr
      · exact (Option.some.inj hr).symm.trans hclock.symm
      · cases hr
    · cases hr
  | _ => cases hr

omit [DecidableEq κ] in
theorem Timely.step (hclock : Monotone fun n => Y.utcDate (Y.env.clock n)) {i : LogTask κ} {op : ServerOp}
    {x : op.Answer} {w' : LogState κ} (T : Y.Timely k w.history) (hx : execAs Y.env i op w = some (x, w')) :
    Y.Timely k w'.history := by
  obtain ⟨hexec, hh⟩ := record_eq_some.mp hx
  have hstamps : stamps k w'.history = stamps k w.history ++ (reads k ⟨i, op, x⟩).toList := by
    rw [hh]
    exact noted_cons ..
  cases hr : reads k ⟨i, op, x⟩ with
  | none =>
    rw [hr, Option.toList_none, List.append_nil] at hstamps
    refine ⟨hstamps ▸ T.sorted, fun t ht => ?_⟩
    obtain ⟨n, hn, he⟩ := T.read t (hstamps ▸ ht)
    exact ⟨n, by rw [hh, List.length_cons]; omega, he⟩
  | some t =>
    have ht := reads_clock hexec hr
    rw [hr, Option.toList_some] at hstamps
    refine ⟨?_, fun s hs => ?_⟩
    · rw [hstamps, List.pairwise_append]
      refine ⟨T.sorted, List.pairwise_singleton .., fun s hs u hu => ?_⟩
      obtain ⟨n, hn, rfl⟩ := T.read s hs
      rw [List.mem_singleton.mp hu, ht]
      exact hclock hn.le
    · rw [hstamps, List.mem_append, List.mem_singleton] at hs
      rw [hh, List.length_cons]
      rcases hs with hs | rfl
      · obtain ⟨n, hn, he⟩ := T.read s hs
        exact ⟨n, by omega, he⟩
      · exact ⟨_, Nat.lt_succ_self _, ht⟩

theorem reach_timely (hclock : Monotone fun n => Y.utcDate (Y.env.clock n)) {buckets : Buckets} {c : Config Y.pool}
    (hr : (Y.pool.start (initial d buckets)).Reach Orderly c) (k : Nat) : Y.Timely k c.world.history := by
  refine Config.Reach.invariant (fun w : LogState κ => Y.Timely k w.history) ?_ ?_ hr
    ⟨.nil, by simp [Pool.start, initial, stamps]⟩
  · exact fun i op s x s' _ hx T => T.step hclock hx
  · exact fun i s s' hs _ => absurd hs (by simp [pool])

/-! ### What was sent for a source -/

/-- What the writer of a source received, and when. -/
def receipts (source : SourceKey) (w : LogState κ) : List (Json × Time) :=
  match w.state.writers.findIdx? (·.source = source) with
  | some k => journal k w.history
  | none => []

/-- The lines for a source, each with the request that sent it. -/
def sentFor (source : SourceKey) (w : LogState κ) : List (κ × Json) :=
  (sent w.history).filterMap fun x =>
    if w.state.writers.sourceOf x.channel = some source then
      match x.task with
      | .handler j => some (j, x.line)
      | _ => none
    else none

/-- Of what one request sent, the part for the source. -/
theorem itemsOf_sentFor (j : κ) :
    itemsOf j (sentFor source w) = ((told j w).filter (·.1 = some source)).map Prod.snd := by
  unfold sentFor told itemsOf
  induction sent w.history with
  | nil => rfl
  | cons x rest ih =>
    obtain ⟨i, k, line⟩ := x
    by_cases hk : w.state.writers.sourceOf k = some source
    · cases i with
      | handler j' => by_cases hj : j' = j <;> simp_all
      | _ => simp_all
    · by_cases hi : i = .handler j <;> simp_all

omit [DecidableEq κ] in
theorem findIdx_source (h : w.state.writers.findIdx? (·.source = source) = some k) :
    ∃ c, w.state.writers[k]? = some c ∧ c.source = source := by
  obtain ⟨hk, hc, -⟩ := List.findIdx?_eq_some_iff_getElem.mp h
  exact ⟨_, List.getElem?_eq_getElem hk, of_decide_eq_true hc⟩

omit [DecidableEq κ] in
theorem sourceOf_ne (h : w.state.writers.findIdx? (·.source = source) = none) (k : Nat) :
    w.state.writers.sourceOf k ≠ some source := by
  intro hk
  obtain ⟨c, hc, hs⟩ := Option.map_eq_some_iff.mp hk
  have := List.findIdx?_eq_none_iff.mp h c (List.mem_of_getElem? hc)
  simp [hs] at this

/-- The lines of a channel are the lines for its source. -/
theorem sentFor_lines (H : Y.Inv w) {c : Channel} (hc : w.state.writers[k]? = some c) :
    (sentFor c.source w).map Prod.snd = ((sent w.history).filter (·.channel = k)).map Sent.line := by
  have hk : ∀ k', w.state.writers.sourceOf k' = some c.source ↔ k' = k := by
    intro k'
    constructor
    · intro h
      obtain ⟨c', hc', hs⟩ := Option.map_eq_some_iff.mp h
      exact H.names.distinct k' k c' c hc' hc hs
    · rintro rfl
      simp [Writers.sourceOf, hc]
  have hknown := H.queues.known
  unfold sentFor
  simp only [hk]
  generalize sent w.history = l at hknown ⊢
  induction l with
  | nil => rfl
  | cons x rest ih =>
    have ih := ih fun y hy => hknown y (.tail _ hy)
    obtain ⟨-, j, hj⟩ := hknown x (.head _)
    by_cases hx : x.channel = k <;> simp_all

/-- Once every writer has ended: what the writer received is what was sent, and the files hold it. -/
theorem Joining.settles (J : Y.Joining [] w) (hv : source.Valid) :
    (receipts source w).map Prod.fst = (sentFor source w).map Prod.snd ∧
    Y.Stored source (receipts source w) w.state.disk := by
  unfold receipts
  cases hk : w.state.writers.findIdx? (·.source = source) with
  | none =>
    have hne := sourceOf_ne hk
    refine ⟨?_, fun date => ?_⟩
    · simp [sentFor, hne]
    · have hfile : w.state.disk.file (Y.storage.logFile source date) = none := by
        rw [Option.eq_none_iff_forall_ne_some]
        intro n hn
        obtain ⟨k, hs⟩ := J.inv.files.logs source date n hv hn
        exact hne k hs
      rw [Disk.content, hfile]
      rfl
  | some k =>
    obtain ⟨c, hc, rfl⟩ := findIdx_source hk
    have hended : c.ended = true := (J.others k c hc).resolve_left (by simp)
    obtain ⟨hqueue, hlen, hstored⟩ := J.inv.settled k c hc hended
    have hqueued : w.state.writers.queued k = [] := by simp [Writers.queued, hc, hqueue]
    refine ⟨?_, hstored⟩
    show (journal k w.history).map Prod.fst = _
    rw [journal, List.map_fst_zip hlen.le, sentFor_lines J.inv hc, J.inv.queues.fifo k, hqueued, List.append_nil]

theorem Joining.sorted (J : Y.Joining [] w) (T : ∀ k, Y.Timely k w.history) :
    (receipts source w).Pairwise fun x y => Y.utcDate x.2 ≤ Y.utcDate y.2 := by
  unfold receipts
  cases hk : w.state.writers.findIdx? (·.source = source) with
  | none => exact .nil
  | some k =>
    obtain ⟨c, hc, -⟩ := findIdx_source hk
    obtain ⟨-, hlen, -⟩ := J.inv.settled k c hc ((J.others k c hc).resolve_left (by simp))
    have hstamps : (journal k w.history).map Prod.snd = stamps k w.history := List.map_snd_zip hlen.ge
    have hsorted := (T k).sorted
    rw [← hstamps, List.pairwise_map] at hsorted
    exact hsorted

/-! ### Lines -/

/-- Lines that end with a newline, split at newlines. -/
theorem splitOn_lines {α : Type} {f : α → Bytes} (h : ∀ a, 0x0a ∉ f a) (l : List α) :
    (l.flatMap fun a => f a ++ [0x0a]).splitOn 0x0a = l.map f ++ [[]] := by
  have hjoin : (l.flatMap fun a => f a ++ [0x0a]) = List.intercalate [0x0a] (l.map f ++ [[]]) := by
    induction l with
    | nil => rfl
    | cons a rest ih =>
      cases rest with
      | nil => simp [List.intercalate]
      | cons b rest => simpa [List.intercalate] using ih
  rw [hjoin, List.splitOn_intercalate]
  · intro line hl
    rcases List.mem_append.mp hl with hl | hl
    · obtain ⟨a, -, rfl⟩ := List.mem_map.mp hl
      exact h a
    · simp [List.mem_singleton.mp hl]
  · simp

/-! ### The account -/

/-- A record in a log file: the request it is from, and when the writer received it. -/
structure Entry (κ : Type) where
  request : κ
  record : LogRecord
  time : Time

/-- The records of a request that are for a source, in the request's order. -/
def recordsFor (source : SourceKey) (request : LogsRequest) : List LogRecord :=
  ((request.resourceLogs.flatMap placed).filter (·.1 = source)).map Prod.snd

/-- What the log file of a day holds. -/
def bytesAt (Y : LogSystem κ) (source : SourceKey) (date : NaiveDate) (w : LogState κ) : Bytes :=
  (w.state.disk.content (Y.storage.logFile source date)).getD []

/-- The entries are what the log files of a source hold. -/
structure Account (Y : LogSystem κ) (source : SourceKey) (results : κ → Except Status Unit)
    (entries : List (Entry κ)) (w : LogState κ) : Prop where
  /-- They are what its writer received, at the time it did. -/
  received : entries.map (fun x => (logRecordJson x.record, x.time)) = receipts source w
  /-- Of each request they are the first of its records, in its order, and all if it was accepted. -/
  requests : ∀ j, itemsOf j (entries.map fun x => (x.request, x.record)) <+: recordsFor source (Y.requests j)
  complete : ∀ j, results j = .ok () →
    itemsOf j (entries.map fun x => (x.request, x.record)) = recordsFor source (Y.requests j)
  /-- The file of a day has the lines of those received on the day. -/
  daily : ∀ date, (Y.bytesAt source date w).splitOn 0x0a =
    ((entries.filter fun x => Y.utcDate x.time = date).map fun x => Y.json.write (logRecordJson x.record)) ++ [[]]
  /-- The files, day after day, have the lines of all. -/
  whole : ∀ dates : List NaiveDate, dates.Pairwise (· < ·) →
    (∀ date, (w.state.disk.file (Y.storage.logFile source date)).isSome = true → date ∈ dates) →
    (dates.flatMap fun date => Y.bytesAt source date w).splitOn 0x0a =
      (entries.map fun x => Y.json.write (logRecordJson x.record)) ++ [[]]
  parses : ∀ x ∈ entries, Y.json.read (Y.json.write (logRecordJson x.record)) = some (logRecordJson x.record)

/-- The days of the receipts are days of files. -/
theorem Joining.covered (J : Y.Joining [] w) (hv : source.Valid) {x : Json × Time} (hx : x ∈ receipts source w) :
    (w.state.disk.file (Y.storage.logFile source (Y.utcDate x.2))).isSome = true := by
  have hstored := (J.settles hv).2 (Y.utcDate x.2)
  by_contra hnone
  rw [Bool.not_eq_true, Option.isSome_eq_false_iff, Option.isNone_iff_eq_none] at hnone
  rw [Disk.content, hnone] at hstored
  have hmem : x ∈ (receipts source w).filter fun y => Y.utcDate y.2 = Y.utcDate x.2 :=
    List.mem_filter.mpr ⟨hx, decide_eq_true rfl⟩
  have hnil := List.flatMap_eq_nil_iff.mp hstored.symm x hmem
  simp [encode] at hnil

omit [DecidableEq κ] in
/-- Lines that are those of records, with the time of each. -/
theorem exists_entries {lines : List (Json × Time)} {items : List (κ × LogRecord)}
    (h : lines.map Prod.fst = items.map fun x => logRecordJson x.2) : ∃ entries : List (Entry κ),
      entries.map (fun x => (logRecordJson x.record, x.time)) = lines ∧
      entries.map (fun x => (x.request, x.record)) = items := by
  induction lines generalizing items with
  | nil =>
    obtain rfl := List.map_eq_nil_iff.mp h.symm
    exact ⟨[], rfl, rfl⟩
  | cons line rest ih =>
    obtain ⟨item, items, rfl, hitem, hrest⟩ := List.map_eq_cons_iff.mp h.symm
    obtain ⟨entries, hl, hi⟩ := ih hrest.symm
    exact ⟨⟨item.1, item.2, line.2⟩ :: entries, by simp [hl, hitem], by simp [hi]⟩

theorem Joining.account (J : Y.Joining [] w) (hjson : CompactLawful Y.json) (T : ∀ k, Y.Timely k w.history)
    (hv : source.Valid) {results : κ → Except Status Unit} (A : ∀ j, Y.Answered j (results j) w) :
    ∃ entries, Y.Account source results entries w := by
  obtain ⟨hlines, hstored⟩ := J.settles hv
  choose first hpart hall htold using fun j => (A j).told
  let records (j : κ) : List LogRecord := ((first j).filter (·.1 = source)).map Prod.snd
  have hrecords : ∀ j, records j <+: recordsFor source (Y.requests j) := fun j =>
    ((hpart j).filter _).map _
  have hsent : Interleaves (fun j => (records j).map logRecordJson) (sentFor source w) := by
    intro j
    rw [itemsOf_sentFor, htold j]
    simp [records, List.filter_map, Function.comp_def]
  obtain ⟨items, hitems, hinter⟩ := hsent.lift
  have hsnd : (receipts source w).map Prod.fst = items.map fun x => logRecordJson x.2 := by
    rw [hlines, ← hitems, List.map_map]
    rfl
  obtain ⟨entries, hreceived, hentries⟩ := exists_entries hsnd
  refine ⟨entries, hreceived, ?_, ?_, ?_, ?_, fun x _ => hjson.read x.record⟩
  · intro j
    rw [hentries, hinter j]
    exact hrecords j
  · intro j hok
    rw [hentries, hinter j]
    simp only [records, hall j hok]
    rfl
  · intro date
    rw [bytesAt, hstored date, bytesOn, ← hreceived, List.filter_map, List.flatMap_map]
    exact splitOn_lines (fun x => hjson.newline _) _
  · intro dates hdates hfiles
    have hbytes : (dates.flatMap fun date => Y.bytesAt source date w) =
        (receipts source w).flatMap fun x => Y.encode x.1 := by
      have hsorted := flatMap_filter_of_sorted hdates (J.sorted T) fun x hx => hfiles _ (J.covered hv hx)
      simp only [bytesAt, hstored _, bytesOn]
      rw [← List.flatMap_assoc, hsorted]
    rw [hbytes, ← hreceived, List.flatMap_map]
    exact splitOn_lines (fun x => hjson.newline _) _

/-- **Accepted logs are stored exactly once, in order, one line each.** -/
theorem logs_stored_once (hjson : CompactLawful Y.json) (hclock : Monotone fun n => Y.utcDate (Y.env.clock n))
    {d : Disk} (hd : Y.Blank d) {buckets : Buckets} {c : Config Y.pool}
    (hr : (Y.pool.start (initial d buckets)).Reach Orderly c) (hshutdown : c.Finished .shutdown ())
    {results : κ → Except Status Unit} (hresults : ∀ j, c.Finished (.handler j) (results j))
    (hv : source.Valid) : ∃ entries, Y.Account source results entries c.world := by
  have hat := Y.specification.reach_at specification_turns hr (start_at hd buckets)
  have J : Y.Joining [] c.world := Y.specification.finished_result hat hshutdown
  have A : ∀ j, Y.Answered j (results j) c.world := fun j => Y.specification.finished_result hat (hresults j)
  exact J.account hjson (reach_timely hclock hr) hv A

/-! Two requests for one source, a day apart. -/

def dayAt (t : Time) : NaiveDate :=
  if t < 14 then .newYear else .afterNewYear

theorem dayAt_monotone : Monotone dayAt := by
  intro s t hst
  unfold dayAt
  split_ifs with hs ht ht
  · exact le_rfl
  · decide
  · exact absurd (hst.trans_lt ht) hs
  · exact le_rfl

def sampleLogs : LogSystem Bool where
  json := ⟨JsonText.print .compact 0, JsonText.print .pretty 0, JsonText.read, fun _ => .error ⟨""⟩⟩
  storage := ⟨["data"]⟩
  utcDate := dayAt
  env := {stillEnv with clock := id}
  handler := ⟨.default, .empty⟩
  requests j := ⟨some (some "1"), some ⟨"t", "app", "app/", ""⟩, [sampleEntry "app" "a" (if j then "second" else "first")]⟩

def sampleSource : SourceKey := ⟨"app", "a"⟩

def sampleStart : Config sampleLogs.pool :=
  sampleLogs.pool.start (initial (sampleLogs.storage.prepare 0 .empty) fun _ => none)

/-- Each request, then its line; then the shutdown. -/
def sampleMoves : List (Move (LogTask Bool)) :=
  List.replicate 7 (.run (.handler false)) ++ List.replicate 7 (.run (.writer 0)) ++
    List.replicate 7 (.run (.handler true)) ++ List.replicate 8 (.run (.writer 0)) ++ [.run .shutdown] ++
    List.replicate 3 (.run (.writer 0)) ++ [.run .shutdown]

def isReply (j : Bool) : LogEvent Bool → Bool
  | ⟨.handler j', .observe (.request .logs _), _⟩ => j' = j
  | _ => false

def samplePermits : LogTask Bool → ServerOp → LogState Bool → Bool
  | .shutdown, _, w => w.history.any (isReply false) && w.history.any (isReply true)
  | _, _, _ => true

theorem orderly_of_permits (i : LogTask Bool) (op : ServerOp) (w : LogState Bool) (h : samplePermits i op w = true) :
    Orderly i op w := by
  have hreply : ∀ j, w.history.any (isReply j) = true → Replied j w.history := by
    intro j hj
    obtain ⟨e, he, hr⟩ := List.any_eq_true.mp hj
    unfold isReply at hr
    split at hr
    · obtain rfl := of_decide_eq_true hr
      exact ⟨_, he⟩
    · cases hr
  cases i with
  | shutdown =>
    obtain ⟨hf, ht⟩ := (Bool.and_eq_true _ _).mp h
    intro j
    cases j with
    | false => exact hreply false hf
    | true => exact hreply true ht
  | _ => trivial

def accepted : Option (Except Status Unit) → Bool
  | some (.ok ()) => true
  | _ => false

theorem finished_of_accepted {c : Config sampleLogs.pool} {j : Bool} (h : accepted (c.result (.handler j)) = true) :
    c.Finished (.handler j) (.ok ()) := by
  unfold accepted at h
  split at h
  · next hr => exact Config.finished_of_result hr
  · cases h

def sampleCheck (c : Config sampleLogs.pool) : Bool :=
  accepted (c.result (.handler false)) && accepted (c.result (.handler true)) && c.result .shutdown = some () &&
    !(sampleLogs.bytesAt sampleSource (dayAt 0) c.world).isEmpty &&
    !(sampleLogs.bytesAt sampleSource (dayAt 14) c.world).isEmpty

theorem sample_runs : (sampleStart.runs samplePermits sampleMoves).any sampleCheck = true := by decide +kernel

theorem sample_lawful : CompactLawful sampleLogs.json := by
  refine ⟨fun v => JsonText.print_newline 0 v, fun record => ?_⟩
  generalize logRecordJson record = line
  exact JsonText.read_print .compact line

theorem sample_valid : sampleSource.Valid where
  project := ⟨by decide, by decide, by decide⟩
  sourceId := ⟨by decide, by decide, by decide⟩
  project_up := by decide
  sourceId_up := by decide

theorem sample_blank : sampleLogs.Blank (sampleLogs.storage.prepare 0 .empty) := by
  have hfile : ∀ p, (sampleLogs.storage.prepare 0 .empty).file p = none := fun _ => rfl
  constructor
  · intro p n h
    rw [hfile] at h
    cases h
  · exact fun _ _ => hfile _

theorem logs_stored_once_sample : ∃ c, sampleStart.Reach Orderly c ∧
    (∃ entries, sampleLogs.Account sampleSource (fun _ => .ok ()) entries c.world) ∧
    sampleLogs.bytesAt sampleSource (dayAt 0) c.world ≠ [] ∧
    sampleLogs.bytesAt sampleSource (dayAt 14) c.world ≠ [] := by
  obtain ⟨c, hreach, hc⟩ := Config.runs_any orderly_of_permits sampleMoves sampleCheck sample_runs
  simp only [sampleCheck, Bool.and_eq_true, decide_eq_true_eq, Bool.not_eq_true', List.isEmpty_eq_false_iff] at hc
  obtain ⟨⟨⟨⟨hfirst, hsecond⟩, hshutdown⟩, hday⟩, hnext⟩ := hc
  have hshutdown := Config.finished_of_result hshutdown
  have hresults : ∀ j, c.Finished (.handler j) (.ok ()) := by
    intro j
    cases j with
    | false => exact finished_of_accepted hfirst
    | true => exact finished_of_accepted hsecond
  refine ⟨c, hreach, ?_, hday, hnext⟩
  exact logs_stored_once sample_lawful dayAt_monotone sample_blank hreach hshutdown hresults sample_valid

end LogSystem

end Detritus.Server
