import Detritus.Server.Logs

/-! What a log request has sent when it is refused.

`Limits` is what the outcome of a request depends on besides the request: the rate limiter's
buckets and the room in the queue of each source. On these the run of a request alone is
described without running it: `Passes` says that no entry is refused, `StopsClean` that one
is before anything was sent. -/
namespace Detritus.Server
open Files Protocol Process
variable {c : Channel}

/-! ### Queues -/

/-- The free slots of a channel. -/
def Channel.slots (c : Channel) : Nat := if c.ended then 0 else WRITER_CHANNEL_CAPACITY - c.queue.length

namespace Writers
variable {ws : Writers} {source : SourceKey} {k : Nat} {f : Channel → Channel}

/-- The free slots of a source's queue. -/
def room (ws : Writers) (source : SourceKey) : Nat :=
  match ws.lookup source with
  | none => WRITER_CHANNEL_CAPACITY
  | some k => ws[k]?.elim 0 Channel.slots

theorem lookup_some (h : ws.lookup source = some k) : ∃ c, ws[k]? = some c ∧ c.source = source := by
  obtain ⟨hk, hc, -⟩ := List.findIdx?_eq_some_iff_getElem.mp h
  refine ⟨ws[k], List.getElem?_eq_getElem hk, ?_⟩
  simp only [Bool.and_eq_true, decide_eq_true_eq] at hc
  exact hc.2

/-- A change that keeps the source of a channel and whether it is listed keeps the map. -/
theorem lookup_modify (ws : Writers) (k : Nat) (source : SourceKey)
    (hf : ∀ c, (f c).listed = c.listed ∧ (f c).source = c.source) :
    Writers.lookup (ws.modify k f) source = ws.lookup source := by
  induction ws generalizing k with
  | nil => simp
  | cons c ws ih =>
    cases k with
    | zero => simp [lookup, List.findIdx?_cons, hf c]
    | succ k =>
      simp only [lookup, List.modify_succ_cons, List.findIdx?_cons] at ih ⊢
      rw [ih]

theorem lookup_append_self (h : ws.lookup source = none) :
    Writers.lookup (ws ++ [⟨source, [], 2, true, false⟩]) source = some ws.length := by
  unfold lookup at h ⊢
  rw [List.findIdx?_append, h]
  simp [List.findIdx?_cons]

theorem lookup_append_other (ws : Writers) (h : c.source ≠ source) :
    Writers.lookup (ws ++ [c]) source = ws.lookup source := by
  simp [lookup, List.findIdx?_append, List.findIdx?_cons, h]

/-- The lines that wait in a channel. -/
def queued (ws : Writers) (k : Nat) : List Json := ws[k]?.elim [] Channel.queue

theorem queued_modify (ws : Writers) (k j : Nat) (hf : ∀ c, (f c).queue = c.queue) :
    Writers.queued (ws.modify k f) j = ws.queued j := by
  unfold queued
  rw [List.getElem?_modify]
  by_cases hj : k = j <;> cases ws[j]? <;> simp [hj, hf]

def enqueue (ws : Writers) (k : Nat) (lines : List Json) : Writers :=
  ws.modify k fun c => {c with queue := c.queue ++ lines}

@[simp] theorem enqueue_nil (ws : Writers) (k : Nat) : ws.enqueue k [] = ws := by
  unfold enqueue
  simp only [List.append_nil]
  exact List.modify_id k ws

theorem enqueue_enqueue (ws : Writers) (k : Nat) (l l' : List Json) :
    (ws.enqueue k l).enqueue k l' = ws.enqueue k (l ++ l') := by
  simp only [enqueue, List.modify_modify_eq, Function.comp_def, List.append_assoc]

theorem get_enqueue (lines : List Json) (hc : ws[k]? = some c) :
    (ws.enqueue k lines)[k]? = some {c with queue := c.queue ++ lines} := by
  simp [enqueue, hc]

theorem queued_enqueue (lines : List Json) (hc : ws[k]? = some c) :
    (ws.enqueue k lines).queued = Function.update ws.queued k (ws.queued k ++ lines) := by
  funext j
  by_cases hj : j = k
  · subst hj
    rw [Function.update_self]
    simp [queued, get_enqueue lines hc, hc]
  · rw [Function.update_of_ne hj]
    simp [queued, enqueue, Ne.symm hj]

theorem trySend_none (line : Json) (hc : ws[k]? = some c) (hs : c.slots = 0) :
    ∃ e, ws.trySend k line = some (.error e, ws) := by
  unfold trySend
  rw [hc, Option.map_some]
  unfold Channel.slots at hs
  split_ifs at hs ⊢ with he hf
  · exact ⟨_, rfl⟩
  · exact ⟨_, rfl⟩
  · omega

theorem trySend_some (line : Json) (hc : ws[k]? = some c) (hs : 0 < c.slots) :
    ws.trySend k line = some (.ok (), ws.enqueue k [line]) := by
  unfold trySend
  rw [hc, Option.map_some]
  unfold Channel.slots at hs
  split_ifs at hs ⊢ with he hf
  · omega
  · omega
  · rfl

theorem slots_append (c : Channel) (lines : List Json) (h : lines.length ≤ c.slots) :
    Channel.slots {c with queue := c.queue ++ lines} = c.slots - lines.length := by
  unfold Channel.slots at h ⊢
  simp only [List.length_append]
  split_ifs at h ⊢ <;> omega

/-! Only the queues and the map matter for the room of a source. -/

/-- A change that keeps what the room depends on. -/
theorem room_modify (ws : Writers) (k : Nat) (source : SourceKey)
    (hf : ∀ c, (f c).listed = c.listed ∧ (f c).source = c.source) (hs : ∀ c, (f c).slots = c.slots) :
    Writers.room (ws.modify k f) source = ws.room source := by
  unfold room
  rw [lookup_modify ws k source hf]
  cases ws.lookup source with
  | none => rfl
  | some j =>
    simp only [List.getElem?_modify]
    by_cases hj : k = j
    · cases ws[j]? <;> simp [hj, hs]
    · simp [hj]

theorem room_of_lookup (hk : ws.lookup source = some k) (hc : ws[k]? = some c) : ws.room source = c.slots := by
  unfold room
  rw [hk]
  simp [hc]

theorem room_enqueue {lines : List Json} (hk : ws.lookup source = some k) (hc : ws[k]? = some c)
    (hl : lines.length ≤ c.slots) :
    (ws.enqueue k lines).room = Function.update ws.room source (ws.room source - lines.length) := by
  have hlookup (s : SourceKey) : (ws.enqueue k lines).lookup s = ws.lookup s :=
    lookup_modify ws k s fun c => ⟨rfl, rfl⟩
  funext s
  by_cases hs : s = source
  · subst hs
    rw [Function.update_self, room_of_lookup hk hc, ← slots_append c lines hl]
    exact room_of_lookup ((hlookup s).trans hk) (get_enqueue lines hc)
  · rw [Function.update_of_ne hs]
    unfold room
    rw [hlookup s]
    cases hj : ws.lookup s with
    | none => rfl
    | some j =>
      -- two sources never share a channel
      have hne : k ≠ j := by
        intro h
        obtain ⟨d, hd, hds⟩ := lookup_some hk
        obtain ⟨d', hd', hds'⟩ := lookup_some hj
        rw [← h, hd] at hd'
        exact hs (hds'.symm.trans ((congrArg Channel.source (Option.some.inj hd')).symm.trans hds))
      simp [enqueue, hne]

/-- What a request finds after `sender_for`: the source's channel, with the room it had. -/
theorem senderFor_spec (ws : Writers) (source : SourceKey) :
    ∃ k ws' c, ws.senderFor source = (k, ws') ∧ ws'.lookup source = some k ∧ ws'[k]? = some c ∧
      ws'.room = ws.room ∧ ws'.queued = ws.queued := by
  unfold senderFor
  cases hk : ws.lookup source with
  | some k =>
    obtain ⟨c, hc, -⟩ := lookup_some hk
    refine ⟨k, _, {c with senders := c.senders + 1}, rfl, ?_, by simp [hc], ?_, ?_⟩
    · refine Eq.trans (lookup_modify ws k source ?_) hk
      exact fun c => ⟨rfl, rfl⟩
    · funext s
      exact room_modify ws k s (fun c => ⟨rfl, rfl⟩) fun c => rfl
    · funext j
      exact queued_modify ws k j fun c => rfl
  | none =>
    refine ⟨ws.length, _, ⟨source, [], 2, true, false⟩, rfl, ?_, by simp, ?_, ?_⟩
    · exact lookup_append_self hk
    · funext s
      by_cases hs : source = s
      · subst hs
        have hnew : (ws ++ [(⟨source, [], 2, true, false⟩ : Channel)])[ws.length]? =
            some ⟨source, [], 2, true, false⟩ := by simp
        rw [room_of_lookup (lookup_append_self hk) hnew]
        simp [room, hk, Channel.slots]
      · unfold room
        rw [lookup_append_other ws hs]
        cases hj : ws.lookup s with
        | none => rfl
        | some j =>
          obtain ⟨d, hd, -⟩ := lookup_some hj
          simp only [List.getElem?_append_left (List.getElem?_eq_some_iff.mp hd).1]
    · funext j
      unfold queued
      rcases Nat.lt_trichotomy j ws.length with hj | hj | hj
      · rw [List.getElem?_append_left hj]
      · simp [hj]
      · rw [List.getElem?_eq_none (by simp; omega), List.getElem?_eq_none (by omega)]

theorem senderFor_source (ws : Writers) (source : SourceKey) :
    ∃ c, (ws.senderFor source).2[(ws.senderFor source).1]? = some c ∧ c.source = source := by
  obtain ⟨k, ws', -, heq, hk, -⟩ := senderFor_spec ws source
  rw [heq]
  exact lookup_some hk

end Writers

/-! ### Sending -/

section Run
variable {ι ε : Type} {env : Env} {i : ι}

/-- The run of a handler alone. -/
abbrev Handler.alone {α : Type} (env : Env) (i : ι) (p : Handler ε α) (w : ServerState ι) :
    Option (Except ε α × ServerState ι) := p.run.run (execAs env i) w

theorem alone_step {α : Type} {op : ServerOp} {w : ServerState ι} {x : op.Answer} {v : World}
    (h : World.exec env w.history.length op w.state = some (x, v)) (f : op.Answer → Handler ε α) :
    Handler.alone env i (call op >>= f) w = (f x).alone env i ⟨v, ⟨i, op, x⟩ :: w.history⟩ := by
  show (execAs env i op w).bind _ = _
  unfold execAs record
  rw [h]
  rfl

theorem alone_bind_ok {α β : Type} {p : Handler ε α} {w w' : ServerState ι} {a : α}
    (h : p.alone env i w = some (.ok a, w')) (f : α → Handler ε β) :
    Handler.alone env i (p >>= f) w = (f a).alone env i w' := Program.run_bind_ok f h

theorem alone_bind_error {α β : Type} {p : Handler ε α} {w w' : ServerState ι} {e : ε}
    (h : p.alone env i w = some (.error e, w')) (f : α → Handler ε β) :
    Handler.alone env i (p >>= f) w = some (.error e, w') := Program.run_bind_error f h

/-- The world with other queues. -/
def World.withWriters (v : World) (ws : Writers) : World := {v with writers := ws}

@[simp] theorem World.withWriters_writers (v : World) (ws : Writers) : (v.withWriters ws).writers = ws := rfl
@[simp] theorem World.withWriters_disk (v : World) (ws : Writers) : (v.withWriters ws).disk = v.disk := rfl

variable (env i)

/-- What became of records, and what is in the channel then. -/
theorem sendRecords_alone (source : SourceKey) (k : Nat) (records : List LogRecord) (w : ServerState ι)
    (hc : w.state.writers[k]? = some c) :
    ∃ r h, (sendRecords source k records).alone env i w = some (.ok r,
        ⟨w.state.withWriters (w.state.writers.enqueue k ((records.map logRecordJson).take c.slots)), h⟩) ∧
      (records.length ≤ c.slots → r = .ok () ∧ h.length = w.history.length + 3 * records.length) ∧
      (c.slots < records.length → ∃ e, r = .error e) := by
  induction records generalizing w c with
  | nil =>
    refine ⟨.ok (), w.history, ?_, by simp, by simp⟩
    rw [List.map_nil, List.take_nil, Writers.enqueue_nil]
    rfl
  | cons record rest ih =>
    unfold sendRecords
    rcases Nat.eq_zero_or_pos c.slots with hs | hs
    · obtain ⟨e, he⟩ := Writers.trySend_none (logRecordJson record) hc hs
      have hsend : World.exec env w.history.length (.trySend k (logRecordJson record)) w.state =
          some (.error e, w.state) := by simp [World.exec, he]
      rw [alone_step hsend, hs, List.take_zero, Writers.enqueue_nil]
      exact ⟨_, _, rfl, fun hl => absurd hl (by simp), fun _ => ⟨_, rfl⟩⟩
    · let v := w.state.withWriters (w.state.writers.enqueue k [logRecordJson record])
      have hsend : World.exec env w.history.length (.trySend k (logRecordJson record)) w.state =
          some (.ok (), v) := by
        simp [World.exec, Writers.trySend_some _ hc hs, v, World.withWriters]
      have hv : v.writers[k]? = some {c with queue := c.queue ++ [logRecordJson record]} :=
        Writers.get_enqueue _ hc
      have hcapacity : ∃ n, ∀ m, World.exec env m (.capacity k) v = some (n, v) :=
        ⟨_, fun m => by simp only [World.exec, hv, Option.map_some]; rfl⟩
      obtain ⟨n, hn⟩ := hcapacity
      rw [alone_step hsend]
      show ∃ r h, Handler.alone env i (call (.capacity k) >>= _) _ = _ ∧ _
      rw [alone_step (hn _), alone_step rfl]
      obtain ⟨r, h, hr, hok, herr⟩ := ih ⟨v, _⟩ hv
      have hslots := Writers.slots_append c [logRecordJson record] hs
      rw [hslots, List.length_singleton] at hr hok herr
      refine ⟨r, h, hr.trans ?_, ?_, ?_⟩
      · obtain ⟨m, hm⟩ := Nat.exists_eq_add_of_lt hs
        simp only [v, World.withWriters, Writers.enqueue_enqueue, hm, Nat.zero_add, Nat.add_sub_cancel, List.map_cons,
          List.take_succ_cons, List.singleton_append]
      · intro hl
        obtain ⟨hr, hlen⟩ := hok (by rw [List.length_cons] at hl; omega)
        refine ⟨hr, hlen.trans ?_⟩
        simp only [List.length_cons]
        omega
      · intro hl
        exact herr (by rw [List.length_cons] at hl; omega)

/-- One entry, once its source is admitted: all records go if there is room for all, and as many
as there is room for if there is not. -/
theorem sendEntry_alone (source : SourceKey) (records : List LogRecord) (w : ServerState ι) :
    ∃ r ws h, (sendEntry source records).alone env i w = some (r, ⟨w.state.withWriters ws, h⟩) ∧
      (∃ k, ws.queued = Function.update w.state.writers.queued k
        (w.state.writers.queued k ++ (records.map logRecordJson).take (w.state.writers.room source))) ∧
      (records.length ≤ w.state.writers.room source → r = .ok () ∧
        h.length = w.history.length + 2 + 3 * records.length ∧
        ws.room = Function.update w.state.writers.room source (w.state.writers.room source - records.length)) ∧
      (w.state.writers.room source < records.length → ∃ e, r = .error e) := by
  obtain ⟨k, ws, c, hsender, hk, hc, hroom, hqueued⟩ := w.state.writers.senderFor_spec source
  have hslots : w.state.writers.room source = c.slots := by rw [← hroom, Writers.room_of_lookup hk hc]
  have hexec : World.exec env w.history.length (.senderFor source) w.state =
      some (k, w.state.withWriters ws) := by simp [World.exec, hsender, World.withWriters]
  obtain ⟨r, h, hr, hok, herr⟩ := sendRecords_alone env i source k records
    ⟨w.state.withWriters ws, ⟨i, .senderFor source, k⟩ :: w.history⟩ hc
  unfold sendEntry
  rw [alone_step hexec, alone_bind_ok hr, alone_step rfl]
  refine ⟨r, _, _, rfl, ⟨k, ?_⟩, ?_, ?_⟩
  · rw [hslots, ← hqueued, ← Writers.queued_enqueue _ hc]
    funext j
    exact Writers.queued_modify _ k j fun c => rfl
  · intro hl
    rw [hslots] at hl
    obtain ⟨hr, hlen⟩ := hok hl
    refine ⟨hr, by rw [List.length_cons, hlen, List.length_cons]; omega, ?_⟩
    have hlines : ((records.map logRecordJson).take c.slots).length = records.length := by
      simp [hl]
    rw [← hroom, ← hlines, ← Writers.room_enqueue hk hc (by rw [hlines]; exact hl)]
    funext s
    exact Writers.room_modify _ k s (fun c => ⟨rfl, rfl⟩) fun c => rfl
  · intro hl
    exact herr (hslots ▸ hl)

end Run

/-! ### Which entries pass -/

/-- What decides about a request besides the request: how many calls there have been, which
gives the time of the next, the buckets and the room in the queues. -/
structure Limits where
  calls : Nat
  buckets : Buckets
  room : SourceKey → Nat

def ServerState.limits {ι : Type} (w : ServerState ι) : Limits :=
  ⟨w.history.length, w.state.buckets, w.state.writers.room⟩

namespace Limits
variable (env : Env) (h : LogsHandler) (token : TokenContext)

/-- The rate limiter's answer for a source, and the buckets after it. -/
def check (l : Limits) (source : SourceKey) : Bool × Buckets :=
  l.buckets.check ⟨.logs, token.id, source.canonical⟩ h.rateLimit.logsPerMinute h.rateLimit.logsBurst
    (env.instant l.calls)

/-- The source of an entry, unless its identity, the token or the rate limiter forbids it. -/
def admitted (l : Limits) (entry : ResourceLogs) : Option SourceKey :=
  match admitEntry token entry with
  | .ok source => if (l.check env h token source).1 then some source else none
  | .error _ => none

/-- The limits after an entry whose records were all sent. -/
def after (l : Limits) (source : SourceKey) (records : Nat) : Limits where
  calls := l.calls + 3 + 3 * records
  buckets := (l.check env h token source).2
  room := Function.update l.room source (l.room source - records)

/-- No entry is refused: each is admitted and there is room for its records. -/
def Passes (l : Limits) : List ResourceLogs → Prop
  | [] => True
  | entry :: rest => match l.admitted env h token entry with
    | none => False
    | some source => entry.records.length ≤ l.room source ∧
        Passes (l.after env h token source entry.records.length) rest

/-- An entry is refused before a record was sent: those before it have no records, and if it is
for want of room, there is no room at all. -/
def StopsClean (l : Limits) : List ResourceLogs → Prop
  | [] => False
  | entry :: rest => match l.admitted env h token entry with
    | none => True
    | some source =>
      if entry.records = [] then StopsClean (l.after env h token source 0) rest else l.room source = 0

section Entry
variable {env h token} {l : Limits} {entry : ResourceLogs} {source : SourceKey} (rest : List ResourceLogs)

theorem not_passes_of_refused (hr : l.admitted env h token entry = none) :
    ¬ l.Passes env h token (entry :: rest) := by
  simp [Passes, hr]

theorem stopsClean_of_refused (hr : l.admitted env h token entry = none) :
    l.StopsClean env h token (entry :: rest) := by
  simp [StopsClean, hr]

theorem passes_cons (ha : l.admitted env h token entry = some source) :
    l.Passes env h token (entry :: rest) ↔ entry.records.length ≤ l.room source ∧
      (l.after env h token source entry.records.length).Passes env h token rest := by
  simp [Passes, ha]

theorem stopsClean_cons_empty (ha : l.admitted env h token entry = some source) (he : entry.records = []) :
    l.StopsClean env h token (entry :: rest) ↔
      (l.after env h token source entry.records.length).StopsClean env h token rest := by
  simp [StopsClean, ha, he]

theorem stopsClean_cons_records (ha : l.admitted env h token entry = some source) (he : entry.records ≠ []) :
    l.StopsClean env h token (entry :: rest) ↔ l.room source = 0 := by
  simp [StopsClean, ha, he]

end Entry

end Limits

section Run
variable {ι : Type} (env : Env) (i : ι) (h : LogsHandler) (token : TokenContext) {entry : ResourceLogs}

/-- An entry whose source may be written goes through the rate limiter. -/
theorem exportEntries_checked {source : SourceKey} (rest : List ResourceLogs) (w : ServerState ι)
    (hentry : admitEntry token entry = .ok source) :
    ∃ w', (exportEntries h token (entry :: rest)).alone env i w =
        Handler.alone env i (if !(w.limits.check env h token source).1
          then throw ⟨.resourceExhausted, "log rate limit exceeded"⟩
          else do sendEntry source entry.records; exportEntries h token rest) w' ∧
      w'.state = {w.state with buckets := (w.limits.check env h token source).2} ∧
      w'.history.length = w.history.length + 1 := by
  rw [exportEntries, hentry, alone_bind_ok rfl, alone_step rfl]
  refine ⟨_, rfl, ?_, ?_⟩ <;> rfl

/-- A refused entry ends the request and sends nothing. -/
theorem exportEntries_refused (rest : List ResourceLogs) {w : ServerState ι}
    (hr : w.limits.admitted env h token entry = none) :
    ∃ e w', (exportEntries h token (entry :: rest)).alone env i w = some (.error e, w') ∧
      w'.state.writers = w.state.writers := by
  unfold Limits.admitted at hr
  cases hentry : admitEntry token entry with
  | error e =>
    unfold exportEntries
    rw [hentry]
    exact ⟨e, w, rfl, rfl⟩
  | ok source =>
    obtain ⟨w', hrun, hw, -⟩ := exportEntries_checked env i h token rest w hentry
    have hcheck : (w.limits.check env h token source).1 = false := by simpa [hentry] using hr
    rw [hrun, hcheck]
    exact ⟨_, w', rfl, by rw [hw]⟩

/-- An admitted entry is charged, its records are sent, and the rest follows. -/
theorem exportEntries_admitted {source : SourceKey} (rest : List ResourceLogs) {w : ServerState ι}
    (ha : w.limits.admitted env h token entry = some source) :
    ∃ w', (exportEntries h token (entry :: rest)).alone env i w =
        Handler.alone env i (do sendEntry source entry.records; exportEntries h token rest) w' ∧
      w'.state = {w.state with buckets := (w.limits.check env h token source).2} ∧
      w'.history.length = w.history.length + 1 := by
  unfold Limits.admitted at ha
  cases hentry : admitEntry token entry with
  | error e => simp [hentry] at ha
  | ok s =>
    obtain ⟨hcheck, rfl⟩ : (w.limits.check env h token s).1 = true ∧ s = source := by
      simpa [hentry] using ha
    obtain ⟨w', hrun, hw⟩ := exportEntries_checked env i h token rest w hentry
    rw [hcheck] at hrun
    exact ⟨w', hrun, hw⟩

theorem exportEntries_alone (entries : List ResourceLogs) (w : ServerState ι) :
    ∃ r w', (exportEntries h token entries).alone env i w = some (r, w') ∧
      (∀ k, w.state.writers.queued k <+: w'.state.writers.queued k) ∧
      (w.limits.Passes env h token entries → r = .ok ()) ∧
      (¬ w.limits.Passes env h token entries → (∃ e, r = .error e) ∧
        (w'.state.writers.queued = w.state.writers.queued ↔ w.limits.StopsClean env h token entries)) := by
  induction entries generalizing w with
  | nil => exact ⟨.ok (), w, rfl, fun k => List.prefix_rfl, fun _ => rfl, fun hn => absurd trivial hn⟩
  | cons entry rest ih =>
    cases ha : w.limits.admitted env h token entry with
    | none =>
      obtain ⟨e, w', hrun, hw⟩ := exportEntries_refused env i h token rest ha
      refine ⟨.error e, w', hrun, fun k => hw ▸ List.prefix_rfl, fun hp => ?_, fun _ => ⟨⟨e, rfl⟩, ?_⟩⟩
      · exact absurd hp (Limits.not_passes_of_refused rest ha)
      · exact iff_of_true (by rw [hw]) (Limits.stopsClean_of_refused rest ha)
    | some source =>
      obtain ⟨v, hrun, hv, hcalls⟩ := exportEntries_admitted env i h token rest ha
      obtain ⟨r, ws, hist, hsend, ⟨k, hqueued⟩, hok, herr⟩ :=
        sendEntry_alone env i source entry.records v
      have hwriters : v.state.writers = w.state.writers := by rw [hv]
      have hroom : v.state.writers.room = w.limits.room := by rw [hwriters]; rfl
      rw [hroom] at hqueued hok herr
      rw [hwriters] at hqueued
      rw [hrun]
      have hstart : ∀ j, w.state.writers.queued j <+: ws.queued j := by
        intro j
        rw [hqueued]
        by_cases hj : j = k
        · subst hj
          rw [Function.update_self]
          exact List.prefix_append ..
        · rw [Function.update_of_ne hj]
      have hsame : ws.queued = w.state.writers.queued ↔ entry.records = [] ∨ w.limits.room source = 0 := by
        rw [hqueued, Function.update_eq_self_iff]
        simp [or_comm]
      by_cases hl : entry.records.length ≤ w.limits.room source
      · obtain ⟨rfl, hlen, hroom'⟩ := hok hl
        let w' : ServerState ι := ⟨v.state.withWriters ws, hist⟩
        have hlimits : w'.limits = w.limits.after env h token source entry.records.length := by
          simp only [ServerState.limits, w', World.withWriters, Limits.after, hlen, hcalls, hroom', hv]
        obtain ⟨r, w'', hrest, hgrown, hpass, hfail⟩ := ih w'
        rw [hlimits] at hpass hfail
        rw [alone_bind_ok hsend, Limits.passes_cons rest ha]
        refine ⟨r, w'', hrest, fun j => (hstart j).trans (hgrown j), fun hp => hpass hp.2, fun hn => ?_⟩
        obtain ⟨herror, hclean⟩ := hfail fun hp => hn ⟨hl, hp⟩
        refine ⟨herror, ?_⟩
        by_cases he : entry.records = []
        · rw [Limits.stopsClean_cons_empty rest ha he, ← hclean, ← hsame.mpr (.inl he)]
          rfl
        · have hpos : w.limits.room source ≠ 0 := by
            have := List.length_pos_iff.mpr he
            omega
          rw [Limits.stopsClean_cons_records rest ha he]
          -- what this entry sent is still there at the end
          refine iff_of_false (fun hq => ?_) hpos
          have hback : ws.queued = w.state.writers.queued := by
            funext j
            exact ((hstart j).eq_of_length_le (hq ▸ (hgrown j).length_le)).symm
          exact (hsame.mp hback).elim he hpos
      · obtain ⟨e, rfl⟩ := herr (Nat.lt_of_not_le hl)
        have he : entry.records ≠ [] := fun he => hl (by simp [he])
        rw [alone_bind_error hsend, Limits.passes_cons rest ha, Limits.stopsClean_cons_records rest ha he]
        refine ⟨.error e, _, rfl, hstart, fun hp => absurd hp.1 hl, fun _ => ⟨⟨e, rfl⟩, ?_⟩⟩
        exact hsame.trans (or_iff_right he)

/-- The first pass sends nothing, whatever it finds, and changes nothing where it finds nothing. -/
theorem validateEntries_alone (entries : List ResourceLogs) (w : ServerState ι) :
    ∃ r w', (validateEntries h token entries).alone env i w = some (r, w') ∧
      w'.state.writers = w.state.writers ∧
      ((∀ entry ∈ entries, h.schemaRegistry.validate token.project .logAttributes
        (resourceLogsToValidationValue entry) = .ok ()) → r = .ok () ∧ w' = w) ∧
      (r = .ok () → ∀ entry ∈ entries, h.schemaRegistry.validate token.project .logAttributes
        (resourceLogsToValidationValue entry) = .ok ()) := by
  induction entries with
  | nil => exact ⟨.ok (), w, rfl, rfl, fun _ => ⟨rfl, rfl⟩, by simp⟩
  | cons entry rest ih =>
    unfold validateEntries
    cases hv : h.schemaRegistry.validate token.project .logAttributes (resourceLogsToValidationValue entry) with
    | ok u =>
      obtain ⟨r, w', hrun, hw, hok, hall⟩ := ih
      refine ⟨r, w', hrun, hw, fun hp => hok fun e he => hp e (.tail _ he), fun hr => ?_⟩
      exact List.forall_mem_cons.mpr ⟨hv, hall hr⟩
    | error error =>
      have hrefused : ¬ ∀ e ∈ entry :: rest, h.schemaRegistry.validate token.project .logAttributes
          (resourceLogsToValidationValue e) = .ok () := fun hp => by
        have := hp entry List.mem_cons_self
        rw [hv] at this
        cases this
      cases error with
      | validation kind errors => exact ⟨_, _, rfl, rfl, fun hp => absurd hp hrefused, fun hr => by cases hr⟩
      | unknownSchema project kind => exact ⟨_, _, rfl, rfl, fun hp => absurd hp hrefused, fun hr => by cases hr⟩

end Run

/-! ### All or nothing -/

/-- The request passes the checks of the first pass, under this token. -/
structure LogsRequest.Checked (h : LogsHandler) (request : LogsRequest) (token : TokenContext) : Prop where
  version : validateProtocolMetadata request.version = .ok ()
  authenticated : request.token = some token
  schema : ∀ entry ∈ request.resourceLogs, h.schemaRegistry.validate token.project .logAttributes
    (resourceLogsToValidationValue entry) = .ok ()

section Run
variable {ι : Type} (env : Env) (i : ι) (h : LogsHandler) (request : LogsRequest)

/-- A request that the first pass refuses is refused before anything is sent. -/
theorem exportInner_unchecked (w : ServerState ι) (hn : ∀ token, ¬ request.Checked h token) :
    ∃ e w', (exportInner h request).alone env i w = some (.error e, w') ∧
      w'.state.writers = w.state.writers := by
  unfold exportInner
  cases hversion : validateProtocolMetadata request.version with
  | error e => exact ⟨e, w, rfl, rfl⟩
  | ok u =>
    rw [alone_bind_ok rfl]
    cases htoken : request.token with
    | none => exact ⟨_, w, rfl, rfl⟩
    | some token =>
      rw [tokenFromExtensions, alone_bind_ok rfl]
      obtain ⟨r, w', hrun, hw, -, hall⟩ := validateEntries_alone env i h token request.resourceLogs w
      cases r with
      | ok u => exact absurd ⟨hversion, htoken, hall rfl⟩ (hn token)
      | error e => exact ⟨e, w', alone_bind_error hrun _, hw⟩

/-- One that the first pass lets through is what becomes of its entries. -/
theorem exportInner_checked {token : TokenContext} (w : ServerState ι) (hc : request.Checked h token) :
    (exportInner h request).alone env i w = (exportEntries h token request.resourceLogs).alone env i w := by
  obtain ⟨r, w', hrun, -, hok, -⟩ := validateEntries_alone env i h token request.resourceLogs w
  obtain ⟨rfl, rfl⟩ := hok hc.schema
  unfold exportInner
  rw [hc.version, hc.authenticated, alone_bind_ok rfl, tokenFromExtensions, alone_bind_ok rfl, alone_bind_ok hrun]

/-- **A refused request has sent nothing exactly when the first pass refuses it, no entry is
refused, or the first that is comes before any record.** -/
theorem exportInner_sendsNothing_iff (w : ServerState ι) :
    (∀ e w', (exportInner h request).alone env i w = some (.error e, w') →
      ∀ k, w'.state.writers.queued k = w.state.writers.queued k) ↔
    ∀ token, request.Checked h token → w.limits.Passes env h token request.resourceLogs ∨
      w.limits.StopsClean env h token request.resourceLogs := by
  by_cases hn : ∀ token, ¬ request.Checked h token
  · refine iff_of_true (fun e w' hrun k => ?_) fun token hc => absurd hc (hn token)
    obtain ⟨e', v, hrun', hv⟩ := exportInner_unchecked env i h request w hn
    rw [hrun] at hrun'
    obtain ⟨-, rfl⟩ := result_eq hrun'
    rw [hv]
  · obtain ⟨token, hc⟩ := not_forall_not.mp hn
    have hunique : ∀ t, request.Checked h t → t = token := fun t ht =>
      Option.some.inj (ht.authenticated.symm.trans hc.authenticated)
    obtain ⟨r, v, hrun, -, hpass, hfail⟩ := exportEntries_alone env i h token request.resourceLogs w
    rw [exportInner_checked env i h request w hc, hrun]
    by_cases hp : w.limits.Passes env h token request.resourceLogs
    · refine iff_of_true (fun e w' he => ?_) fun t ht => hunique t ht ▸ .inl hp
      rw [hpass hp] at he
      cases he
    · obtain ⟨⟨e, rfl⟩, hclean⟩ := hfail hp
      constructor
      · intro hall t ht
        rw [hunique t ht]
        exact .inr (hclean.mp (funext (hall e v rfl)))
      · intro hstops e' w' he k
        obtain ⟨-, rfl⟩ := result_eq he
        rw [hclean.mpr ((hstops token hc).resolve_left hp)]

end Run

/-! Two sources in one request, of which the token may write the first: its record is sent, then
the request is refused. -/

def sampleRecord (text : String) : LogRecord := ⟨0, 0, 9, "INFO", some (.string text), [], 0, 0, [], [], ""⟩

/-- One record of a source. -/
def sampleEntry (project installId text : String) : ResourceLogs where
  resource := some ⟨[("source.project", some (.string project)), ("source.platform", some (.string "linux")),
    ("source.version", some (.string "1.0")), ("source.install_id", some (.string installId))]⟩
  scopeLogs := [⟨none, [sampleRecord text]⟩]

def twoSources : LogsRequest :=
  ⟨some (some "1"), some ⟨"t", "app", "app/", ""⟩, [sampleEntry "app" "a" "first", sampleEntry "other" "b" "second"]⟩

theorem twoSources_sent_and_refused : ∃ e w',
    (exportInner ⟨.default, .empty⟩ twoSources).alone stillEnv () emptyState = some (.error e, w') ∧
    e = ⟨.permissionDenied, "token is not permitted to write this source"⟩ ∧
    (w'.state.writers.queued 0).length = 1 ∧ emptyState.state.writers.queued 0 = [] := by
  have hrun : ((exportInner ⟨.default, .empty⟩ twoSources).alone stillEnv () emptyState).any (fun x =>
      x.1 = .error ⟨.permissionDenied, "token is not permitted to write this source"⟩ &&
        (x.2.state.writers.queued 0).length = 1) = true := by decide +kernel
  obtain ⟨⟨r, w'⟩, hx, hp⟩ := (Option.any_eq_true _ _).mp hrun
  simp only [Bool.and_eq_true, decide_eq_true_eq] at hp
  exact ⟨_, w', hp.1 ▸ hx, rfl, hp.2, rfl⟩

end Detritus.Server
