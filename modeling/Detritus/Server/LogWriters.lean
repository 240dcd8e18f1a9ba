import Detritus.Server.LogTasks

/-! The writers of the log store, and its shutdown, each against any company.

A writer keeps the files of its source equal to its journal: the lines it has received,
each with the time it read after it. Between a line and its append the journal is ahead,
by the line and then by the time too. -/
namespace Detritus.Server
open Files Protocol Process Contract

namespace LogSystem
variable {κ : Type} [DecidableEq κ] {Y : LogSystem κ} {k : Nat} {w w' : LogState κ}

/-! ### What a writer has open -/

/-- The file of the day that a writer is at. -/
def Opened (Y : LogSystem κ) (v : WriterFile) (d : Disk) : Prop :=
  match v.date with
  | none => v.file = none
  | some date => ∃ handle, v.file = some handle ∧ handle.append = true ∧
      d.file (Y.storage.logFile v.source date) = some handle.inode

/-- The writer of a channel. Its files hold what it has received, but for the lines `extra`, which it has
received last, and it has read the clock for them the times `late`. If the channel is `closed` nothing more
will come. -/
structure Writing (Y : LogSystem κ) (k : Nat) (v : WriterFile) (closed : Prop) (extra : List Json) (late : List Time)
    (w : LogState κ) : Prop where
  inv : Y.Inv w
  channel : ∃ c, w.state.writers[k]? = some c ∧ c.source = v.source ∧ c.ended = false ∧
    (closed → c.queue = [] ∧ c.senders = 0)
  journal : ∃ lines times, received k w.history = lines ++ extra ∧ stamps k w.history = times ++ late ∧
    lines.length = times.length ∧ Y.Stored v.source (lines.zip times) w.state.disk
  opened : Y.Opened v w.state.disk

variable {v : WriterFile} {closed : Prop} {extra : List Json} {late : List Time} {line : Json} {time : Time}

theorem Writing.active (W : Y.Writing k v closed extra late w) : Active k w := by
  obtain ⟨c, hc, -, he, -⟩ := W.channel
  exact ⟨c, hc, he⟩

theorem Writing.sourceOf (W : Y.Writing k v closed extra late w) : w.state.writers.sourceOf k = some v.source := by
  obtain ⟨c, hc, hs, -⟩ := W.channel
  simp [Writers.sourceOf, hc, hs]

theorem Writing.valid (W : Y.Writing k v closed extra late w) : v.source.Valid := by
  obtain ⟨c, hc, hs, -⟩ := W.channel
  exact hs ▸ W.inv.names.valid k c hc

omit [DecidableEq κ] in
/-- The files of the source hold what they held. -/
theorem Stored.same {source : SourceKey} {lines : List (Json × Time)} {d e : Disk} (h : Y.Stored source lines d)
    (hd : ∀ date, e.content (Y.storage.logFile source date) = d.content (Y.storage.logFile source date)) :
    Y.Stored source lines e := fun date => by
  rw [hd]
  exact h date

omit [DecidableEq κ] in
theorem Opened.same {d e : Disk} (h : Y.Opened v d)
    (hd : ∀ date, e.file (Y.storage.logFile v.source date) = d.file (Y.storage.logFile v.source date)) :
    Y.Opened v e := by
  unfold Opened at h ⊢
  cases hdate : v.date with
  | none =>
    rw [hdate] at h
    exact h
  | some date =>
    rw [hdate] at h
    obtain ⟨handle, hf, ha, hfile⟩ := h
    exact ⟨handle, hf, ha, (hd date).trans hfile⟩

theorem writing_stable : (Y.contract (.writer k)).Stable (Y.Writing k v closed extra late) := by
  refine stable_of (fun _ h => h.inv) fun s t ht F W => ?_
  obtain ⟨c, hc, hsource, hended, hclosed⟩ := W.channel
  obtain ⟨c', hc', hs', -, hu⟩ := F.kept k c hc
  have hu := hu rfl
  have hfiles := F.files k c rfl hc
  rw [hsource] at hfiles
  refine ⟨ht, ⟨c', hc', hs'.trans hsource, hu.ended.trans hended, fun hcl => ?_⟩, ?_, ?_⟩
  · exact hu.closed (hclosed hcl).1 (hclosed hcl).2
  · obtain ⟨lines, times, hl, htimes, heven, hstored⟩ := W.journal
    refine ⟨lines, times, (received_apart F.apart).trans hl, (stamps_apart F.apart).trans htimes, heven, ?_⟩
    exact Stored.same hstored fun date => (hfiles date).2
  · exact W.opened.same fun date => (hfiles date).1

/-- A call of its own that leaves channels and files alone and is neither a line nor a time. -/
theorem Writing.quiet (W : Y.Writing k v closed extra late w) (hI : Y.Inv w')
    (hw : w'.state.writers = w.state.writers) (hd : w.state.disk.SameFiles w'.state.disk) {e : LogEvent κ}
    (hh : w'.history = e :: w.history) (htake : takes k e = none) (hread : reads k e = none) :
    Y.Writing k v closed extra late w' := by
  have hcontent : ∀ p, w'.state.disk.content p = w.state.disk.content p := fun p => by
    rw [Disk.content, hd.file, hd.inode, Disk.content]
  obtain ⟨lines, times, hl, ht, heven, hstored⟩ := W.journal
  refine ⟨hI, by rw [hw]; exact W.channel, ⟨lines, times, ?_, ?_, heven, ?_⟩, W.opened.same fun date => ?_⟩
  · rw [received, hh, noted_cons_none _ htake]
    exact hl
  · rw [stamps, hh, noted_cons_none _ hread]
    exact ht
  · exact Stored.same hstored fun date => hcontent _
  · rw [hd.file]

/-- The file of a day is opened. -/
theorem Writing.openAppend (W : Y.Writing k v closed extra late w) (hI : Y.Inv w') {date : NaiveDate} {now : Time}
    {x : Except IoError Handle} (hw : w'.state.writers = w.state.writers)
    (hd : w'.state.disk = (w.state.disk.openAppend (Y.storage.logFile v.source date) now).2)
    (hh : w'.history = ⟨.writer k, .file (.openAppend (Y.storage.logFile v.source date)), x⟩ :: w.history) :
    Y.Writing k ⟨v.source, some date, some (w.state.disk.openAppend (Y.storage.logFile v.source date) now).1⟩ closed
      extra late w' := by
  obtain ⟨lines, times, hl, ht, heven, hstored⟩ := W.journal
  let opened := w.state.disk.openAppend (Y.storage.logFile v.source date) now
  obtain ⟨hself, happend⟩ : opened.2.file _ = some opened.1.inode ∧ opened.1.append = true := Disk.openAppend_self
  refine ⟨hI, by rw [hw]; exact W.channel, ⟨lines, times, ?_, ?_, heven, fun date' => ?_⟩, _, rfl, happend, ?_⟩
  · rw [received, hh, noted_cons_none _ rfl]
    exact hl
  · rw [stamps, hh, noted_cons_none _ rfl]
    exact ht
  · rw [hd, (Disk.openAppend_content W.inv.files.below _).1]
    exact hstored date'
  · rw [hd]
    exact hself

/-! ### Parts of the loop -/

theorem flushFile_holds (message : String) (handle : Option Handle) (hs : Y.Writing k v closed extra late w) :
    (Y.contract (.writer k)).Holds (fun _ => Y.Writing k v closed extra late) (flushFile message handle) w := by
  unfold flushFile
  cases handle with
  | none => exact Holds.done writing_stable hs
  | some handle =>
    refine holds_call sound writing_stable (fun _ h => h.inv) hs (fun _ _ _ => trivial) ?_
    intro t x u W _ hu _ hx
    obtain ⟨hexec, hh⟩ := record_eq_some.mp hx
    obtain ⟨rfl, hstate⟩ := World.exec_file.mp hexec
    refine Holds.done writing_stable (W.quiet hu ?_ ?_ hh rfl rfl)
    · rw [hstate]
    · rw [hstate]
      exact ⟨rfl, rfl, rfl⟩

theorem openLogFile_yields (date : NaiveDate) (hs : Y.Writing k v False extra late w) :
    (Y.contract (.writer k)).Yields
      (fun handle => Y.Writing k {v with date := some date, file := some handle} False extra late)
      (fun _ _ => False) (openLogFile Y.storage v.source date) w := by
  have hfalse : ∀ _ : StorageError, (Y.contract (.writer k)).Stable fun _ => False := fun _ _ _ _ h => h
  unfold openLogFile
  refine yields_try sound hfalse writing_stable (fun _ h => h.inv) hs (fun _ _ _ => trivial) ?_
  intro t x u W _ hu _ hx
  obtain ⟨hexec, hh⟩ := record_eq_some.mp hx
  obtain ⟨rfl, hstate⟩ := World.exec_file.mp hexec
  have W : Y.Writing k v False extra late u := by
    refine W.quiet hu ?_ ?_ hh rfl rfl
    · rw [hstate]
    · rw [hstate]
      exact ⟨rfl, rfl, rfl⟩
  refine .inl ⟨(), rfl, fun t hr ha x z hx => ?_⟩
  have W := writing_stable u t hr W
  have hlegal : Y.Legal (.writer k) (.file (.openAppend (Y.storage.logFile v.source date))) t :=
    ⟨W.active, v.source, date, W.sourceOf, rfl⟩
  refine ⟨fun I => I.step hlegal hx, ?_⟩
  have hz := (W.inv.step hlegal hx).1
  have hx : execAs Y.env (.writer k) (.file (.openAppend (Y.storage.logFile v.source date))) t = some (x, z) := hx
  obtain ⟨hexec, hh⟩ := record_eq_some.mp hx
  obtain ⟨rfl, hstate⟩ := World.exec_file.mp hexec
  refine Holds.done writing_stable (W.openAppend hz ?_ ?_ hh)
  · rw [hstate]
  · rw [hstate]
    rfl

theorem rotate_holds (today : NaiveDate) (hs : Y.Writing k v False extra late w) :
    (Y.contract (.writer k)).Holds
      (fun r t => r.2 = true ∧ r.1.date = some today ∧ Y.Writing k r.1 False extra late t)
      (rotate Y.storage v today) w := by
  have hstable : ∀ r : WriterFile × Bool, (Y.contract (.writer k)).Stable
      fun t => r.2 = true ∧ r.1.date = some today ∧ Y.Writing k r.1 False extra late t :=
    fun r s t hr h => ⟨h.1, h.2.1, writing_stable s t hr h.2.2⟩
  unfold rotate
  split
  · next hdate => exact Holds.done (hstable _) ⟨rfl, hdate, hs⟩
  · refine Holds.andThen (flushFile_holds _ v.file hs) fun _ t W => ?_
    refine Holds.andThen (openLogFile_yields today W) fun r t h => ?_
    cases r with
    | error e => exact h.elim
    | ok handle => exact Holds.done (hstable _) ⟨rfl, rfl, h⟩

omit [DecidableEq κ] in
theorem bytesOn_append (date : NaiveDate) (lines : List (Json × Time)) (line : Json) (time : Time) :
    Y.bytesOn date (lines ++ [(line, time)]) =
      Y.bytesOn date lines ++ if Y.utcDate time = date then Y.encode line else [] := by
  unfold bytesOn
  rw [List.filter_append, List.flatMap_append]
  by_cases h : Y.utcDate time = date <;> simp [h]

/-- The line is appended to the file of its day, and the journal is even again. -/
theorem Writing.write {handle : Handle} (W : Y.Writing k v False [line] [time] w)
    (hdate : v.date = some (Y.utcDate time)) (hfile : v.file = some handle) (hI : Y.Inv w') (now : Time)
    {x : Except IoError Handle} {handle' : Handle} (hin : handle'.inode = handle.inode)
    (ha : handle'.append = handle.append) (hw : w'.state.writers = w.state.writers)
    (hd : w'.state.disk = (w.state.disk.write handle (Y.encode line) now).2)
    (hh : w'.history = ⟨.writer k, .file (.write handle (Y.encode line)), x⟩ :: w.history) :
    Y.Writing k {v with file := some handle'} False [] [] w' := by
  obtain ⟨lines, times, hl, ht, heven, hstored⟩ := W.journal
  have hopened := W.opened
  unfold Opened at hopened
  rw [hdate] at hopened
  obtain ⟨b, hb, happend, hinode⟩ := hopened
  obtain rfl : b = handle := Option.some.inj (hb.symm.trans hfile)
  refine ⟨hI, by rw [hw]; exact W.channel, ⟨lines ++ [line], times ++ [time], ?_, ?_, by simp [heven], ?_⟩, ?_⟩
  · rw [received, hh, noted_cons_none _ rfl, List.append_nil]
    exact hl
  · rw [stamps, hh, noted_cons_none _ rfl, List.append_nil]
    exact ht
  · intro date
    rw [List.zip_append heven, List.zip_cons_cons, List.zip_nil_left, bytesOn_append, hd,
      Disk.write_append_content happend]
    by_cases hday : Y.utcDate time = date
    · subst hday
      rw [if_pos hinode, if_pos rfl, ← hstored (Y.utcDate time)]
      simp [Disk.content, hinode]
    · rw [if_neg hday, if_neg, List.append_nil]
      · exact hstored date
      · intro hsame
        have hpaths := W.inv.files.injective _ _ _ _ hinode hsame
        exact hday (Y.storage.logFile_injective W.valid W.valid hpaths).2.symm
  · unfold Opened
    rw [hdate]
    refine ⟨handle', rfl, ha.trans happend, ?_⟩
    rw [hd, hin]
    exact hinode

theorem appendLine_holds (hdate : v.date = some (Y.utcDate time)) (hs : Y.Writing k v False [line] [time] w) :
    (Y.contract (.writer k)).Holds (fun r => Y.Writing k {v with file := r} False [] [])
      (appendLine Y.json line v.file) w := by
  have hopened := hs.opened
  unfold Opened at hopened
  rw [hdate] at hopened
  obtain ⟨handle, hfile, happend, -⟩ := hopened
  unfold appendLine
  rw [hfile]
  refine holds_call sound writing_stable (fun _ h => h.inv) hs ?_ ?_
  · intro t W _
    have hopened := W.opened
    unfold Opened at hopened
    rw [hdate] at hopened
    obtain ⟨b, hb, -, hinode⟩ := hopened
    obtain rfl : b = handle := Option.some.inj (hb.symm.trans hfile)
    exact ⟨W.active, happend, v.source, _, W.sourceOf, hinode⟩
  · intro t x u W _ hu _ hx
    obtain ⟨hexec, hh⟩ := record_eq_some.mp hx
    obtain ⟨rfl, hstate⟩ := World.exec_file.mp hexec
    refine Holds.done writing_stable (W.write hdate hfile hu (Y.env.clock t.history.length) rfl rfl ?_ ?_ hh)
    · rw [hstate]
    · rw [hstate]
      rfl

/-! ### The loop -/

/-- A line comes out of the channel. -/
theorem Writing.recv_some (W : Y.Writing k v False [] [] w) (hI : Y.Inv w')
    (hx : execAs Y.env (.writer k) (.recv k) w = some (some line, w')) : Y.Writing k v False [line] [] w' := by
  obtain ⟨hexec, hh⟩ := record_eq_some.mp hx
  obtain ⟨c, hc, hsource, hended, -⟩ := W.channel
  obtain ⟨⟨r, ws⟩, hrecv, hr⟩ := Option.map_eq_some_iff.mp hexec
  obtain ⟨rfl, hstate⟩ := Prod.mk.inj hr
  simp only [Writers.recv, hc] at hrecv
  split at hrecv
  · next line' rest hq =>
    obtain ⟨hline, rfl⟩ := result_eq hrecv
    obtain rfl := Option.some.inj hline
    obtain ⟨lines, times, hl, ht, heven, hstored⟩ := W.journal
    refine ⟨hI, ⟨{c with queue := rest}, ?_, hsource, hended, False.elim⟩, ⟨lines, times, ?_, ?_, heven, ?_⟩, ?_⟩
    · rw [← hstate]
      simp [hc]
    · rw [received, hh, noted_cons, ← received, hl]
      simp [takes]
    · rw [stamps, hh, noted_cons_none _ rfl]
      exact ht
    · rw [← hstate]
      exact hstored
    · rw [← hstate]
      exact W.opened
  · split at hrecv
    · obtain ⟨hline, -⟩ := result_eq hrecv
      cases hline
    · cases hrecv

/-- Nothing comes any more. -/
theorem Writing.recv_none (W : Y.Writing k v False [] [] w) (hI : Y.Inv w')
    (hx : execAs Y.env (.writer k) (.recv k) w = some (none, w')) : Y.Writing k v True [] [] w' := by
  obtain ⟨hexec, hh⟩ := record_eq_some.mp hx
  obtain ⟨c, hc, hsource, hended, -⟩ := W.channel
  obtain ⟨⟨r, ws⟩, hrecv, hr⟩ := Option.map_eq_some_iff.mp hexec
  obtain ⟨rfl, hstate⟩ := Prod.mk.inj hr
  simp only [Writers.recv, hc] at hrecv
  split at hrecv
  · obtain ⟨hline, -⟩ := result_eq hrecv
    cases hline
  · next hq =>
    split at hrecv
    · next hsenders =>
      obtain ⟨-, rfl⟩ := result_eq hrecv
      have htake : takes k (⟨.writer k, .recv k, none⟩ : LogEvent κ) = none := by simp [takes]
      have W := W.quiet hI (by rw [← hstate]) (by rw [← hstate]; exact ⟨rfl, rfl, rfl⟩) hh htake rfl
      refine ⟨hI, ⟨c, ?_, hsource, hended, fun _ => ⟨hq, hsenders⟩⟩, W.journal, W.opened⟩
      rw [← hstate]
      exact hc
    · cases hrecv

/-- The clock is read for the line. -/
theorem Writing.now (W : Y.Writing k v False [line] [] w) (hI : Y.Inv w')
    (hx : execAs Y.env (.writer k) .now w = some (time, w')) : Y.Writing k v False [line] [time] w' := by
  obtain ⟨hexec, hh⟩ := record_eq_some.mp hx
  have hstate := (result_eq hexec).2
  obtain ⟨lines, times, hl, ht, heven, hstored⟩ := W.journal
  refine ⟨hI, by rw [← hstate]; exact W.channel, ⟨lines, times, ?_, ?_, heven, by rw [← hstate]; exact hstored⟩, ?_⟩
  · rw [received, hh, noted_cons_none _ rfl]
    exact hl
  · rw [stamps, hh, noted_cons, ← stamps, ht]
    simp [reads]
  · rw [← hstate]
    exact W.opened

/-- A writer to which nothing more will come has stored all it received. -/
theorem Writing.finished (W : Y.Writing k v True [] [] w) : Y.Legal (.writer k) (.finish k) w := by
  obtain ⟨c, hc, hsource, -, hclosed⟩ := W.channel
  obtain ⟨lines, times, hl, ht, heven, hstored⟩ := W.journal
  rw [List.append_nil] at hl ht
  refine ⟨rfl, c, hc, (hclosed trivial).1, ?_, ?_⟩
  · rw [hl, ht]
    exact heven
  · rw [hsource, Server.journal, hl, ht]
    exact hstored

/-- Where a turn of the loop ends. -/
def Turned (Y : LogSystem κ) (k : Nat) : WriterFile ⊕ Unit → LogState κ → Prop
  | .inl v => Y.Writing k v False [] []
  | .inr () => Y.Inv

theorem inv_stable {i : LogTask κ} : (Y.contract i).Stable Y.Inv := fun _ _ hr h => (hr h).1

/-- **A turn of a writer against any company.** -/
theorem writerLoop_holds (hs : Y.Writing k v False [] [] w) :
    (Y.contract (.writer k)).Holds (Y.Turned k) (writerLoop Y.json Y.storage Y.utcDate k v) w := by
  unfold writerLoop
  refine holds_call sound writing_stable (fun _ h => h.inv) hs (fun t W _ => ⟨rfl, W.active⟩) ?_
  intro t line u W _ hu _ hx
  match line with
  | none =>
    have W := W.recv_none hu hx
    refine Holds.andThen (flushFile_holds _ v.file W) fun _ t W => ?_
    refine holds_call sound writing_stable (fun _ h => h.inv) W (fun t W _ => W.finished) ?_
    exact fun t x u _ _ hu _ _ => Holds.done inv_stable hu
  | some line =>
    have W := W.recv_some hu hx
    refine holds_call sound writing_stable (fun _ h => h.inv) W (fun t W _ => W.active) ?_
    intro t time u W _ hu _ hx
    have W := W.now hu hx
    refine Holds.andThen (rotate_holds (Y.utcDate time) W) ?_
    rintro ⟨v', opened⟩ t ⟨rfl, hdate, W⟩
    refine Holds.andThen (appendLine_holds hdate W) fun file t W => ?_
    exact Holds.done writing_stable W

/-! ### The start of a writer -/

/-- The writer of a channel has done nothing. -/
structure Unbegun (Y : LogSystem κ) (k : Nat) (w : LogState κ) : Prop where
  inv : Y.Inv w
  received : received k w.history = []
  stamps : stamps k w.history = []
  unborn : ∀ c, w.state.writers[k]? = some c → Y.Unborn c w.state.disk

theorem unbegun_stable : (Y.contract (.writer k)).Stable (Y.Unbegun k) := by
  refine stable_of (fun _ h => h.inv) fun s t ht F U => ?_
  refine ⟨ht, (received_apart F.apart).trans U.received, (stamps_apart F.apart).trans U.stamps, fun c' hc' => ?_⟩
  cases hc : s.state.writers[k]? with
  | none => exact F.born k c' hc' rfl hc
  | some c =>
    obtain ⟨b, hb, hsource, -, hu⟩ := F.kept k c hc
    obtain rfl := Option.some.inj (hb.symm.trans hc')
    obtain ⟨hended, hnone⟩ := U.unborn c hc
    refine ⟨(hu rfl).ended.trans hended, fun date => ?_⟩
    rw [hsource, (F.files k c rfl hc date).1]
    exact hnone date

theorem writer_holds (hs : Y.Unbegun k w) :
    (Y.contract (.writer k)).Holds (Y.Turned k) (writer Y.json Y.storage Y.utcDate k).init w := by
  refine holds_call sound unbegun_stable (fun _ h => h.inv) hs (fun t W _ => rfl) ?_
  intro t source u U _ hu _ hx
  obtain ⟨hexec, hh⟩ := record_eq_some.mp hx
  obtain ⟨c, hc, hr⟩ := Option.map_eq_some_iff.mp hexec
  obtain ⟨rfl, hstate⟩ := Prod.mk.inj hr
  obtain ⟨hended, hnone⟩ := U.unborn c hc
  refine Holds.done writing_stable
    ⟨hu, ⟨c, by rw [← hstate]; exact hc, rfl, hended, False.elim⟩, ⟨[], [], ?_, ?_, rfl, fun date => ?_⟩, rfl⟩
  · rw [received, hh, noted_cons_none _ rfl]
    exact U.received
  · rw [stamps, hh, noted_cons_none _ rfl]
    exact U.stamps
  · rw [← hstate, Disk.content, hnone date]
    rfl

/-! ### The shutdown -/

/-- Of the channels only these can have a writer that has not ended. -/
structure Joining (Y : LogSystem κ) (rest : List Nat) (w : LogState κ) : Prop where
  inv : Y.Inv w
  drained : Drained w.history
  others : ∀ (k : Nat) (c : Channel), w.state.writers[k]? = some c → k ∈ rest ∨ c.ended = true

theorem joining_stable {rest : List Nat} : (Y.contract .shutdown).Stable (Y.Joining rest) := by
  refine stable_of (fun _ h => h.inv) fun s t ht F J => ⟨ht, Drained.mono F.apart.subset J.drained, fun k c' hc' => ?_⟩
  have hlt : k < s.state.writers.length := by
    rw [← F.complete J.drained]
    exact (List.getElem?_eq_some_iff.mp hc').1
  have hc := List.getElem?_eq_getElem hlt
  obtain ⟨b, hb, -, hended, -⟩ := F.kept k _ hc
  obtain rfl := Option.some.inj (hb.symm.trans hc')
  exact (J.others k _ hc).imp_right hended

theorem joinAll_holds (rest : List Nat) (hs : Y.Joining rest w) :
    (Y.contract .shutdown).Holds (fun _ => Y.Joining []) (joinAll rest) w := by
  induction rest generalizing w with
  | nil => exact Holds.done joining_stable hs
  | cons k rest ih =>
    refine holds_call sound joining_stable (fun _ h => h.inv) hs (fun _ _ _ => trivial) ?_
    intro t x u J _ hu C hx
    obtain ⟨hexec, hh⟩ := record_eq_some.mp hx
    simp only [World.exec] at hexec
    split at hexec
    · next c hc =>
      split at hexec
      · next hended =>
        have hstate := (result_eq hexec).2
        refine ih ⟨hu, ?_, fun k' c' hc' => ?_⟩
        · rw [hh]
          exact Drained.mono (List.subset_cons_self ..) J.drained
        · rw [← hstate] at hc'
          rcases J.others k' c' hc' with hm | he
          · rcases List.mem_cons.mp hm with rfl | hm
            · obtain rfl := Option.some.inj (hc.symm.trans hc')
              exact .inr hended
            · exact .inl hm
          · exact .inr he
      · cases hexec
    · cases hexec

/-- Before the shutdown. -/
structure Undrained (Y : LogSystem κ) (w : LogState κ) : Prop where
  inv : Y.Inv w
  drained : ¬ Drained w.history

theorem undrained_stable : (Y.contract .shutdown).Stable Y.Undrained := by
  refine stable_of (fun _ h => h.inv) fun s t ht F U => ⟨ht, ?_⟩
  rintro ⟨channels, hm⟩
  exact U.drained ⟨channels, (F.apart.mem rfl).mp hm⟩

/-- **The shutdown against any company.** -/
theorem shutdown_holds (hs : Y.Undrained w) :
    (Y.contract .shutdown).Holds (fun _ => Y.Joining []) Server.shutdown w := by
  unfold Server.shutdown
  refine holds_call sound undrained_stable (fun _ h => h.inv) hs (fun _ _ hp => hp) ?_
  intro t channels u U _ hu _ hx
  obtain ⟨hexec, hh⟩ := record_eq_some.mp hx
  obtain ⟨rfl, hstate⟩ := result_eq hexec
  refine joinAll_holds _ ⟨hu, ⟨_, by rw [hh]; exact List.mem_cons_self ..⟩, fun k c hc => .inl ?_⟩
  rw [← hstate] at hc
  obtain ⟨b, hb, -⟩ := Writers.get_drain hc
  obtain ⟨hlt, hget⟩ := List.getElem?_eq_some_iff.mp hb
  refine List.mem_findIdxs_iff_exists_getElem_pos.mpr ⟨hlt, ?_⟩
  rw [hget]
  exact U.inv.names.listed U.drained k b hb

end LogSystem

end Detritus.Server
