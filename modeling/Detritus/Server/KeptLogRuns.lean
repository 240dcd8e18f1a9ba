import Detritus.Server.KeptLogs

/-! Requests, writers and passes of the janitor, each against any company.

A writer that keeps its file open over a pass may find it removed, but then its day is
over, and the next record goes to another file. A pass that finds a file too old knows that
the day is over, and that it stays so until the file is removed. -/
namespace Detritus.Server
open Files Protocol Process Contract

namespace KeptLogs
variable {κ ι : Type} [DecidableEq κ] [DecidableEq ι] {Y : KeptLogs κ ι} {before : Disk} {i : LogParty κ ι}
  {w w' : State κ ι} {t : Time} {date : NaiveDate}

/-! ### Company -/

omit [DecidableEq κ] [DecidableEq ι] in
theorem Frame.refl (i : LogParty κ ι) (w : State κ ι) : Y.Frame i w w :=
  ⟨.refl, fun _ => rfl, fun _ _ _ _ => .inl⟩

omit [DecidableEq κ] [DecidableEq ι] in
theorem Over.apart {h h' : List (ServerEvent (LogParty κ ι))} (o : Y.Over date h) (a : Apart i h h') :
    Y.Over date h' := by
  obtain ⟨new, rfl, -⟩ := a
  exact o.mono new

omit [DecidableEq κ] [DecidableEq ι] in
theorem Frame.trans {s t u : State κ ι} (F : Y.Frame i s t) (G : Y.Frame i t u) : Y.Frame i s u := by
  refine ⟨F.apart.trans G.apart, fun hsame => ?_, fun source date n hv hn => ?_⟩
  · obtain ⟨new, hnew, -⟩ := F.apart
    obtain ⟨new', hnew', -⟩ := G.apart
    rw [hnew', hnew, ← List.append_assoc, List.append_left_eq_self, List.append_eq_nil_iff] at hsame
    obtain ⟨rfl, rfl⟩ := hsame
    rw [G.still hnew', F.still hnew]
  · rcases F.linked source date n hv hn with hn | ho
    · exact G.linked source date n hv hn
    · exact .inr (ho.apart G.apart)

variable (Y before) in
def sharing : Sharing (execAs Y.env) fun i op w => Y.punctual i op w = true where
  Inv := Y.Inv before
  frame := Y.Frame
  change i s t := Y.Filing before s t ∧ ∀ j, j ≠ i → Y.Frame j s t
  refl := .refl
  trans _ := .trans

variable (Y before) in
def contract (i : LogParty κ ι) : Contract serverInterface (State κ ι) := (Y.sharing before).contract i

theorem inv_stable : (Y.contract before i).Stable (Y.Inv before) := fun _ _ hr h => (hr h).1

theorem sound (C : Y.Calendar) : (Y.sharing before).Sound (Y.Legal before) := fun I hl hx =>
  have ⟨hI, hframe⟩ := I.call C hl hx
  ⟨hI, I.filing C hl hx, hframe⟩

/-! ### Requests -/

/-- Requests act for sources that were checked. -/
def checked (κ ι : Type) : Remit (LogParty κ ι) where
  acts _ source _ := source.Valid
  grows _ h := h
  index _ _ _ := True
  line _ _ _ := True
  encode _ := []

theorem exportLogs_holds (C : Y.Calendar) (j : κ) (hs : Y.Inv before w) :
    (Y.contract before (.handler j)).Holds (fun _ => Y.Inv before) (exportLogs Y.handler (Y.requests j)) w := by
  have hobeys : (messaging (checked κ ι)).Obeys (.handler j) (fun _ _ => True) (exportLogs Y.handler (Y.requests j))
      w.history :=
    exportLogs_messages fun token _ => ⟨fun _ hv _ _ => hv, fun _ _ _ _ _ _ _ => trivial⟩
  refine (Holds.of_obeys rfl inv_stable ?_ (fun _ _ _ _ _ _ => trivial) ?_ (fun _ _ _ _ _ => trivial) hobeys
    hs).mono fun _ _ h => h.1
  · exact fun s t h hr => (hr h).2.apart.subset
  · intro op s x t h hm _ hx
    have hlegal : Y.Legal before (.handler j) op s := by
      cases op with
      | file op => exact hm.elim
      | senderFor source => exact hm
      | _ => trivial
    exact ⟨fun I => sound C I hlegal hx, (h.call C hlegal hx).1⟩

/-! ### Writers -/

section Writers
variable {k : Nat} {v : WriterFile} {seen : Option Time}

/-- A writer at its loop. Its file is that of its date, unless the date is over; `seen` is the time it is at. -/
structure Tracking (Y : KeptLogs κ ι) (before : Disk) (k : Nat) (v : WriterFile) (seen : Option Time)
    (w : State κ ι) : Prop where
  inv : Y.Inv before w
  source : accepted k w.history = some v.source
  time : ∀ t, seen = some t → looked k w.history = some t
  file : ∀ g, v.file = some g → g.append = true ∧ ∃ date, v.date = some date ∧
    (w.state.disk.file (Y.storage.logFile v.source date) = some g.inode ∨ Y.Over date w.history)

omit [DecidableEq κ] [DecidableEq ι] in
theorem Tracking.valid (T : Y.Tracking before k v seen w) : v.source.Valid := T.inv.accepts k v.source T.source

omit [DecidableEq κ] [DecidableEq ι] in
theorem Tracking.forget (T : Y.Tracking before k v seen w) : Y.Tracking before k v none w :=
  ⟨T.inv, T.source, fun _ h => (by cases h), T.file⟩

omit [DecidableEq κ] [DecidableEq ι] in
/-- The file of a date stays, or the date is over. -/
theorem linked_or {source : SourceKey} {n : Nat} {s t : State κ ι} (hh : ∃ new, t.history = new ++ s.history)
    (hlinked : s.state.disk.file (Y.storage.logFile source date) = some n →
      t.state.disk.file (Y.storage.logFile source date) = some n ∨ Y.Over date t.history)
    (h : s.state.disk.file (Y.storage.logFile source date) = some n ∨ Y.Over date s.history) :
    t.state.disk.file (Y.storage.logFile source date) = some n ∨ Y.Over date t.history := by
  rcases h with hn | ho
  · exact hlinked hn
  · obtain ⟨new, hnew⟩ := hh
    rw [hnew]
    exact .inr (ho.mono new)

theorem tracking_stable : (Y.contract before (.writer k)).Stable (Y.Tracking before k v seen) := by
  refine stable_of (fun _ h => h.inv) fun s t ht F T => ⟨ht, ?_, fun time h => ?_, fun g hg => ?_⟩
  · exact (accepted_apart F.apart).trans T.source
  · exact (looked_apart F.apart).trans (T.time time h)
  · obtain ⟨happend, date, hdate, h⟩ := T.file g hg
    refine ⟨happend, date, hdate, linked_or ?_ (F.linked v.source date g.inode T.valid) h⟩
    obtain ⟨new, hnew, -⟩ := F.apart
    exact ⟨new, hnew⟩

omit [DecidableEq κ] [DecidableEq ι] in
/-- A call of its own that neither accepts a source nor reads the clock. -/
theorem Tracking.after (T : Y.Tracking before k v seen w) (hI : Y.Inv before w') (F : Y.Filing before w w')
    {e : ServerEvent (LogParty κ ι)} (hh : w'.history = e :: w.history) (hacc : accepts k e = none)
    (hlook : looks k e = none) : Y.Tracking before k v seen w' := by
  refine ⟨hI, ?_, fun time h => ?_, fun g hg => ?_⟩
  · rw [hh, accepted, List.findSome?_cons, hacc]
    exact T.source
  · rw [hh, looked, List.findSome?_cons, hlook]
    exact T.time time h
  · obtain ⟨happend, date, hdate, h⟩ := T.file g hg
    exact ⟨happend, date, hdate, linked_or ⟨[e], hh⟩ (F.linked v.source date g.inode T.valid) h⟩

theorem flushFile_holds (C : Y.Calendar) (message : String) (handle : Option Handle)
    (hs : Y.Tracking before k v seen w) :
    (Y.contract before (.writer k)).Holds (fun _ => Y.Tracking before k v seen) (flushFile message handle) w := by
  unfold flushFile
  cases handle with
  | none => exact Holds.done tracking_stable hs
  | some handle =>
    refine holds_call (sound C) tracking_stable (fun _ h => h.inv) hs (fun _ _ _ => rfl) ?_
    intro t x u T _ hu F hx
    have T := T.after hu F.1 (record_eq_some.mp hx).2 rfl rfl
    cases x with
    | ok _ => exact Holds.done tracking_stable T
    | error _ =>
      refine holds_call (sound C) tracking_stable (fun _ h => h.inv) T (fun _ _ _ => trivial) ?_
      exact fun t x u T _ hu F hx => Holds.done tracking_stable (T.after hu F.1 (record_eq_some.mp hx).2 rfl rfl)

omit [DecidableEq κ] [DecidableEq ι] in
/-- A writer that is punctual is at the day of the time that it saw. -/
theorem Tracking.today (T : Y.Tracking before k v (some t) w)
    (hp : ((looked k w.history).all fun t => Y.utcDate (Y.env.clock w.history.length) = Y.utcDate t) = true) :
    Y.utcDate (Y.env.clock w.history.length) = Y.utcDate t := by
  rw [T.time t rfl] at hp
  exact of_decide_eq_true hp

theorem openLogFile_yields (C : Y.Calendar) (hs : Y.Tracking before k v (some t) w) :
    (Y.contract before (.writer k)).Yields
      (fun handle => Y.Tracking before k {v with date := some (Y.utcDate t), file := some handle} (some t))
      (fun _ => Y.Tracking before k v (some t)) (openLogFile Y.storage v.source (Y.utcDate t)) w := by
  unfold openLogFile
  refine yields_try (sound C) (fun _ => tracking_stable) tracking_stable (fun _ h => h.inv) hs
    (fun s T _ => ⟨v.source, _, T.valid, rfl⟩) fun s x u T _ hu F hx => ?_
  have T := T.after hu F.1 (record_eq_some.mp hx).2 rfl rfl
  cases x with
  | error e => exact .inr ⟨e, rfl, T⟩
  | ok _ =>
  refine .inl ⟨_, rfl, ?_⟩
  rw [← bind_pure (file _ _)]
  refine yields_try (sound C) (fun _ => tracking_stable) tracking_stable (fun _ h => h.inv) T ?_ fun s x u T _ hu F hx => ?_
  · intro s T hp
    refine ⟨v.source, T.valid, ?_⟩
    rw [T.today hp]
  · obtain ⟨hexec, hh⟩ := record_eq_some.mp hx
    have T := T.after hu F.1 hh rfl rfl
    obtain ⟨hans, hstate⟩ := World.exec_file.mp hexec
    refine .inl ⟨_, hans, Yields.pure tracking_stable ⟨hu, T.source, T.time, fun g hg => ?_⟩⟩
    obtain rfl := Option.some.inj hg
    refine ⟨Disk.openAppend_self.2, _, rfl, .inl ?_⟩
    rw [hstate]
    exact Disk.openAppend_self.1

/-- A rotation that goes well is to the day of the line. -/
theorem rotate_holds (C : Y.Calendar) (hs : Y.Tracking before k v (some t) w) :
    (Y.contract before (.writer k)).Holds
      (fun r s => (r.2 = true → r.1.date = some (Y.utcDate t)) ∧ Y.Tracking before k r.1 (some t) s)
      (rotate Y.storage v (Y.utcDate t)) w := by
  have hstable : ∀ r : WriterFile × Bool, (Y.contract before (.writer k)).Stable
      fun s => (r.2 = true → r.1.date = some (Y.utcDate t)) ∧ Y.Tracking before k r.1 (some t) s :=
    fun r s u hr h => ⟨h.1, tracking_stable s u hr h.2⟩
  unfold rotate
  split
  · next hdate => exact Holds.done (hstable _) ⟨fun _ => hdate, hs⟩
  · refine Holds.andThen (flushFile_holds C _ v.file hs) fun _ s T => ?_
    refine Holds.andThen (openLogFile_yields C T) fun r s T => ?_
    cases r with
    | ok handle => exact Holds.done (hstable _) ⟨fun _ => rfl, T⟩
    | error e =>
      refine holds_call (sound C) tracking_stable (fun _ h => h.inv) T (fun _ _ _ => trivial) fun s x u T _ hu F hx => ?_
      have T := T.after hu F.1 (record_eq_some.mp hx).2 rfl rfl
      exact Holds.done (hstable _) ⟨fun h => (by cases h), T.inv, T.source, T.time, fun _ h => (by cases h)⟩

theorem appendLine_holds (C : Y.Calendar) {line : Json} (hdate : v.date = some (Y.utcDate t))
    (hs : Y.Tracking before k v (some t) w) :
    (Y.contract before (.writer k)).Holds (fun r => Y.Tracking before k {v with file := r} none)
      (appendLine Y.json line v.file) w := by
  unfold appendLine
  cases hfile : v.file with
  | none =>
    exact Holds.done tracking_stable ⟨hs.inv, hs.source, fun _ h => (by cases h), fun _ h => (by cases h)⟩
  | some g =>
    refine holds_call (sound C) tracking_stable (fun _ h => h.inv) hs ?_ fun s x u T _ hu F hx => ?_
    · intro s T hp
      obtain ⟨happend, date, hd, h⟩ := T.file g hfile
      obtain rfl := Option.some.inj (hdate.symm.trans hd)
      have htoday := T.today hp
      refine ⟨k, v.source, rfl, T.source, happend, ?_⟩
      rw [htoday]
      exact h.resolve_right fun ho => ho.date_ne C (Nat.le_refl _) htoday
    · obtain ⟨hexec, hh⟩ := record_eq_some.mp hx
      have T := T.after hu F.1 hh rfl rfl
      obtain ⟨happend, hopen⟩ := T.file g hfile
      obtain ⟨hans, -⟩ := World.exec_file.mp hexec
      obtain rfl : x = .ok (s.state.disk.write g (Y.json.write line ++ [0x0a]) (Y.env.clock s.history.length)).1 := hans
      refine Holds.done tracking_stable ⟨hu, T.source, fun _ h => (by cases h), fun g' hg => ?_⟩
      obtain rfl := Option.some.inj hg
      exact ⟨happend, hopen⟩

/-- Where a turn of the loop ends. -/
def Turned (Y : KeptLogs κ ι) (before : Disk) (k : Nat) : WriterFile ⊕ Unit → State κ ι → Prop
  | .inl v => Y.Tracking before k v none
  | .inr () => Y.Inv before

/-- **A turn of a writer among requests and passes.** -/
theorem writerLoop_holds (C : Y.Calendar) (hs : Y.Tracking before k v none w) :
    (Y.contract before (.writer k)).Holds (Y.Turned before k) (writerLoop Y.json Y.storage Y.utcDate k v) w := by
  unfold writerLoop
  refine holds_call (sound C) tracking_stable (fun _ h => h.inv) hs (fun _ _ _ => trivial) fun s line u T _ hu F hx => ?_
  have T := T.after hu F.1 (record_eq_some.mp hx).2 rfl rfl
  cases line with
  | none =>
    refine Holds.andThen (flushFile_holds C _ v.file T) fun _ s T => ?_
    refine holds_call (sound C) tracking_stable (fun _ h => h.inv) T (fun _ _ _ => trivial) fun s x u _ _ hu _ _ => ?_
    exact Holds.done inv_stable hu
  | some line =>
    refine holds_call (sound C) tracking_stable (fun _ h => h.inv) T (fun _ _ _ => trivial) fun s time u T _ hu F hx => ?_
    obtain ⟨hexec, hh⟩ := record_eq_some.mp hx
    have T : Y.Tracking before k v (some time) u := by
      refine ⟨hu, ?_, fun t ht => ?_, fun g hg => ?_⟩
      · rw [hh]
        exact T.source
      · rw [hh, looked, List.findSome?_cons]
        simp [looks, ← Option.some.inj ht]
      · obtain ⟨happend, date, hdate, h⟩ := T.file g hg
        exact ⟨happend, date, hdate, linked_or ⟨[_], hh⟩ (F.1.linked v.source date g.inode T.valid) h⟩
    refine Holds.andThen (rotate_holds C T) fun r s hr => ?_
    obtain ⟨v', opened⟩ := r
    obtain ⟨hdate, T⟩ := hr
    cases opened with
    | false => exact Holds.done tracking_stable T.forget
    | true =>
      refine Holds.andThen (appendLine_holds C (hdate rfl) T) fun file s T => ?_
      exact Holds.done tracking_stable T

theorem writer_holds (C : Y.Calendar) (hs : Y.Inv before w) :
    (Y.contract before (.writer k)).Holds (Y.Turned before k) (writer Y.json Y.storage Y.utcDate k).init w := by
  refine holds_call (sound C) inv_stable (fun _ h => h) hs (fun _ _ _ => trivial) fun s source u _ _ hu _ hx => ?_
  refine Holds.done tracking_stable ⟨hu, ?_, fun _ h => (by cases h), fun _ h => (by cases h)⟩
  rw [(record_eq_some.mp hx).2, accepted, List.findSome?_cons]
  simp [accepts]

end Writers

/-! ### Passes -/

section Passes
variable {i : ι} {path : Path} {m : Metadata}

/-- What a pass has read of a file is so, until another call is made. -/
structure Seen (Y : KeptLogs κ ι) (before : Disk) (i : ι) (path : Path) (m : Metadata) (w : State κ ι) : Prop where
  inv : Y.Inv before w
  latest : ∀ e rest, w.history = e :: rest → e.task = .pass i → ∀ source date, source.Valid →
    path = Y.storage.logFile source date → Y.Doomed before source date w.history ∨
      Y.utcDate m.modified = date ∧ ∀ t, Y.Touched before source date w.history t → t ≤ m.modified

/-- The file may go, if it is a log file. -/
structure Going (Y : KeptLogs κ ι) (before : Disk) (path : Path) (w : State κ ι) : Prop where
  inv : Y.Inv before w
  doomed : ∀ source date, source.Valid → path = Y.storage.logFile source date → Y.Doomed before source date w.history

theorem seen_stable : (Y.contract before (.pass i)).Stable (Y.Seen before i path m) := by
  refine stable_of (fun _ h => h.inv) fun s t ht F S => ⟨ht, fun e rest hh hi => ?_⟩
  obtain ⟨new, hnew, hothers⟩ := F.apart
  cases new with
  | nil =>
    rw [F.still hnew]
    exact S.latest e rest (hnew.symm.trans hh) hi
  | cons e' new =>
    rw [hnew] at hh
    obtain ⟨rfl, -⟩ := List.cons.inj hh
    exact absurd hi (hothers _ (.head _))

omit [DecidableEq κ] [DecidableEq ι] in
theorem Going.later (C : Y.Calendar) (G : Y.Going before path w) (hI : Y.Inv before w')
    (hh : ∃ new, w'.history = new ++ w.history) : Y.Going before path w' := by
  obtain ⟨new, hnew⟩ := hh
  refine ⟨hI, fun source date hv hp => ?_⟩
  rw [hnew]
  exact (G.doomed source date hv hp).mono C new

theorem going_stable (C : Y.Calendar) : (Y.contract before (.pass i)).Stable (Y.Going before path) := by
  refine stable_of (fun _ h => h.inv) fun s t ht F G => G.later C ht ?_
  obtain ⟨new, hnew, -⟩ := F.apart
  exact ⟨new, hnew⟩

omit [DecidableEq κ] [DecidableEq ι] in
/-- The time that is read of a log file is that of its last record, on its day. -/
theorem Seen.read (H : Y.Inv before w) (hm : w.state.disk.metadata path = .ok m) (hI : Y.Inv before w')
    {e : ServerEvent (LogParty κ ι)} (hh : w'.history = e :: w.history) (he : appendOf Y.env.clock w.history e = none)
    (C : Y.Calendar) : Y.Seen before i path m w' := by
  refine ⟨hI, fun _ _ _ _ source date hv hp => ?_⟩
  subst hp
  rw [hh, touched_same (filed_cons_none he)]
  refine (H.live source date hv).symm.imp (fun hdoomed => hdoomed.mono C [e]) fun hwhole => ?_
  unfold Disk.metadata at hm
  cases hn : w.state.disk.file (Y.storage.logFile source date) with
  | none =>
    rw [hn, H.tidy.free source date hv] at hm
    cases hm
  | some n =>
    rw [hn] at hm
    obtain rfl := Except.ok.inj hm
    refine ⟨(H.tidy.dated source date n hv hn).1, fun t ht => ?_⟩
    obtain ⟨n', hn', hle⟩ := hwhole.modified t ht
    obtain rfl := Option.some.inj (hn.symm.trans hn')
    exact hle

theorem punctual_now {w : State κ ι} (hp : Y.punctual (.pass i) .now w = true) :
    ∃ e rest, w.history = e :: rest ∧ e.task = .pass i := by
  simp only [punctual, Option.any_eq_true] at hp
  obtain ⟨e, he, hp⟩ := hp
  obtain ⟨rest, hh⟩ := List.head?_eq_some_iff.mp he
  rw [Bool.and_eq_true, decide_eq_true_eq] at hp
  exact ⟨e, rest, hh, hp.1⟩

/-- **A file that is found too old may go.** -/
theorem isOlderThan_yields (C : Y.Calendar) (path : Path) (hs : Y.Inv before w) :
    (Y.contract before (.pass i)).Yields (fun old s => Y.Inv before s ∧ (old = true → Y.Going before path s))
      (fun _ => Y.Inv before) (isOlderThan path Y.ttlDays) w := by
  have hstable : ∀ old : Bool, (Y.contract before (.pass i)).Stable
      fun s => Y.Inv before s ∧ (old = true → Y.Going before path s) :=
    fun old s t hr h => ⟨inv_stable s t hr h.1, fun ho => going_stable C s t hr (h.2 ho)⟩
  unfold isOlderThan
  refine yields_try (sound C) (fun _ => inv_stable) inv_stable (fun _ h => h) hs (fun _ _ _ => rfl)
    fun s x u H _ hu _ hx => ?_
  obtain ⟨hexec, hh⟩ := record_eq_some.mp hx
  cases x with
  | error e => exact .inr ⟨e, rfl, hu⟩
  | ok m =>
  refine .inl ⟨m, rfl, ?_⟩
  have S : Y.Seen before i path m u :=
    Seen.read H (World.exec_file.mp hexec).1.symm hu hh (appendOf_none (by simp) _) C
  rw [if_neg C.positive]
  refine yields_call (sound C) (fun _ => inv_stable) seen_stable (fun _ h => h.inv) S (fun _ _ _ => trivial) ?_
  intro s now u S hp hu _ hx
  obtain ⟨hexec, hh⟩ := record_eq_some.mp hx
  have hnow : Y.env.clock s.history.length = now := (result_eq hexec).1
  cases hc : cutoff now Y.ttlDays with
  | none =>
    refine yields_call (sound C) (fun _ => inv_stable) inv_stable (fun _ h => h) hu (fun _ _ _ => trivial) ?_
    exact fun _ gone => gone.elim
  | some moment =>
    refine Yields.pure (hstable _) ⟨hu, fun hold => ⟨hu, fun source date hv hpath => ?_⟩⟩
    have hexpired := (cutoff_expired C.positive C.fits hc m.modified).mp (of_decide_eq_true hold)
    have hpast : m.modified + Y.span ≤ Y.env.clock s.history.length := hnow ▸ hexpired.resolve_left C.positive
    obtain ⟨e, rest, hlatest, htask⟩ := punctual_now hp
    have hnone : appendOf Y.env.clock s.history ⟨.pass i, .now, now⟩ = none := rfl
    rw [hh]
    rcases S.latest e rest hlatest htask source date hv hpath with hdoomed | ⟨hdate, htouched⟩
    · exact hdoomed.mono C [_]
    · refine ⟨m.modified, s.history.length, Nat.lt_succ_self _, hdate, hpast, ?_⟩
      rw [touched_same (filed_cons_none hnone)]
      exact htouched

theorem fileLen_yields (C : Y.Calendar) (hs : Y.Going before path w) :
    (Y.contract before (.pass i)).Yields (fun _ => Y.Going before path) (fun _ => Y.Inv before) (fileLen path) w := by
  unfold fileLen attempt
  refine yields_call (sound C) (fun _ => inv_stable) (going_stable C) (fun _ h => h.inv) hs (fun _ _ _ => rfl) ?_
  intro s x u G _ hu _ hx
  exact Yields.pure (going_stable C) (G.later C hu ⟨[_], (record_eq_some.mp hx).2⟩)

/-- The pruning keeps the logs of the days that are not over. -/
theorem pruneLogFiles_yields (C : Y.Calendar) (paths : List Path) (stats : JanitorStats) (hs : Y.Inv before w) :
    (Y.contract before (.pass i)).Yields (fun _ => Y.Inv before) (fun _ => Y.Inv before)
      (pruneLogFiles Y.ttlDays paths stats) w := by
  have hE : ∀ _ : JanitorError, (Y.contract before (.pass i)).Stable (Y.Inv before) := fun _ => inv_stable
  induction paths generalizing stats w with
  | nil => exact Yields.pure inv_stable hs
  | cons path rest ih =>
    unfold pruneLogFiles
    split
    · exact ih stats hs
    · refine Yields.andThen hE (isOlderThan_yields C path hs) fun old s h => ?_
      cases old with
      | false => exact ih stats h.1
      | true =>
        refine Yields.andThen hE (fileLen_yields C (h.2 rfl)) fun len s G => ?_
        refine yields_try (sound C) hE (going_stable C) (fun _ h => h.inv) G (fun s G _ => G.doomed) ?_
        intro s x u G _ hu _ hx
        cases x with
        | ok _ => exact .inl ⟨(), rfl, ih _ hu⟩
        | error e => exact .inr ⟨e, rfl, hu⟩

theorem pruneLogs_yields (C : Y.Calendar) (stats : JanitorStats) (hs : Y.Inv before w) :
    (Y.contract before (.pass i)).Yields (fun _ => Y.Inv before) (fun _ => Y.Inv before)
      (pruneLogs Y.fuel Y.storage Y.ttlDays stats) w := by
  have hE : ∀ _ : JanitorError, (Y.contract before (.pass i)).Stable (Y.Inv before) := fun _ => inv_stable
  -- whatever a walk finds, it changes nothing
  have hwalk : (Y.contract before (.pass i)).Yields (fun _ => Y.Inv before) (fun _ => Y.Inv before)
      (collectFiles Y.fuel Y.storage.logsDir) w := by
    refine collectFiles_rule (W := fun _ _ => Y.Inv before) hE (fun _ _ => inv_stable) inv_stable ?_ ?_ hs
    · intro t x u ht _ hx
      have hlegal : Y.Legal before (.pass i) (.file (.tryExists Y.storage.logsDir)) t := rfl
      refine ⟨fun I => sound C I hlegal hx, ?_⟩
      cases x <;> exact (sound C ht hlegal hx).1
    · intro dir _ _ t x u ht _ hx
      have hlegal : Y.Legal before (.pass i) (.file (.readDir dir)) t := rfl
      refine ⟨fun I => sound C I hlegal hx, ?_⟩
      cases x <;> exact (sound C ht hlegal hx).1
  unfold pruneLogs
  exact Yields.andThen hE hwalk fun files _ h => pruneLogFiles_yields C files stats h

end Passes

/-! ### All together -/

variable (Y before) in
def specification : Y.pool.Specification fun i op w => Y.punctual i op w = true where
  rely i := (Y.contract before i).rely
  guarantee i := (Y.contract before i).guarantee
  refl i := (Y.contract before i).refl
  trans i := (Y.contract before i).trans
  head i v := match i with
    | .handler _ => Empty.elim v
    | .writer k => Y.Tracking before k v none
    | .pass _ => Empty.elim v
  result _ _ := Y.Inv before
  within i j hij s t hg hs := (hg hs).imp_right fun F => F.2 j (Ne.symm hij)
  stops i s t hs := by
    obtain rfl := Option.some.inj hs
    exact fun h => ⟨h, ⟨h.tidy, h.live, fun _ _ _ _ hn => .inl hn⟩, fun j _ => .refl j s⟩

theorem specification_turns (C : Y.Calendar) : (Y.specification before).Turns := by
  intro i v s hs
  cases i with
  | handler j => exact Empty.elim v
  | pass i => exact Empty.elim v
  | writer k =>
    refine Holds.mono (writerLoop_holds C hs) fun r t h => ?_
    cases r with
    | inl v => exact h
    | inr _ => exact h

theorem start_at (C : Y.Calendar) {world : World} (hI : Y.Inv before ⟨world, []⟩) :
    (Y.specification before).At (Y.start world) := by
  intro i p hp
  obtain rfl := Option.some.inj hp
  cases i with
  | handler j =>
    refine Holds.andThen (exportLogs_holds C j hI) fun r t h => ?_
    exact Holds.done inv_stable h
  | writer k =>
    refine Holds.mono (writer_holds C hI) fun r t h => ?_
    cases r with
    | inl v => exact h
    | inr _ => exact h
  | pass i =>
    refine Holds.andThen (pruneLogs_yields C _ hI) fun r t h => ?_
    refine Holds.done inv_stable ?_
    cases r with
    | ok _ => exact h
    | error _ => exact h

omit [DecidableEq κ] [DecidableEq ι] in
theorem inv_start {world : World} (hv : ∀ c ∈ world.writers, c.source.Valid)
    (hd : Y.Tidy world.disk (Y.env.clock 0)) : Y.Inv world.disk ⟨world, []⟩ := by
  refine ⟨hd, hv, fun k source h => (by cases h), fun a ha => (by cases ha),
    fun source date _ => .inl ⟨?_, fun t ht => ?_⟩⟩
  · exact (List.append_nil _).symm
  · rcases ht with ⟨n, hn, rfl⟩ | ⟨a, ha, -⟩
    · exact ⟨n, hn, Nat.le_refl _⟩
    · cases ha

/-- The file of a day holds what it held at the start, and every record of the day since. -/
def Complete (Y : KeptLogs κ ι) (before : Disk) (source : SourceKey) (date : NaiveDate) (w : State κ ι) : Prop :=
  w.state.disk.content (Y.storage.logFile source date) =
    some ((before.content (Y.storage.logFile source date)).getD [] ++
      (Y.filed source date w.history).flatMap Appended.bytes)

omit [DecidableEq κ] [DecidableEq ι] in
/-- A file that was written less than a retention ago is there. -/
theorem Inv.complete (C : Y.Calendar) (H : Y.Inv before w) {source : SourceKey} (hv : source.Valid)
    (ht : Y.Touched before source date w.history t) (hlive : Y.env.clock (w.history.length - 1) < t + Y.span) :
    Y.Complete before source date w := by
  rcases H.live source date hv with hwhole | ⟨m, n, hn, -, hpast, hall⟩
  · obtain ⟨n, hn, -⟩ := hwhole.modified t ht
    have hcontent := hwhole.content
    rw [Complete, ← hcontent, Disk.content, hn]
    rfl
  · have hlast : Y.env.clock n ≤ Y.env.clock (w.history.length - 1) := C.clock _ _ (by omega)
    have hearly : t + Y.span ≤ m + Y.span := Nat.add_le_add_right (hall t ht) _
    exact absurd (hlive.trans_le (hearly.trans (hpast.trans hlast))) (Nat.lt_irrefl _)

/-- **Retention leaves the records of a retention alone.** Requests, writers and passes run in any order, each stopped
anywhere; a record is appended on the day on which the writer looked at the clock, and a pass looks at a file's time and
the clock in one step. Then each record that was appended less than a retention ago is in the file of its day, and so is
what a file held at the start, a retention from when it was last written. What is left is fit for another start. -/
theorem live_records_readable (C : Y.Calendar) {world : World} (hv : ∀ c ∈ world.writers, c.source.Valid)
    (hd : Y.Tidy world.disk (Y.env.clock 0)) {c : Config Y.pool}
    (hr : (Y.start world).Reach (fun i op w => Y.punctual i op w = true) c) :
    (∀ a ∈ appends Y.env.clock c.world.history, Y.env.clock (c.world.history.length - 1) < a.time + Y.span →
      Y.Complete world.disk a.source (Y.utcDate a.time) c.world) ∧
    (∀ source date n, source.Valid → world.disk.file (Y.storage.logFile source date) = some n →
      Y.env.clock (c.world.history.length - 1) < (world.disk.inode n).modified + Y.span →
      Y.Complete world.disk source date c.world) ∧
    Y.Tidy c.world.state.disk (Y.env.clock c.world.history.length) ∧
    ∀ channel ∈ c.world.state.writers, channel.source.Valid := by
  have hI : Y.Inv world.disk c.world := by
    have h0 := inv_start hv hd
    refine (Y.specification world.disk).reach_invariant (specification_turns C) _ ?_ hr (start_at C h0) h0
    exact fun i s t hs hg => (hg hs).1
  refine ⟨fun a ha hlive => ?_, fun source date n hs hn hlive => ?_, hI.tidy, hI.valid⟩
  · have hfiled : a ∈ Y.filed a.source (Y.utcDate a.time) c.world.history :=
      List.mem_filter.mpr ⟨ha, decide_eq_true ⟨rfl, rfl⟩⟩
    exact hI.complete C (hI.sources a ha) (.inr ⟨a, hfiled, rfl⟩) hlive
  · exact hI.complete C hs (.inl ⟨n, hn, rfl⟩) hlive

/-! A record of today, and a file of two days ago that a pass removes meanwhile. -/

/-- A calendar of days without months. -/
def dayNumber (t : Time) : NaiveDate := {NaiveDate.newYear with year := (t / (86400 * 1000000000) : Nat)}

theorem lt_of_same_day (s t : Nat) (h : s / (86400 * 1000000000) = t / (86400 * 1000000000)) :
    t < s + 86400 * 1000000000 := by
  omega

def sampleSource : SourceKey := ⟨"app", "a"⟩

def keptSample : KeptLogs Empty Unit where
  json := ⟨fun _ => [7], fun _ => [], fun _ => none, fun _ => .error ⟨""⟩⟩
  storage := ⟨["data"]⟩
  utcDate := dayNumber
  env := {stillEnv with clock := fun n => 2 * 86400 * 1000000000 + n}
  handler := ⟨.default, .empty⟩
  requests j := j.elim
  ttlDays := 1
  fuel := 8

/-- The file of the first day, and a line for the writer. -/
def keptStart : World where
  disk :=
    let log := keptSample.storage.logFile sampleSource (dayNumber 0)
    (Disk.empty.createDirAll log.parent 0).fresh log 0
  buckets _ := none
  writers := [⟨sampleSource, [.null], 1, true, false⟩]

theorem keptSample_calendar : keptSample.Calendar where
  clock m n h := Nat.add_le_add_left h _
  day s t _ h := by
    exact lt_of_same_day s t (Int.ofNat.inj (congrArg NaiveDate.year h))
  positive := by decide
  fits := by decide

theorem sampleSource_valid : sampleSource.Valid where
  project := ⟨by decide, by decide, by decide⟩
  sourceId := ⟨by decide, by decide, by decide⟩
  project_up := by decide
  sourceId_up := by decide

theorem keptStart_tidy : keptSample.Tidy keptStart.disk (keptSample.env.clock 0) where
  numbered := Disk.Numbered.fresh fun _ _ h => by cases h
  single source date q n _ hp hq := by
    rcases Disk.fresh_some hp with ⟨hp, -⟩ | ⟨-, h⟩
    · rcases Disk.fresh_some hq with ⟨hq, -⟩ | ⟨-, h⟩
      · exact hq.trans hp.symm
      · cases h
    · cases h
  dated source date n hv hp := by
    rcases Disk.fresh_some hp with ⟨hpath, rfl⟩ | ⟨-, h⟩
    · rw [(keptSample.storage.logFile_injective hv sampleSource_valid hpath).2]
      exact ⟨rfl, Nat.zero_le _⟩
    · cases h
  free source date hv := by
    refine Option.not_isSome_iff_eq_none.mp fun h => ?_
    rw [keptStart, Disk.fresh_dir, Disk.createDirAll_dir] at h
    exact logFile_not_parent keptSample.storage hv sampleSource_valid date (dayNumber 0)
      (h.resolve_right Bool.false_ne_true)

/-- The line is appended after the pass has listed the files. -/
def keptMoves : List (Move (LogParty Empty Unit)) :=
  List.replicate 6 (.run (.writer 0)) ++ List.replicate 4 (.run (.pass ())) ++ [.run (.writer 0)] ++
    List.replicate 6 (.run (.pass ()))

def keptCheck (c : Config keptSample.pool) : Bool :=
  (c.result (.pass ())).isSome &&
    (c.world.state.disk.file (keptSample.storage.logFile sampleSource (dayNumber 0))).isNone &&
    (appends keptSample.env.clock c.world.history).any fun a =>
      keptSample.env.clock (c.world.history.length - 1) < a.time + keptSample.span &&
        a.bytes = [7, 0x0a]

theorem keptSample_runs : ((keptSample.start keptStart).runs keptSample.punctual keptMoves).any keptCheck = true := by
  decide +kernel

theorem live_records_readable_today : ∃ c,
    (keptSample.start keptStart).Reach (fun i op w => keptSample.punctual i op w = true) c ∧
    c.world.state.disk.file (keptSample.storage.logFile sampleSource (dayNumber 0)) = none ∧
    ∃ a ∈ appends keptSample.env.clock c.world.history, a.bytes = [7, 0x0a] ∧
      keptSample.Complete keptStart.disk a.source (dayNumber a.time) c.world := by
  obtain ⟨c, hr, hc⟩ := Config.runs_any (fun _ _ _ h => h) keptMoves keptCheck keptSample_runs
  simp only [keptCheck, Bool.and_eq_true, Option.isNone_iff_eq_none, List.any_eq_true, decide_eq_true_eq] at hc
  obtain ⟨⟨-, hgone⟩, a, ha, hlive, hbytes⟩ := hc
  have hv : ∀ channel ∈ keptStart.writers, channel.source.Valid := by
    intro channel hc
    rw [List.mem_singleton.mp hc]
    exact sampleSource_valid
  exact ⟨c, hr, hgone, a, ha, hbytes,
    (live_records_readable keptSample_calendar hv keptStart_tidy hr).1 a ha hlive⟩

end KeptLogs

end Detritus.Server
