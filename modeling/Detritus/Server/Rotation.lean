import Detritus.Server.WriterFaults

/-! A log writer from one day to another.

The writer remembers the day of the file that it opened last, and keeps remembering it
when the next file cannot be opened and it has none. A line of the remembered day, should
the clock have gone back to it, is then taken for one whose file is open. -/
namespace Detritus.Server
open Files Protocol Process Contract

variable {ι : Type} {json : SerdeJson} {storage : StoragePaths} {utcDate : Time → NaiveDate} {faults : Faults} {env : Env}
  {i : ι} {source : SourceKey} {u u' : ServerState ι} {v : WriterFile} {line : Json} {t : Time}

/-- Writes succeed, and after a failed attempt to open a file no line comes that belongs in the one that was opened
last. -/
def Dated (storage : StoragePaths) (utcDate : Time → NaiveDate) (source : SourceKey) (faults : Faults) (env : Env)
    (op : ServerOp) (w : ServerState ι) : Prop :=
  match op with
  | .now => openFailed w.history = true →
      lastOpened w.history ≠ some (storage.logFile source (utcDate (env.clock w.history.length)))
  | .file (.write _ _) => faults w.history.length = none
  | _ => True

/-- A report was made in between, or the line that came is at the end of the file of its day. -/
def Noticed (json : SerdeJson) (storage : StoragePaths) (utcDate : Time → NaiveDate) (source : SourceKey)
    (u u' : ServerState ι) : Prop :=
  (∃ new, u'.history = new ++ u.history ∧ ∃ e ∈ new, isReport e = true) ∨
    ∃ line t, lastLine u'.history = some line ∧ lastTime u'.history = some t ∧
      u'.state.disk.content (storage.logFile source (utcDate t)) =
        some ((u.state.disk.content (storage.logFile source (utcDate t))).getD [] ++ (json.write line ++ [0x0a]))

/-- What the writer remembers is what it has opened. -/
structure Tracking (storage : StoragePaths) (faults : Faults) (source : SourceKey) (v : WriterFile)
    (u : ServerState ι) : Prop where
  numbered : u.state.disk.Numbered
  source_eq : v.source = source
  handle : ∀ g, v.file = some g → g.append = true ∧ ∃ date, v.date = some date ∧
    u.state.disk.file (storage.logFile source date) = some g.inode
  unowed : ∀ g, v.file = some g → owed faults g.inode u.history = none
  dated : ∀ date, v.date = some date → lastOpened u.history = some (storage.logFile source date)
  failed : v.file = none → v.date ≠ none → openFailed u.history = true

theorem Tracking.same (T : Tracking storage faults source v u) (hfiles : u.state.disk.SameFiles u'.state.disk)
    (howed : ∀ n, owed faults n u.history = none → owed faults n u'.history = none)
    (hopened : lastOpened u'.history = lastOpened u.history) (hfailed : openFailed u'.history = openFailed u.history) :
    Tracking storage faults source v u' where
  numbered := numbered_of_same T.numbered hfiles
  source_eq := T.source_eq
  handle g hg := by
    rw [hfiles.file]
    exact T.handle g hg
  unowed g hg := howed _ (T.unowed g hg)
  dated date hdate := by rw [hopened, T.dated date hdate]
  failed hfile hdate := by rw [hfailed, T.failed hfile hdate]

/-- The writer has a line, and files hold what they held at the head of the loop. -/
structure Taken (storage : StoragePaths) (faults : Faults) (source : SourceKey) (line : Json) (t : Time)
    (u₀ : ServerState ι) (v : WriterFile) (u : ServerState ι) : Prop extends Tracking storage faults source v u where
  lastLine_eq : lastLine u.history = some line
  lastTime_eq : lastTime u.history = some t
  content : ∀ p, (u.state.disk.content p).getD [] = (u₀.state.disk.content p).getD []
  grown : u₀.history <:+ u.history

variable {u₀ : ServerState ι}

theorem Taken.idled (T : Taken storage faults source line t u₀ v u) (hfiles : u.state.disk.SameFiles u'.state.disk)
    (hidle : Idled u.history u'.history) : Taken storage faults source line t u₀ v u' where
  toTracking := T.toTracking.same hfiles (fun _ => hidle.owed_none) hidle.lastOpened hidle.openFailed
  lastLine_eq := by rw [hidle.lastLine, T.lastLine_eq]
  lastTime_eq := by rw [hidle.lastTime, T.lastTime_eq]
  content p := by rw [hfiles.content, T.content]
  grown := T.grown.trans hidle.suffix

/-- An attempt that failed says nothing else. -/
theorem of_openingOf {x : ServerEvent ι} (h : openingOf x = some false) :
    openedOf x = none ∧ lineOf x = none ∧ timeOf x = none := by
  unfold openingOf at h
  split at h <;> first | exact ⟨rfl, rfl, rfl⟩ | cases h

/-- Where the rotation ends: with a file for the day, or with a report. -/
def Rotated (storage : StoragePaths) (faults : Faults) (source : SourceKey) (line : Json) (t : Time)
    (today : NaiveDate) (u₀ : ServerState ι) (r : WriterFile × Bool) (u : ServerState ι) : Prop :=
  (r.2 = true ∧ r.1.date = some today ∧ r.1.file ≠ none ∧ Taken storage faults source line t u₀ r.1 u) ∨
    (r.2 = false ∧ Tracking storage faults source r.1 u ∧
      ∃ new, u.history = new ++ u₀.history ∧ ∃ e ∈ new, isReport e = true)

theorem rotate_rotated {allows : ServerOp → ServerState ι → Prop} {today : NaiveDate}
    (T : Taken storage faults source line t u₀ v u) (hfile : v.date = some today → v.file ≠ none) :
    (Contract.solo (execFaultyAs faults env i) allows).Holds (Rotated storage faults source line t today u₀)
      (rotate storage v today) u := by
  unfold rotate
  by_cases hdate : v.date = some today
  · rw [if_pos hdate]
    exact Holds.solo_done (.inl ⟨rfl, hdate, hfile hdate, T⟩)
  rw [if_neg hdate]
  refine Holds.bind (flushFile_solo fun u₁ hu₁ hidle₁ => ?_)
  have T₁ : Taken storage faults source line t u₀ v u₁ := T.idled (by rw [hu₁]; exact ⟨rfl, rfl, rfl⟩) hidle₁
  refine Holds.andThen (openLogFile_solo
    (Q := fun g u' => Taken storage faults source line t u₀ {v with date := some today, file := some g} u')
    (E := fun _ u' => Tracking storage faults source {v with file := none} u' ∧ u₀.history <:+ u'.history) ?_ ?_) ?_
  · rintro d now g u₂ hsame hopen ⟨h, hidle, hh⟩
    have hg : g = (d.openAppend (storage.logFile v.source today) now).1 := congrArg Prod.fst hopen
    have hdisk : u₂.state.disk = (d.openAppend (storage.logFile v.source today) now).2 := congrArg Prod.snd hopen
    have hnumbered : d.Numbered := numbered_of_same T₁.numbered hsame
    refine ⟨⟨?_, T.source_eq, ?_, ?_, ?_, fun h => by cases h⟩, ?_, ?_, fun p => ?_, ?_⟩
    · rw [hdisk]
      exact hnumbered.openAppend
    · intro g' hg'
      obtain rfl := Option.some.inj hg'
      rw [hg, hdisk, ← T.source_eq]
      exact ⟨Disk.openAppend_self.2, today, rfl, Disk.openAppend_self.1⟩
    · -- whatever was written through another handle, this one owes nothing
      intro g' hg'
      obtain rfl := Option.some.inj hg'
      rw [hh, owed, if_pos rfl]
    · intro date hdate'
      obtain rfl := Option.some.inj hdate'
      rw [hh, lastOpened, List.findSome?_cons, T.source_eq]
      rfl
    · rw [hh, lastLine, List.findSome?_cons]
      exact hidle.lastLine.trans T₁.lastLine_eq
    · rw [hh, lastTime, List.findSome?_cons]
      exact hidle.lastTime.trans T₁.lastTime_eq
    · rw [hdisk, (Disk.openAppend_content hnumbered p).1, hsame.content, T₁.content]
    · rw [hh]
      exact (T₁.grown.trans hidle.suffix).trans (List.suffix_cons ..)
  · rintro e u₂ hsame ⟨w, op, -, -, -, hidle, x, hh, hx⟩
    obtain ⟨hopened, -, -⟩ := of_openingOf hx
    refine ⟨⟨numbered_of_same T₁.numbered hsame, T.source_eq, fun _ h => (by cases h),
      fun _ h => (by cases h), fun date hdate' => ?_, fun _ _ => ?_⟩, ?_⟩
    · rw [hh, lastOpened, List.findSome?_cons, hopened]
      exact hidle.lastOpened.trans (T₁.dated date hdate')
    · rw [hh, openFailed, List.findSome?_cons, hx]
      rfl
    · rw [hh]
      exact (T₁.grown.trans hidle.suffix).trans (List.suffix_cons ..)
  · intro r u₂ hr
    cases r with
    | ok g => exact Holds.solo_done (.inl ⟨rfl, rfl, Option.some_ne_none _, hr⟩)
    | error e =>
      obtain ⟨T₂, hgrown⟩ := hr
      refine Holds.solo_call fun _ u₃ _ hx => Holds.solo_done (.inr ⟨rfl, ?_, ?_⟩)
      all_goals obtain ⟨hh, hx⟩ := execFaultyAs_other (by simp) hx
      · refine T₂.same ?_ (fun _ h => by rw [hh]; exact h) (by rw [hh]; rfl) (by rw [hh]; rfl)
        rw [World.exec_disk (by simp) hx]
        exact ⟨rfl, rfl, rfl⟩
      · obtain ⟨new, hnew⟩ := hgrown
        exact ⟨_ :: new, by rw [hh, ← hnew]; rfl, _, .head _, rfl⟩

/-- The line goes to the file of the day. -/
theorem Taken.written {g g' g'' : Handle} {date : NaiveDate} {now : Time} {u'' : ServerState ι}
    (T : Taken storage faults source line t u₀ v u) (hg : g.append = true) (hdate : v.date = some date)
    (hfile : u.state.disk.file (storage.logFile source date) = some g.inode) (hclear : faults u.history.length = none)
    (hwrite : (g', u'.state.disk) = u.state.disk.write g (json.write line ++ [0x0a]) now)
    (hh : u'.history = ⟨i, .file (.write g (json.write line ++ [0x0a])), .ok g'⟩ :: u.history)
    (hinode : g''.inode = g.inode) (happend : g''.append = g.append) (hdisk' : u''.state.disk = u'.state.disk)
    (hidle : Idled u'.history u''.history) :
    Tracking storage faults source {v with file := some g''} u'' ∧
      u''.state.disk.content (storage.logFile source date) =
        some ((u₀.state.disk.content (storage.logFile source date)).getD [] ++ (json.write line ++ [0x0a])) ∧
      lastLine u''.history = some line ∧ lastTime u''.history = some t := by
  have hdisk : u''.state.disk = (u.state.disk.write g (json.write line ++ [0x0a]) now).2 :=
    hdisk'.trans (congrArg Prod.snd hwrite)
  refine ⟨⟨?_, T.source_eq, fun h hh' => ?_, fun h hh' => ?_, fun date' hdate' => ?_, nofun⟩, ?_, ?_, ?_⟩
  · rw [hdisk]
    exact T.numbered
  · obtain rfl := Option.some.inj hh'
    rw [hdisk, hinode]
    exact ⟨happend.trans hg, date, hdate, hfile⟩
  · obtain rfl := Option.some.inj hh'
    refine hidle.owed_none ?_
    rw [hh, owed, if_pos hinode.symm, hclear]
    rfl
  · rw [hidle.lastOpened, hh, lastOpened, List.findSome?_cons]
    exact T.dated date' hdate'
  · rw [hdisk, Disk.write_append_content hg, if_pos hfile, ← T.content, Disk.content, hfile]
    rfl
  · rw [hidle.lastLine, hh, lastLine, List.findSome?_cons]
    exact T.lastLine_eq
  · rw [hidle.lastTime, hh, lastTime, List.findSome?_cons]
    exact T.lastTime_eq

/-- One turn of the loop. -/
theorem writerLoop_noticed {k : Nat} (T : Tracking storage faults source v u) :
    (Contract.solo (execFaultyAs faults env i) (Dated storage utcDate source faults env)).Holds
      (fun r u' => ∀ v', r = .inl v' → Tracking storage faults source v' u' ∧ Noticed json storage utcDate source u u')
      (writerLoop json storage utcDate k v) u := by
  unfold writerLoop
  refine Holds.solo_call fun x u₁ _ hx => ?_
  obtain ⟨hh, hx⟩ := execFaultyAs_other (by simp) hx
  have hdisk : u.state.disk.SameFiles u₁.state.disk := by
    rw [World.exec_disk (by simp) hx]
    exact ⟨rfl, rfl, rfl⟩
  have T₁ : Tracking storage faults source v u₁ :=
    T.same hdisk (fun _ h => by rw [hh]; exact h) (by rw [hh]; rfl) (by rw [hh]; rfl)
  cases x with
  | none =>
    refine Holds.bind (flushFile_solo fun u₂ _ _ => ?_)
    exact Holds.solo_call fun _ u₃ _ _ => Holds.solo_done nofun
  | some line =>
    refine Holds.solo_call fun t u₂ ha hx₂ => ?_
    obtain ⟨hh₂, hx₂⟩ := execFaultyAs_other (by simp) hx₂
    obtain ⟨ht, hstate⟩ := result_eq hx₂
    have T₂ : Taken storage faults source line t u v u₂ := by
      refine ⟨T₁.same ?_ (fun _ h => by rw [hh₂]; exact h) (by rw [hh₂]; rfl) (by rw [hh₂]; rfl),
        by rw [hh₂, hh]; rfl, by rw [hh₂]; rfl, fun p => ?_, ?_⟩
      · rw [← hstate]
        exact ⟨rfl, rfl, rfl⟩
      · rw [← hstate, hdisk.content]
      · rw [hh₂, hh]
        exact (List.suffix_cons ..).trans (List.suffix_cons ..)
    have hfile : v.date = some (utcDate t) → v.file ≠ none := by
      intro hdate hnone
      have hfailed := T₁.failed hnone (by rw [hdate]; nofun)
      exact ha hfailed (by rw [T₁.dated _ hdate, ← ht])
    refine Holds.andThen (rotate_rotated T₂ hfile) ?_
    rintro ⟨v', opened⟩ u₃ (⟨rfl, hdate, hopen, T₃⟩ | ⟨rfl, T₃, hreport⟩)
    · obtain ⟨g, hg⟩ := Option.ne_none_iff_exists'.mp hopen
      obtain ⟨happend, date, hdate', hpath⟩ := T₃.handle g hg
      obtain rfl := Option.some.inj (hdate.symm.trans hdate')
      show (Contract.solo _ _).Holds _ (appendLine json line v'.file >>= _) u₃
      rw [hg]
      refine Holds.bind (appendLine_solo fun x w g' u₄ ha hx hinode happend' hdisk₄ hidle => ?_)
      have hclear : faults u₃.history.length = none := ha
      obtain ⟨hh₄, -, ⟨e, howed, -⟩ | ⟨-, ⟨fault, hfault, -⟩ | ⟨-, g'', rfl, hwrite⟩⟩⟩ := execFaultyAs_write hx
      · rw [T₃.unowed g hg] at howed
        cases howed
      · rw [hclear] at hfault
        cases hfault
      obtain ⟨T₄, hcontent, hline, htime⟩ :=
        T₃.written happend hdate hpath hclear hwrite hh₄ hinode happend' hdisk₄ hidle
      refine Holds.solo_done fun v'' hv'' => ?_
      obtain rfl := Sum.inl.inj hv''
      exact ⟨T₄, .inr ⟨line, t, hline, htime, hcontent⟩⟩
    · refine Holds.solo_done fun v'' hv'' => ?_
      obtain rfl := Sum.inl.inj hv''
      exact ⟨T₃, .inl hreport⟩

/-- **No line is dropped in silence** as long as none comes for the day of the file that was opened last, after an
attempt to open another has failed. -/
theorem lines_noticed {k : Nat} {c : Channel} {w : ServerState ι} (hc : w.state.writers[k]? = some c)
    (hnumbered : w.state.disk.Numbered) {v v' : WriterFile}
    (h : (writer json storage utcDate k).Reaches (execFaultyAs faults env i)
      (Dated storage utcDate c.source faults env) w (.inl v) u)
    (hmeets : (writerLoop json storage utcDate k v).Meets (execFaultyAs faults env i)
      (Dated storage utcDate c.source faults env) u)
    (hrun : (writerLoop json storage utcDate k v).run (execFaultyAs faults env i) u = some (.inl v', u')) :
    Noticed json storage utcDate c.source u u' := by
  have T : Tracking storage faults c.source v u := by
    refine Task.Reaches.invariant (I := fun r u => ∀ v, r = .inl v → Tracking storage faults c.source v u) ?_
      (fun v u T => (writerLoop_noticed (T v rfl)).mono fun r u' h v' hv' => (h v' hv').1) h v rfl
    refine Holds.solo_call fun x u₁ _ hx => Holds.solo_done ?_
    obtain ⟨hh, hx⟩ := execFaultyAs_other (by simp) hx
    obtain ⟨c', hc', hx⟩ := Option.map_eq_some_iff.mp hx
    obtain rfl := Option.some.inj (hc.symm.trans hc')
    obtain ⟨rfl, hu⟩ := Prod.mk.inj hx
    intro v hv
    obtain rfl := Sum.inl.inj hv
    exact ⟨by rw [← hu]; exact hnumbered, rfl, nofun, nofun, nofun, fun _ h => absurd rfl h⟩
  exact ((writerLoop_noticed T).run hmeets hrun v' rfl).2

/-! Three lines, the second of another day, whose file cannot be opened. -/

def threeLines : ServerState Unit := waiting [firstLine, secondLine, firstLine]

/-- The directory of the second day's file cannot be made. -/
def secondUnopened : Faults := fun n => if n = 9 then some ⟨.other, 0⟩ else none

/-- The second line is received on the second day; all from call `n` on are, too. -/
def turningEnv (n : Nat) : Env := {stillEnv with clock := fun m => if m = 7 ∨ n ≤ m then 20 else 0}

/-- With the clock back at the first day, the third line is neither written nor reported. -/
theorem thirdLine_dropped : ∃ v v' u u',
    sampleWriter.Reaches (execFaultyAs secondUnopened (turningEnv 100) ()) (fun _ _ => True) threeLines (.inl v) u ∧
    (writerLoop LogSystem.sampleLogs.json ⟨["data"]⟩ LogSystem.dayAt 0 v).run
      (execFaultyAs secondUnopened (turningEnv 100) ()) u = some (.inl v', u') ∧
    ¬ Noticed LogSystem.sampleLogs.json ⟨["data"]⟩ LogSystem.dayAt LogSystem.sampleSource u u' := by
  have hrun : (sampleWriter.turns (execFaultyAs secondUnopened (turningEnv 100) ()) (fun _ _ => true) 2 threeLines).any
      (fun x => match x.1 with
        | .inl v => ((writerLoop LogSystem.sampleLogs.json ⟨["data"]⟩ LogSystem.dayAt 0 v).run
            (execFaultyAs secondUnopened (turningEnv 100) ()) x.2).any fun y =>
          y.1.isLeft && y.2.history.length = x.2.history.length + 2 && !(y.2.history.take 2).any isReport &&
            lastTime y.2.history = some 0 &&
            ((y.2.state.disk.content sampleLog).getD []).length = ((x.2.state.disk.content sampleLog).getD []).length
        | .inr _ => false) = true := by decide +kernel
  obtain ⟨⟨r, u⟩, hx, hp⟩ := (Option.any_eq_true _ _).mp hrun
  cases r with
  | inr _ => cases hp
  | inl v =>
    obtain ⟨⟨r', u'⟩, hy, hp⟩ := (Option.any_eq_true _ _).mp hp
    simp only [Bool.and_eq_true, decide_eq_true_eq] at hp
    obtain ⟨⟨⟨⟨hleft, hlength⟩, hreport⟩, htime⟩, hcontent⟩ := hp
    cases r' with
    | inr _ => cases hleft
    | inl v' =>
      refine ⟨v, v', u, u', Task.reaches_of_turns (fun _ _ _ => trivial) hx, hy, ?_⟩
      rintro (⟨new, hnew, e, he, hisReport⟩ | ⟨line, t, -, ht, happended⟩)
      · have hnew2 : u'.history.take 2 = new := by
          have hn : new.length = 2 := by
            rw [hnew, List.length_append] at hlength
            omega
          rw [hnew, ← hn, List.take_left]
        rw [hnew2] at hreport
        have : new.any isReport = true := List.any_eq_true.mpr ⟨e, he, hisReport⟩
        rw [this] at hreport
        cases hreport
      · obtain rfl := Option.some.inj (htime.symm.trans ht)
        have hlong := congrArg (fun x => (x.getD []).length) happended
        simp only [Option.getD_some, List.length_append, List.length_singleton] at hlong
        have hsame : ((u'.state.disk.content sampleLog).getD []).length =
          ((u.state.disk.content sampleLog).getD []).length := hcontent
        unfold sampleLog at hsame
        omega

def datedCheck (env : Env) (op : ServerOp) (w : ServerState Unit) : Bool :=
  match op with
  | .now => !openFailed w.history || lastOpened w.history ≠
      some (StoragePaths.logFile ⟨["data"]⟩ LogSystem.sampleSource (LogSystem.dayAt (env.clock w.history.length)))
  | .file (.write _ _) => (secondUnopened w.history.length).isNone
  | _ => true

theorem dated_of_check (env : Env) (op : ServerOp) (w : ServerState Unit) (h : datedCheck env op w = true) :
    Dated ⟨["data"]⟩ LogSystem.dayAt LogSystem.sampleSource secondUnopened env op w := by
  unfold datedCheck at h
  unfold Dated
  split at h
  · intro hfailed
    rw [hfailed] at h
    exact of_decide_eq_true h
  · exact Option.isNone_iff_eq_none.mp h
  · trivial

/-- On the second day still, the third line is written or reported. -/
theorem lines_noticed_third : ∃ v v' u u',
    sampleWriter.Reaches (execFaultyAs secondUnopened (turningEnv 7) ())
      (Dated ⟨["data"]⟩ LogSystem.dayAt LogSystem.sampleSource secondUnopened (turningEnv 7)) threeLines (.inl v) u ∧
    (writerLoop LogSystem.sampleLogs.json ⟨["data"]⟩ LogSystem.dayAt 0 v).run
      (execFaultyAs secondUnopened (turningEnv 7) ()) u = some (.inl v', u') ∧
    Noticed LogSystem.sampleLogs.json ⟨["data"]⟩ LogSystem.dayAt LogSystem.sampleSource u u' := by
  have hrun : (sampleWriter.turns (execFaultyAs secondUnopened (turningEnv 7) ()) (datedCheck (turningEnv 7)) 2
      threeLines).any (fun x => match x.1 with
        | .inl v => ((writerLoop LogSystem.sampleLogs.json ⟨["data"]⟩ LogSystem.dayAt 0 v).check
            (execFaultyAs secondUnopened (turningEnv 7) ()) (datedCheck (turningEnv 7)) x.2).any fun y => y.1.isLeft
        | .inr _ => false) = true := by decide +kernel
  obtain ⟨⟨r, u⟩, hx, hp⟩ := (Option.any_eq_true _ _).mp hrun
  cases r with
  | inr _ => cases hp
  | inl v =>
    obtain ⟨⟨r', u'⟩, hy, hleft⟩ := (Option.any_eq_true _ _).mp hp
    cases r' with
    | inr _ => cases hleft
    | inl v' =>
      have hreach := Task.reaches_of_turns (dated_of_check (turningEnv 7)) hx
      obtain ⟨hmeets, hrun⟩ := Program.meets_of_check (dated_of_check (turningEnv 7)) hy
      have hchannel : threeLines.state.writers[0]? =
          some ⟨LogSystem.sampleSource, [firstLine, secondLine, firstLine], 0, false, false⟩ := rfl
      have hnumbered : threeLines.state.disk.Numbered := fun _ _ h => by cases h
      have hnoticed := lines_noticed hchannel hnumbered hreach hmeets hrun
      exact ⟨v, v', u, u', hreach, hrun, hnoticed⟩

end Detritus.Server
