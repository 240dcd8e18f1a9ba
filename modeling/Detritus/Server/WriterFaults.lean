import Detritus.Files.Region
import Detritus.Server.Faults
import Detritus.Server.LogStore

/-! A log writer on a disk that fails.

The writer takes the lines of a channel one by one and appends each to the file of its
day. A write is answered before its bytes are down: one that fails loses its own line,
may leave the first bytes of it behind, and has the next line refused in its place. What
becomes of the other lines is said in `lines_intact`; it depends on what the failed ones
have left. -/
namespace Detritus.Server
open Files Protocol Process Contract

variable {ι : Type} {g : Handle} {n : Nat}

/-! ### What the history says -/

/-- The line that a call received. -/
def lineOf : ServerEvent ι → Option Json
  | ⟨_, .recv _, x⟩ => x
  | _ => none

def timeOf : ServerEvent ι → Option Time
  | ⟨_, .now, t⟩ => some t
  | _ => none

/-- The file that a call opened. -/
def openedOf : ServerEvent ι → Option Path
  | ⟨_, .file (.openAppend p), .ok _⟩ => some p
  | _ => none

/-- Whether a call opened a file, or failed to. -/
def openingOf : ServerEvent ι → Option Bool
  | ⟨_, .file (.openAppend _), .ok _⟩ => some true
  | ⟨_, .file (.openAppend _), .error _⟩ => some false
  | ⟨_, .file (.createDirAll _), .error _⟩ => some false
  | _ => none

/-- The inode of a write that was answered with success. -/
def writtenTo : ServerEvent ι → Option Nat
  | ⟨_, .file (.write g _), .ok _⟩ => some g.inode
  | _ => none

def isWrite : ServerEvent ι → Bool
  | ⟨_, .file (.write _ _), _⟩ => true
  | _ => false

def isReport : ServerEvent ι → Bool
  | ⟨_, .report _, _⟩ => true
  | _ => false

def lastLine (h : List (ServerEvent ι)) : Option Json := h.findSome? lineOf

def lastTime (h : List (ServerEvent ι)) : Option Time := h.findSome? timeOf

/-- The file that was opened last. -/
def lastOpened (h : List (ServerEvent ι)) : Option Path := h.findSome? openedOf

/-- The last attempt to open a file has failed. -/
def openFailed (h : List (ServerEvent ι)) : Bool := h.findSome? openingOf = some false

/-- A write to the inode has failed after some bytes. -/
def Torn (faults : Faults) (n : Nat) : List (ServerEvent ι) → Prop
  | [] => False
  | e :: h => (match e.op with
      | .file (.write g bytes) => g.inode = n ∧ owed faults n h = none ∧
        ∃ fault, faults h.length = some fault ∧ fault.torn bytes ≠ []
      | _ => False) ∨ Torn faults n h

/-- Calls that tell nothing of lines, times or files. -/
def idle : ServerEvent ι → Bool
  | ⟨_, .file (.sync _), _⟩ => true
  | ⟨_, .file (.createDirAll _), .ok _⟩ => true
  | ⟨_, .report _, _⟩ => true
  | _ => false

/-- The history has grown by calls of a kind. -/
def Grown (kind : ServerEvent ι → Bool) (h h' : List (ServerEvent ι)) : Prop :=
  ∃ new, h' = new ++ h ∧ ∀ e ∈ new, kind e = true

namespace Grown
variable {kind kind' : ServerEvent ι → Bool} {h h' h'' : List (ServerEvent ι)}

theorem refl (h : List (ServerEvent ι)) : Grown kind h h := ⟨[], rfl, by simp⟩

theorem cons {e : ServerEvent ι} (he : kind e = true) (h : List (ServerEvent ι)) : Grown kind h (e :: h) :=
  ⟨[e], rfl, by simpa using he⟩

theorem trans (a : Grown kind h h') (b : Grown kind h' h'') : Grown kind h h'' := by
  obtain ⟨new, rfl, hn⟩ := a
  obtain ⟨new', rfl, hn'⟩ := b
  refine ⟨new' ++ new, (List.append_assoc ..).symm, fun e he => ?_⟩
  rcases List.mem_append.mp he with he | he
  · exact hn' e he
  · exact hn e he

theorem mono (hk : ∀ e, kind e = true → kind' e = true) (a : Grown kind h h') : Grown kind' h h' := by
  obtain ⟨new, hh, hn⟩ := a
  exact ⟨new, hh, fun e he => hk e (hn e he)⟩

theorem suffix (a : Grown kind h h') : h <:+ h' := by
  obtain ⟨new, rfl, -⟩ := a
  exact List.suffix_append ..

end Grown

abbrev Idled : List (ServerEvent ι) → List (ServerEvent ι) → Prop := Grown idle

/-- The history has grown, and nothing was written. -/
abbrev Unwritten : List (ServerEvent ι) → List (ServerEvent ι) → Prop := Grown fun e => !isWrite e

namespace Idled
variable {h h' : List (ServerEvent ι)}

theorem unwritten (a : Idled h h') : Unwritten h h' :=
  Grown.mono (fun e he => by unfold idle at he; split at he <;> first | rfl | cases he) a

/-- What is found last is what was found last before. -/
theorem findSome? {β : Type} {f : ServerEvent ι → Option β} (hf : ∀ e, idle e = true → f e = none) (a : Idled h h') :
    h'.findSome? f = h.findSome? f := by
  obtain ⟨new, rfl, hn⟩ := a
  rw [List.findSome?_append, List.findSome?_eq_none_iff.mpr fun e he => hf e (hn e he), Option.none_or]

theorem lastLine (a : Idled h h') : lastLine h' = lastLine h :=
  a.findSome? fun e he => by unfold idle at he; split at he <;> first | rfl | cases he

theorem lastTime (a : Idled h h') : lastTime h' = lastTime h :=
  a.findSome? fun e he => by unfold idle at he; split at he <;> first | rfl | cases he

theorem lastOpened (a : Idled h h') : lastOpened h' = lastOpened h :=
  a.findSome? fun e he => by unfold idle at he; split at he <;> first | rfl | cases he

theorem openFailed (a : Idled h h') : openFailed h' = openFailed h := by
  unfold Server.openFailed
  rw [a.findSome? fun e he => by unfold idle at he; split at he <;> first | rfl | cases he]

/-- What is not owed does not come to be. -/
theorem owed_none (a : Idled h h') {faults : Faults} (ho : owed faults n h = none) : owed faults n h' = none := by
  obtain ⟨new, rfl, hn⟩ := a
  induction new with
  | nil => exact ho
  | cons e new ih =>
    have ih := ih fun e he => hn e (.tail _ he)
    have he := hn e (.head _)
    unfold idle at he
    split at he
    · rw [List.cons_append, owed]
      split
      · rfl
      · exact ih
    · exact ih
    · exact ih
    · cases he

end Idled

namespace Unwritten
variable {h h' : List (ServerEvent ι)}

theorem torn (a : Unwritten h h') {faults : Faults} : Torn faults n h' ↔ Torn faults n h := by
  obtain ⟨new, rfl, hn⟩ := a
  induction new with
  | nil => rfl
  | cons e new ih =>
    rw [List.cons_append, Torn, ih fun e he => hn e (.tail _ he)]
    refine or_iff_right ?_
    have he := hn e (.head _)
    obtain ⟨i, op, x⟩ := e
    dsimp only
    split
    · cases he
    · exact id

/-- What was written was written before. -/
theorem written (a : Unwritten h h') {e : ServerEvent ι} {before : List (ServerEvent ι)} (hs : e :: before <:+ h')
    (he : writtenTo e = some n) : e :: before <:+ h := by
  obtain ⟨new, rfl, hn⟩ := a
  induction new with
  | nil => exact hs
  | cons f new ih =>
    rcases List.suffix_cons_iff.mp hs with heq | hs
    · obtain ⟨rfl, -⟩ := List.cons.inj heq
      have hf := hn e (.head _)
      unfold writtenTo at he
      split at he
      · cases hf
      · cases he
    · exact ih (fun e he => hn e (.tail _ he)) hs

end Unwritten

/-! ### The writer's calls -/

section Calls
variable {faults : Faults} {env : Env} {i : ι} {allows : ServerOp → ServerState ι → Prop} {u : ServerState ι}

theorem report_solo {message : String} {Q : Unit → ServerState ι → Prop}
    (hQ : ∀ u', u'.state.disk = u.state.disk → u'.history = ⟨i, .report message, ()⟩ :: u.history → Q () u') :
    (Contract.solo (execFaultyAs faults env i) allows).Holds Q
      (Program.perform (S := serverInterface) (.report message)) u := by
  refine Holds.solo_perform fun x u' _ hx => ?_
  obtain ⟨hh, hx⟩ := execFaultyAs_other (by simp) hx
  exact hQ u' (World.exec_disk (by simp) hx) hh

theorem flushFile_solo {message : String} {file : Option Handle} {Q : Unit → ServerState ι → Prop}
    (hQ : ∀ u', u'.state.disk = u.state.disk → Idled u.history u'.history → Q () u') :
    (Contract.solo (execFaultyAs faults env i) allows).Holds Q (flushFile message file) u := by
  cases file with
  | none => exact Holds.solo_done (hQ u rfl (.refl _))
  | some g =>
    refine Holds.solo_call fun x v _ hx => ?_
    obtain ⟨hh, hv⟩ := execFaultyAs_sync hx
    have hdisk : v.state.disk = u.state.disk := by rw [hv]
    have hidle : Idled u.history v.history := by
      rw [hh]
      exact .cons rfl _
    cases x with
    | ok _ => exact Holds.solo_done (hQ v hdisk hidle)
    | error e =>
      refine report_solo fun u' hu' hh' => hQ u' (hu'.trans hdisk) (hidle.trans ?_)
      rw [hh']
      exact .cons rfl _

/-- The file was opened, or an attempt failed and left no trace. -/
theorem openLogFile_solo {storage : StoragePaths} {source : SourceKey} {date : NaiveDate}
    {Q : Handle → ServerState ι → Prop} {E : StorageError → ServerState ι → Prop}
    (hQ : ∀ d now g u', u.state.disk.SameFiles d → (g, u'.state.disk) = d.openAppend (storage.logFile source date) now →
      (∃ h, Idled u.history h ∧
        u'.history = ⟨i, .file (.openAppend (storage.logFile source date)), .ok g⟩ :: h) → Q g u')
    (hE : ∀ e u', u.state.disk.SameFiles u'.state.disk →
      (∃ v op, allows (.file op) v ∧ (op = .createDirAll (storage.logFile source date).parent ∨
          op = .openAppend (storage.logFile source date)) ∧ faults v.history.length ≠ none ∧
        Idled u.history v.history ∧ ∃ x, u'.history = x :: v.history ∧ openingOf x = some false) → E e u') :
    (Contract.solo (execFaultyAs faults env i) allows).Yields Q E (openLogFile storage source date) u := by
  unfold openLogFile
  refine yields_file rfl ?_ ?_
  · intro fault v hfault ha hv hh
    refine hE _ v (by rw [hv]; exact ⟨rfl, rfl, rfl⟩) ⟨u, _, ha, .inl rfl, ?_, .refl _, _, hh, rfl⟩
    rw [hfault]
    exact nofun
  intro x v _ hx hv hh
  rw [show x = .ok () from hx]
  have hsame : u.state.disk.SameFiles v.state.disk := by
    rw [hv]
    exact FileOp.exec_quiet rfl _ _ _
  have hidle : Idled u.history v.history := by
    rw [hh, show x = .ok () from hx]
    exact .cons rfl _
  dsimp only
  rw [← bind_pure (file StorageError.io (.openAppend (storage.logFile source date)))]
  refine yields_file rfl ?_ ?_
  · intro fault v' hfault ha hv' hh'
    refine hE _ v' ?_ ⟨v, _, ha, .inr rfl, ?_, hidle, _, hh', rfl⟩
    · rw [hv']
      exact hsame
    · rw [hfault]
      exact nofun
  · intro x v' _ hx' hv' hh'
    have hx' : x = .ok (v.state.disk.openAppend (storage.logFile source date) (env.clock v.history.length)).1 := hx'
    rw [hx'] at hh' ⊢
    refine Yields.solo_pure (hQ v.state.disk (env.clock v.history.length) _ v' hsame ?_ ⟨_, hidle, hh'⟩)
    rw [hv']
    rfl

/-- What the write of a line does is done; if it answers with an error, that is reported. -/
theorem appendLine_solo {json : SerdeJson} {line : Json} {Q : Option Handle → ServerState ι → Prop}
    (hQ : ∀ x v g' u', allows (.file (.write g (json.write line ++ [0x0a]))) u →
      execFaultyAs faults env i (.file (.write g (json.write line ++ [0x0a]))) u = some (x, v) →
      g'.inode = g.inode → g'.append = g.append → u'.state.disk = v.state.disk → Idled v.history u'.history →
      Q (some g') u') :
    (Contract.solo (execFaultyAs faults env i) allows).Holds Q (appendLine json line (some g)) u := by
  refine Holds.solo_call fun x v ha hx => ?_
  cases x with
  | ok g' =>
    obtain ⟨hinode, happend⟩ := (execFaultyAs_write hx).2.1 g' rfl
    exact Holds.solo_done (hQ _ v g' v ha hx hinode happend rfl (.refl _))
  | error e =>
    refine Holds.solo_call fun _ u' _ hx' => Holds.solo_done ?_
    obtain ⟨hh', hx'⟩ := execFaultyAs_other (by simp) hx'
    refine hQ _ v g u' ha hx rfl rfl (World.exec_disk (by simp) hx') ?_
    rw [hh']
    exact .cons rfl _

end Calls

/-! ### Lines of a file -/

/-- Nothing, or lines each with its end. -/
def Ended (content : Bytes) : Prop := content = [] ∨ content.getLast? = some 0x0a

/-- A line of a file, from the end of another to its own. -/
def HasLine (content line : Bytes) : Prop :=
  0x0a ∉ line ∧ ∃ before after, content = before ++ line ++ [0x0a] ++ after ∧ Ended before

theorem ended_append_line (content line : Bytes) : Ended (content ++ (line ++ [0x0a])) :=
  .inr (by rw [← List.append_assoc, List.getLast?_concat])

theorem HasLine.append {content line : Bytes} (h : HasLine content line) (more : Bytes) :
    HasLine (content ++ more) line := by
  obtain ⟨hline, before, after, rfl, hbefore⟩ := h
  exact ⟨hline, before, after ++ more, by simp, hbefore⟩

theorem HasLine.last {content line : Bytes} (hline : 0x0a ∉ line) (h : Ended content) :
    HasLine (content ++ (line ++ [0x0a])) line :=
  ⟨hline, content, [], by simp, h⟩

/-- A file of one line has no other. -/
theorem HasLine.eq_of_single {only line : Bytes} (hfree : 0x0a ∉ only) (h : HasLine (only ++ [0x0a]) line) :
    line = only := by
  obtain ⟨hline, before, after, heq, hbefore⟩ := h
  have hcount := congrArg (List.count 0x0a) heq
  simp only [List.count_append, List.count_eq_zero.mpr hfree, List.count_eq_zero.mpr hline, List.count_singleton_self]
    at hcount
  have hnone : 0x0a ∉ before := List.count_eq_zero.mp (by omega)
  obtain rfl : before = [] := by
    rcases hbefore with h | h
    · exact h
    · exact absurd (List.mem_of_getLast? h) hnone
  have hother : ∀ {l : Bytes}, 0x0a ∉ l → ∀ c ∈ l, (c != 0x0a) = true :=
    fun hl c hc => bne_iff_ne.mpr fun h => hl (h ▸ hc)
  have hend : (line ++ ([0x0a] ++ after)).takeWhile (· != 0x0a) = line := by
    rw [List.takeWhile_append_of_pos (hother hline)]
    simp
  rw [List.nil_append, List.append_assoc] at heq
  rw [← heq, List.takeWhile_append_of_pos (hother hfree)] at hend
  simpa using hend.symm

/-! ### Writes that fail -/

section Writes
variable {json : SerdeJson} {storage : StoragePaths} {utcDate : Time → NaiveDate} {faults : Faults} {env : Env} {i : ι}
  {source : SourceKey} {u u' : ServerState ι} {now : Time} {bytes : Bytes} {d : Disk}

/-- Files are opened without faults. -/
def Opens (faults : Faults) (op : ServerOp) (w : ServerState ι) : Prop :=
  match op with
  | .file (.createDirAll _) | .file (.openAppend _) => faults w.history.length = none
  | _ => True

/-- A line that came before is a line of the file of its day. -/
def LineKept (json : SerdeJson) (storage : StoragePaths) (utcDate : Time → NaiveDate) (source : SourceKey)
    (before : List (ServerEvent ι)) (d : Disk) : Prop :=
  ∃ line t, lastLine before = some line ∧ lastTime before = some t ∧
    HasLine ((d.content (storage.logFile source (utcDate t))).getD []) (json.write line)

/-- The lines that were written whole, to files in which no other had left a part of itself, are lines of the files
of their days. -/
structure Legible (json : SerdeJson) (storage : StoragePaths) (utcDate : Time → NaiveDate) (faults : Faults)
    (source : SourceKey) (u : ServerState ι) : Prop where
  numbered : u.state.disk.Numbered
  whole : ∀ date n, u.state.disk.file (storage.logFile source date) = some n → ¬ Torn faults n u.history →
    Ended (u.state.disk.inode n).content
  present : ∀ e before n, e :: before <:+ u.history → writtenTo e = some n → faults before.length = none →
    ¬ Torn faults n before → LineKept json storage utcDate source before u.state.disk

theorem numbered_of_same {d e : Disk} (hd : d.Numbered) (h : d.SameFiles e) : e.Numbered := by
  intro p n hn
  rw [h.file] at hn
  rw [h.next]
  exact hd p n hn

/-- Calls that change no file. -/
theorem Legible.same (K : Legible json storage utcDate faults source u) (hfiles : u.state.disk.SameFiles u'.state.disk)
    (hun : Unwritten u.history u'.history) : Legible json storage utcDate faults source u' where
  numbered := numbered_of_same K.numbered hfiles
  whole date n hn ht := by
    rw [hfiles.file] at hn
    rw [hfiles.inode]
    exact K.whole date n hn fun h => ht (hun.torn.mpr h)
  present e before n hs he hclear ht := by
    obtain ⟨line, t, hline, htime, h⟩ := K.present e before n (hun.written hs he) he hclear ht
    exact ⟨line, t, hline, htime, by rw [hfiles.content]; exact h⟩

theorem Legible.open {p : Path} (K : Legible json storage utcDate faults source u)
    (hfiles : u.state.disk.SameFiles d) (hopen : (g, u'.state.disk) = d.openAppend p now)
    (hun : Unwritten u.history u'.history) : Legible json storage utcDate faults source u' := by
  have hdisk : u'.state.disk = (d.openAppend p now).2 := congrArg Prod.snd hopen
  have hnumbered : d.Numbered := numbered_of_same K.numbered hfiles
  refine ⟨?_, ?_, fun e before n hs he hclear ht => ?_⟩
  · rw [hdisk]
    exact hnumbered.openAppend
  · intro date n hn ht
    rw [hun.torn] at ht
    rw [hdisk, Disk.openAppend] at hn ⊢
    cases hp : d.file p with
    | some m =>
      rw [hp] at hn
      dsimp only at hn ⊢
      rw [hfiles.file] at hn
      rw [hfiles.inode]
      exact K.whole date n hn ht
    | none =>
      rw [hp] at hn
      dsimp only at hn ⊢
      rw [Disk.fresh_inode]
      rw [Disk.fresh_file] at hn
      by_cases hq : storage.logFile source date = p
      · rw [hq, Function.update_self] at hn
        rw [← Option.some.inj hn, Function.update_self]
        exact .inl rfl
      · rw [Function.update_of_ne hq] at hn
        rw [Function.update_of_ne (Nat.ne_of_lt (hnumbered _ _ hn)), hfiles.inode]
        rw [hfiles.file] at hn
        exact K.whole date n hn ht
  · obtain ⟨line, t, hline, htime, h⟩ := K.present e before n (hun.written hs he) he hclear ht
    refine ⟨line, t, hline, htime, ?_⟩
    rw [hdisk, (Disk.openAppend_content hnumbered _).1, hfiles.content]
    exact h

/-- Bytes at the end of a file: the lines before them stay. -/
theorem LineKept.write {before : List (ServerEvent ι)} (h : LineKept json storage utcDate source before d)
    (hg : g.append = true) : LineKept json storage utcDate source before (d.write g bytes now).2 := by
  obtain ⟨line, t, hline, htime, h⟩ := h
  refine ⟨line, t, hline, htime, ?_⟩
  rw [Disk.write_append_content hg]
  split
  · cases hc : d.content (storage.logFile source (utcDate t)) with
    | none => rwa [hc] at h
    | some content =>
      rw [hc] at h
      exact h.append bytes
  · exact h

theorem write_inode (hg : g.append = true) (n : Nat) :
    ((d.write g bytes now).2.inode n).content =
      if n = g.inode then (d.inode n).content ++ bytes else (d.inode n).content := by
  unfold Disk.write Disk.position
  rw [hg, if_pos rfl]
  by_cases hn : n = g.inode
  · subst hn
    simp [overlay_end]
  · simp [hn]

/-- A write that is refused changes nothing. -/
theorem Legible.refused {e : IoError} (K : Legible json storage utcDate faults source u)
    (howed : owed faults g.inode u.history = some e) (hstate : u'.state = u.state)
    (hh : u'.history = ⟨i, .file (.write g bytes), .error e⟩ :: u.history) :
    Legible json storage utcDate faults source u' := by
  have htorn : ∀ n, Torn faults n u'.history ↔ Torn faults n u.history := by
    intro n
    rw [hh, Torn]
    refine or_iff_right ?_
    rintro ⟨rfl, hnone, -⟩
    rw [howed] at hnone
    cases hnone
  refine ⟨hstate ▸ K.numbered, fun date n hn ht => ?_, fun f before n hs hf hclear ht => ?_⟩
  · rw [hstate] at hn ⊢
    exact K.whole date n hn fun h => ht ((htorn n).mpr h)
  · rw [hh] at hs
    rcases List.suffix_cons_iff.mp hs with heq | hs
    · rw [(List.cons.inj heq).1] at hf
      cases hf
    · rw [hstate]
      exact K.present f before n hs hf hclear ht

/-- A part of a line, which is remembered. -/
theorem Legible.part {fault : Fault} {x : FileOp.Answer (.write g bytes)}
    (K : Legible json storage utcDate faults source u) (hg : g.append = true)
    (howed : owed faults g.inode u.history = none) (hfault : faults u.history.length = some fault)
    (hdisk : u'.state.disk = (u.state.disk.write g (fault.torn bytes) now).2)
    (hh : u'.history = ⟨i, .file (.write g bytes), x⟩ :: u.history) :
    Legible json storage utcDate faults source u' := by
  have htorn : ∀ n, Torn faults n u'.history ↔ (g.inode = n ∧ fault.torn bytes ≠ []) ∨ Torn faults n u.history := by
    intro n
    rw [hh, Torn]
    refine or_congr_left ⟨?_, ?_⟩
    · rintro ⟨hn, -, fault', hfault', h⟩
      obtain rfl := Option.some.inj (hfault.symm.trans hfault')
      exact ⟨hn, h⟩
    · rintro ⟨rfl, h⟩
      exact ⟨rfl, howed, fault, hfault, h⟩
  refine ⟨?_, ?_, fun f before n hs hf hclear ht => ?_⟩
  · rw [hdisk]
    exact K.numbered
  · intro date n hn ht
    rw [htorn, not_or] at ht
    rw [hdisk] at hn ⊢
    rw [write_inode hg]
    have hwhole := K.whole date n hn ht.2
    split
    · next heq =>
      have hnone : fault.torn bytes = [] := by
        by_contra h
        exact ht.1 ⟨heq.symm, h⟩
      rwa [hnone, List.append_nil]
    · exact hwhole
  · rw [hh] at hs
    rcases List.suffix_cons_iff.mp hs with heq | hs
    · -- the line itself is lost, whatever it was answered
      rw [(List.cons.inj heq).2, hfault] at hclear
      cases hclear
    · rw [hdisk]
      exact (K.present f before n hs hf hclear ht).write hg

/-- A line in full. -/
theorem Legible.line {g g' : Handle} {line : Json} {t : Time} (hjson : CompactLawful json)
    (K : Legible json storage utcDate faults source u) (hg : g.append = true)
    (hfile : u.state.disk.file (storage.logFile source (utcDate t)) = some g.inode)
    (hline : lastLine u.history = some line) (htime : lastTime u.history = some t)
    (hclear : faults u.history.length = none)
    (hdisk : u'.state.disk = (u.state.disk.write g (json.write line ++ [0x0a]) now).2)
    (hh : u'.history = ⟨i, .file (.write g (json.write line ++ [0x0a])), .ok g'⟩ :: u.history) :
    Legible json storage utcDate faults source u' := by
  have htorn : ∀ n, Torn faults n u'.history ↔ Torn faults n u.history := by
    intro n
    rw [hh, Torn]
    refine or_iff_right ?_
    rintro ⟨-, -, fault, hfault, -⟩
    rw [hclear] at hfault
    cases hfault
  refine ⟨?_, ?_, fun f before n hs hf hcl ht => ?_⟩
  · rw [hdisk]
    exact K.numbered
  · intro date n hn ht
    rw [hdisk] at hn ⊢
    rw [write_inode hg]
    split
    · exact ended_append_line _ _
    · exact K.whole date n hn fun h => ht ((htorn n).mpr h)
  · rw [hh] at hs
    rcases List.suffix_cons_iff.mp hs with heq | hs
    · obtain ⟨rfl, rfl⟩ := List.cons.inj heq
      obtain rfl : g.inode = n := Option.some.inj hf
      refine ⟨line, t, hline, htime, ?_⟩
      rw [hdisk, Disk.write_append_content hg, if_pos hfile, Disk.content, hfile]
      exact .last (hjson.newline _) (K.whole _ _ hfile ht)
    · rw [hdisk]
      exact (K.present f before n hs hf hcl ht).write hg

/-- The write of a line, whatever becomes of it. -/
theorem Legible.write {line : Json} {t : Time} {x : FileOp.Answer (.write g (json.write line ++ [0x0a]))}
    (hjson : CompactLawful json) (K : Legible json storage utcDate faults source u) (hg : g.append = true)
    (hfile : u.state.disk.file (storage.logFile source (utcDate t)) = some g.inode)
    (hline : lastLine u.history = some line) (htime : lastTime u.history = some t)
    (hx : execFaultyAs faults env i (.file (.write g (json.write line ++ [0x0a]))) u = some (x, u')) :
    Legible json storage utcDate faults source u' ∧ u'.state.disk.file = u.state.disk.file := by
  obtain ⟨hh, -, ⟨e, howed, rfl, hstate⟩ | ⟨howed, ⟨fault, hfault, hdisk⟩ | ⟨hclear, g', rfl, hwrite⟩⟩⟩ :=
    execFaultyAs_write hx
  · exact ⟨K.refused howed hstate hh, by rw [hstate]⟩
  · exact ⟨K.part hg howed hfault hdisk hh, by rw [hdisk]; rfl⟩
  · have hdisk := congrArg Prod.snd hwrite
    exact ⟨K.line hjson hg hfile hline htime hclear hdisk hh, by rw [show u'.state.disk = _ from hdisk]; rfl⟩

/-- The writer between two lines: a file is open as soon as there is a day for it. -/
structure Appending (json : SerdeJson) (storage : StoragePaths) (utcDate : Time → NaiveDate) (faults : Faults)
    (source : SourceKey) (v : WriterFile) (u : ServerState ι) : Prop extends
    Legible json storage utcDate faults source u where
  source_eq : v.source = source
  closed : v.file = none → v.date = none
  handle : ∀ g, v.file = some g → g.append = true ∧ ∃ date, v.date = some date ∧
    u.state.disk.file (storage.logFile source date) = some g.inode

/-- The writer with a line to append. -/
structure Holding (json : SerdeJson) (storage : StoragePaths) (utcDate : Time → NaiveDate) (faults : Faults)
    (source : SourceKey) (line : Json) (t : Time) (v : WriterFile) (u : ServerState ι) : Prop extends
    Appending json storage utcDate faults source v u where
  lastLine_eq : lastLine u.history = some line
  lastTime_eq : lastTime u.history = some t

variable {v : WriterFile} {line : Json} {t : Time}

theorem Appending.same (A : Appending json storage utcDate faults source v u)
    (hfiles : u.state.disk.SameFiles u'.state.disk) (hun : Unwritten u.history u'.history) :
    Appending json storage utcDate faults source v u' where
  toLegible := A.toLegible.same hfiles hun
  source_eq := A.source_eq
  closed := A.closed
  handle g hg := by
    rw [hfiles.file]
    exact A.handle g hg

theorem Holding.idled (H : Holding json storage utcDate faults source line t v u)
    (hfiles : u.state.disk.SameFiles u'.state.disk) (hidle : Idled u.history u'.history) :
    Holding json storage utcDate faults source line t v u' where
  toAppending := H.toAppending.same hfiles hidle.unwritten
  lastLine_eq := by rw [hidle.lastLine, H.lastLine_eq]
  lastTime_eq := by rw [hidle.lastTime, H.lastTime_eq]

theorem rotate_solo (H : Holding json storage utcDate faults source line t v u) :
    (Contract.solo (execFaultyAs faults env i) (Opens faults)).Holds
      (fun r u' => r.2 = true ∧ Holding json storage utcDate faults source line t r.1 u' ∧ r.1.date = some (utcDate t))
      (rotate storage v (utcDate t)) u := by
  unfold rotate
  by_cases hdate : v.date = some (utcDate t)
  · rw [if_pos hdate]
    exact Holds.solo_done ⟨rfl, H, hdate⟩
  rw [if_neg hdate]
  refine Holds.bind (flushFile_solo fun u₁ hu₁ hidle => ?_)
  have H₁ : Holding json storage utcDate faults source line t v u₁ :=
    H.idled (by rw [hu₁]; exact ⟨rfl, rfl, rfl⟩) hidle
  refine Holds.andThen (openLogFile_solo
    (Q := fun g u' => Holding json storage utcDate faults source line t
      {v with date := some (utcDate t), file := some g} u') (E := fun _ _ => False) ?_ ?_) ?_
  · rintro d now g u₂ hsame hopen ⟨h, hidle, hh⟩
    have hun : Unwritten u₁.history u₂.history := by
      rw [hh]
      exact hidle.unwritten.trans (.cons rfl _)
    refine ⟨⟨H₁.toLegible.open hsame hopen hun, H.source_eq, nofun, ?_⟩, ?_, ?_⟩
    · intro g' hg'
      obtain rfl := Option.some.inj hg'
      have hg : g = (d.openAppend (storage.logFile v.source (utcDate t)) now).1 := congrArg Prod.fst hopen
      have hdisk : u₂.state.disk = (d.openAppend (storage.logFile v.source (utcDate t)) now).2 :=
        congrArg Prod.snd hopen
      rw [hg, hdisk, ← H.source_eq]
      exact ⟨Disk.openAppend_self.2, utcDate t, rfl, Disk.openAppend_self.1⟩
    · rw [hh, lastLine, List.findSome?_cons]
      exact hidle.lastLine.trans H₁.lastLine_eq
    · rw [hh, lastTime, List.findSome?_cons]
      exact hidle.lastTime.trans H₁.lastTime_eq
  · rintro e u₂ - ⟨w, op, ha, rfl | rfl, hfault, -⟩
    · exact hfault ha
    · exact hfault ha
  · intro r u₂ hr
    cases r with
    | ok g => exact Holds.solo_done ⟨rfl, hr, rfl⟩
    | error e => exact hr.elim

/-- After so many turns. -/
def Intact (json : SerdeJson) (storage : StoragePaths) (utcDate : Time → NaiveDate) (faults : Faults)
    (source : SourceKey) : WriterFile ⊕ Unit → ServerState ι → Prop
  | .inl v => Appending json storage utcDate faults source v
  | .inr () => Legible json storage utcDate faults source

theorem Intact.kept {r : WriterFile ⊕ Unit} (h : Intact json storage utcDate faults source r u) :
    Legible json storage utcDate faults source u := by
  cases r with
  | inl v => exact Appending.toLegible h
  | inr _ => exact h

/-- One turn of the loop. -/
theorem writerLoop_solo (hjson : CompactLawful json) {k : Nat} (A : Appending json storage utcDate faults source v u) :
    (Contract.solo (execFaultyAs faults env i) (Opens faults)).Holds (Intact json storage utcDate faults source)
      (writerLoop json storage utcDate k v) u := by
  unfold writerLoop
  refine Holds.solo_call fun x u₁ _ hx => ?_
  obtain ⟨hh, hx⟩ := execFaultyAs_other (by simp) hx
  have hdisk : u.state.disk.SameFiles u₁.state.disk := by
    rw [World.exec_disk (by simp) hx]
    exact ⟨rfl, rfl, rfl⟩
  have A₁ : Appending json storage utcDate faults source v u₁ :=
    A.same hdisk (by rw [hh]; exact .cons rfl _)
  cases x with
  | none =>
    refine Holds.bind (flushFile_solo fun u₂ hu₂ hidle => ?_)
    have K₂ : Legible json storage utcDate faults source u₂ :=
      A₁.toLegible.same (by rw [hu₂]; exact ⟨rfl, rfl, rfl⟩) hidle.unwritten
    refine Holds.solo_call fun _ u₃ _ hx => Holds.solo_done ?_
    obtain ⟨hh, hx⟩ := execFaultyAs_other (by simp) hx
    refine K₂.same ?_ (by rw [hh]; exact .cons rfl _)
    rw [World.exec_disk (by simp) hx]
    exact ⟨rfl, rfl, rfl⟩
  | some line =>
    refine Holds.solo_call fun t u₂ _ hx₂ => ?_
    obtain ⟨hh₂, hx₂⟩ := execFaultyAs_other (by simp) hx₂
    have hdisk₂ : u₁.state.disk.SameFiles u₂.state.disk := by
      rw [World.exec_disk (by simp) hx₂]
      exact ⟨rfl, rfl, rfl⟩
    have H : Holding json storage utcDate faults source line t v u₂ := by
      refine ⟨A₁.same hdisk₂ (by rw [hh₂]; exact .cons rfl _), ?_, ?_⟩
      · rw [hh₂, hh]
        rfl
      · rw [hh₂]
        rfl
    refine Holds.andThen (rotate_solo H) ?_
    rintro ⟨v', opened⟩ u₃ ⟨rfl, H', hdate⟩
    cases hfile : v'.file with
    | none =>
      have hnone : v'.date = none := H'.closed hfile
      rw [hnone] at hdate
      cases hdate
    | some g =>
      obtain ⟨happend, date, hdate', hpath⟩ := H'.handle g hfile
      obtain rfl := Option.some.inj (hdate.symm.trans hdate')
      show (Contract.solo _ _).Holds _ (appendLine json line v'.file >>= _) u₃
      rw [hfile]
      refine Holds.bind (appendLine_solo fun x w g' u₄ _ hx hinode happend' hdisk₄ hidle => ?_)
      obtain ⟨K, hsame⟩ := H'.toLegible.write hjson happend hpath H'.lastLine_eq H'.lastTime_eq hx
      have K₄ := K.same (by rw [hdisk₄]; exact ⟨rfl, rfl, rfl⟩) hidle.unwritten
      refine Holds.solo_done ⟨K₄, H'.source_eq, nofun, ?_⟩
      intro g'' hg''
      obtain rfl := Option.some.inj hg''
      refine ⟨happend'.trans happend, _, hdate, ?_⟩
      rw [hdisk₄, hsame, hinode]
      exact hpath

/-- **A write that fails damages its own line** and the one that is refused for it: a line whose write is answered
with success and does not fail afterwards is a line of the file of its day, unless an earlier one has left a part of
itself there. -/
theorem lines_intact (hjson : CompactLawful json) {k : Nat} {c : Channel} {w : ServerState ι}
    (hc : w.state.writers[k]? = some c) (hw : w.history = []) (hnumbered : w.state.disk.Numbered)
    (hwhole : ∀ date, Ended ((w.state.disk.content (storage.logFile c.source date)).getD [])) {r : WriterFile ⊕ Unit}
    (h : (writer json storage utcDate k).Reaches (execFaultyAs faults env i) (Opens faults) w r u)
    {e : ServerEvent ι} {before : List (ServerEvent ι)} {n : Nat} (he : e :: before <:+ u.history)
    (hok : writtenTo e = some n) (hclear : faults before.length = none) (htorn : ¬ Torn faults n before) :
    ∃ line t, lastLine before = some line ∧ lastTime before = some t ∧
      HasLine ((u.state.disk.content (storage.logFile c.source (utcDate t))).getD []) (json.write line) ∧
        ∀ record, line = logRecordJson record → json.read (json.write line) = some (logRecordJson record) := by
  have hstart : Legible json storage utcDate faults c.source w := by
    refine ⟨hnumbered, fun date n hn _ => ?_, fun _ _ _ hs => ?_⟩
    · have h := hwhole date
      rwa [Disk.content, hn] at h
    · rw [hw, List.suffix_nil] at hs
      cases hs
  have K : Legible json storage utcDate faults c.source u := by
    refine Intact.kept (Task.Reaches.invariant ?_ (fun v u A => writerLoop_solo hjson A) h)
    refine Holds.solo_call fun x u₁ _ hx => Holds.solo_done ?_
    obtain ⟨hh, hx⟩ := execFaultyAs_other (by simp) hx
    obtain ⟨c', hc', hx⟩ := Option.map_eq_some_iff.mp hx
    obtain rfl := Option.some.inj (hc.symm.trans hc')
    obtain ⟨rfl, hu⟩ := Prod.mk.inj hx
    refine ⟨hstart.same (by rw [← hu]; exact ⟨rfl, rfl, rfl⟩) ?_, rfl, fun _ => rfl, fun _ h => by cases h⟩
    rw [hh]
    exact .cons rfl _
  obtain ⟨line, t, hline, htime, hkept⟩ := K.present e before n he hok hclear htorn
  refine ⟨line, t, hline, htime, hkept, fun record hrecord => ?_⟩
  rw [hrecord, hjson.read]

end Writes

/-! Three lines of one day, the first of which fails. -/

def firstLine : Json := logRecordJson (sampleRecord "first")

def secondLine : Json := logRecordJson (sampleRecord "second")

def thirdLine : Json := logRecordJson (sampleRecord "third")

/-- A channel with some lines, and nobody to send more. -/
def waiting (lines : List Json) : ServerState Unit :=
  ⟨⟨.empty, fun _ => none, [⟨LogSystem.sampleSource, lines, 0, false, false⟩]⟩, []⟩

abbrev sampleWriter : Task serverInterface Unit := writer LogSystem.sampleLogs.json ⟨["data"]⟩ LogSystem.dayAt 0

/-- The write of the first line fails after some bytes. -/
def firstTorn (written : Nat) : Faults := fun n => if n = 5 then some ⟨.other, written⟩ else none

def sampleLog : Path := StoragePaths.logFile ⟨["data"]⟩ LogSystem.sampleSource (LogSystem.dayAt 0)

/-- The call before the last `k` is a write of the line, and was answered with success. A line is known by its text. -/
def handedCheck (line : Json) (k : Nat) (h : List (ServerEvent Unit)) : Bool :=
  match h.drop k with
  | [] => false
  | e :: before => (writtenTo e).isSome && lastTime before = some 0 &&
      (lastLine before).map LogSystem.sampleLogs.json.write = some (LogSystem.sampleLogs.json.write line)

theorem handed_of_check {line : Json} {k : Nat} {h : List (ServerEvent Unit)} (hk : handedCheck line k h = true) :
    ∃ e before, e :: before <:+ h ∧ (writtenTo e).isSome = true ∧ before.length = h.length - (k + 1) ∧
      lastLine before = some line ∧ lastTime before = some 0 := by
  unfold handedCheck at hk
  split at hk
  · cases hk
  · next e before hdrop =>
    simp only [Bool.and_eq_true, decide_eq_true_eq] at hk
    obtain ⟨⟨he, ht⟩, hline⟩ := hk
    refine ⟨e, before, hdrop ▸ List.drop_suffix .., he, ?_, ?_, ht⟩
    · have := congrArg List.length hdrop
      simp only [List.length_drop, List.length_cons] at this
      omega
    · obtain ⟨line', hl, hwrite⟩ := Option.map_eq_some_iff.mp hline
      have hread := congrArg LogSystem.sampleLogs.json.read hwrite
      rw [show LogSystem.sampleLogs.json.read (LogSystem.sampleLogs.json.write line') = some line' from
          JsonText.read_print .compact line',
        show LogSystem.sampleLogs.json.read (LogSystem.sampleLogs.json.write line) = some line from
          JsonText.read_print .compact line] at hread
      rw [hl, Option.some.inj hread]

def opensCheck (faults : Faults) (op : ServerOp) (w : ServerState Unit) : Bool :=
  match op with
  | .file (.createDirAll _) | .file (.openAppend _) => (faults w.history.length).isNone
  | _ => true

theorem opens_of_check {faults : Faults} (op : ServerOp) (w : ServerState Unit) (h : opensCheck faults op w = true) :
    Opens faults op w := by
  unfold Opens
  split
  · exact Option.isNone_iff_eq_none.mp h
  · exact Option.isNone_iff_eq_none.mp h
  · trivial

/-- The first line is lost although its write was answered with success, and the third, whose write did not fail, is
glued to what the first has left. -/
theorem thirdLine_glued : ∃ r u,
    sampleWriter.Reaches (execFaultyAs (firstTorn 1) stillEnv ()) (Opens (firstTorn 1))
      (waiting [firstLine, secondLine, thirdLine]) r u ∧
    ∀ line ∈ [firstLine, thirdLine],
      (∃ e before, e :: before <:+ u.history ∧ (writtenTo e).isSome = true ∧ lastLine before = some line ∧
        lastTime before = some 0) ∧
      ¬ HasLine ((u.state.disk.content sampleLog).getD []) (LogSystem.sampleLogs.json.write line) := by
  have hrun : (sampleWriter.turns (execFaultyAs (firstTorn 1) stillEnv ()) (opensCheck (firstTorn 1)) 3
      (waiting [firstLine, secondLine, thirdLine])).any (fun x =>
        handedCheck firstLine 7 x.2.history && handedCheck thirdLine 0 x.2.history &&
        x.2.state.disk.content sampleLog =
          some (0x7b :: LogSystem.sampleLogs.json.write thirdLine ++ [0x0a])) = true := by decide +kernel
  obtain ⟨⟨r, u⟩, hx, hp⟩ := (Option.any_eq_true _ _).mp hrun
  simp only [Bool.and_eq_true, decide_eq_true_eq] at hp
  obtain ⟨⟨hfirst, hthird⟩, hcontent⟩ := hp
  have hfree : 0x0a ∉ 0x7b :: LogSystem.sampleLogs.json.write thirdLine := by
    rw [List.mem_cons, not_or]
    exact ⟨by decide, LogSystem.sample_lawful.newline _⟩
  have hother : ∀ line ∈ [firstLine, thirdLine],
      LogSystem.sampleLogs.json.write line ≠ 0x7b :: LogSystem.sampleLogs.json.write thirdLine := by
    intro line hline heq
    have hlength := congrArg List.length heq
    have hsame : (LogSystem.sampleLogs.json.write firstLine).length =
      (LogSystem.sampleLogs.json.write thirdLine).length := by decide +kernel
    rcases List.mem_pair.mp hline with rfl | rfl <;> simp only [List.length_cons] at hlength <;> omega
  refine ⟨r, u, Task.reaches_of_turns opens_of_check hx, fun line hline => ⟨?_, fun h => ?_⟩⟩
  · obtain ⟨k, hk⟩ : ∃ k, handedCheck line k u.history = true := by
      rcases List.mem_pair.mp hline with rfl | rfl
      · exact ⟨7, hfirst⟩
      · exact ⟨0, hthird⟩
    obtain ⟨e, before, hs, he, -, hl, ht⟩ := handed_of_check hk
    exact ⟨e, before, hs, he, hl, ht⟩
  · rw [hcontent] at h
    exact hother line hline (h.eq_of_single hfree)

theorem not_torn_of_written {faults : Faults} (hf : ∀ n fault, faults n = some fault → fault.written = 0) (n : Nat)
    (h : List (ServerEvent ι)) : ¬ Torn faults n h := by
  induction h with
  | nil => exact id
  | cons e h ih =>
    rw [Torn, not_or]
    refine ⟨?_, ih⟩
    split
    · rintro ⟨-, -, fault, hfault, htorn⟩
      rw [Fault.torn, hf _ fault hfault] at htorn
      exact htorn rfl
    · exact id

theorem firstTorn_written (n : Nat) (fault : Fault) (h : firstTorn 0 n = some fault) : fault.written = 0 := by
  unfold firstTorn at h
  split at h
  · exact Option.some.inj h ▸ rfl
  · cases h

/-- Where the first line leaves nothing, the second is refused and the third is there. -/
theorem lines_intact_third : ∃ r u,
    sampleWriter.Reaches (execFaultyAs (firstTorn 0) stillEnv ()) (Opens (firstTorn 0))
      (waiting [firstLine, secondLine, thirdLine]) r u ∧
    (∃ error, owed (firstTorn 0) 0 (u.history.drop 5) = some error) ∧
    HasLine ((u.state.disk.content sampleLog).getD []) (LogSystem.sampleLogs.json.write thirdLine) := by
  have hrun : (sampleWriter.turns (execFaultyAs (firstTorn 0) stillEnv ()) (opensCheck (firstTorn 0)) 3
      (waiting [firstLine, secondLine, thirdLine])).any (fun x => handedCheck thirdLine 0 x.2.history &&
        x.2.history.length = 13 && (owed (firstTorn 0) 0 (x.2.history.drop 5)).isSome) = true := by decide +kernel
  obtain ⟨⟨r, u⟩, hx, hp⟩ := (Option.any_eq_true _ _).mp hrun
  simp only [Bool.and_eq_true, decide_eq_true_eq] at hp
  obtain ⟨⟨hthird, hlength⟩, howed⟩ := hp
  obtain ⟨e, before, hs, he, hbefore, hline, htime⟩ := handed_of_check hthird
  obtain ⟨n, hn⟩ := Option.isSome_iff_exists.mp he
  have hreach := Task.reaches_of_turns opens_of_check hx
  have hchannel : (waiting [firstLine, secondLine, thirdLine]).state.writers[0]? =
      some ⟨LogSystem.sampleSource, [firstLine, secondLine, thirdLine], 0, false, false⟩ := rfl
  have hnumbered : (waiting [firstLine, secondLine, thirdLine]).state.disk.Numbered := fun _ _ h => by cases h
  have hclear : firstTorn 0 before.length = none := by
    rw [hbefore, hlength]
    rfl
  obtain ⟨line, t, hl, ht, hkept, -⟩ := lines_intact LogSystem.sample_lawful hchannel rfl hnumbered (fun _ => .inl rfl)
    hreach hs hn hclear (not_torn_of_written firstTorn_written n before)
  obtain rfl := Option.some.inj (hl.symm.trans hline)
  obtain rfl := Option.some.inj (ht.symm.trans htime)
  exact ⟨r, u, hreach, Option.isSome_iff_exists.mp howed, hkept⟩

end Detritus.Server
