import Detritus.Process.Solo
import Detritus.Server.Grammar

/-! What an upload leaves of its parts.

Between two requests the crash store is at rest: no file of it has a second name, and no
temporary file has a name that is still to be issued. Storing a part keeps it so, whether
it succeeds or not, and does one thing to the blobs: `shelve`, which puts the bytes under
their digest unless something is there. -/
namespace Detritus.Server
open Files Protocol Process Contract
variable {s : Sha256}

/-! ### Paths -/

namespace StoragePaths
variable (P : StoragePaths)

/-- The directory of blobs and indexes. -/
def crashesDir : Path := P.dataDir.join "crashes"

theorem crashesDir_eq : P.crashesDir = P.dataDir ++ ["crashes"] :=
  Component.join ⟨by decide, by decide, by decide⟩ _

theorem crashesDir_bySource : P.crashesDir <+: P.bySource := by
  rw [crashesDir_eq, bySource_eq, List.prefix_append_right_inj]
  simp [List.cons_prefix_cons]

theorem crashesDir_not_tempPath (u : Uuid) : ¬ P.crashesDir <+: P.tempPath u := by
  simp [crashesDir_eq, tempPath_eq, List.prefix_append_right_inj, List.cons_prefix_cons]

end StoragePaths

/-! ### Handlers by themselves -/

section Lone
variable {ι ε α : Type} {env : Env} {i : ι} {w : ServerState ι} {Q : α → ServerState ι → Prop}
  {E : ε → ServerState ι → Prop} {op : FileOp}

/-- A handler by itself. -/
abbrev lone (env : Env) (i : ι) : Contract serverInterface (ServerState ι) :=
  Contract.solo (execAs env i) fun _ _ => True

theorem execAs_file {x : op.Answer} {t : ServerState ι} (h : execAs env i (.file op) w = some (x, t)) :
    (w.execFile env op).1 = x ∧ t = w.after env i op := by
  obtain ⟨hexec, hh⟩ := record_eq_some.mp h
  obtain ⟨rfl, hstate⟩ := World.exec_file.mp hexec
  refine ⟨rfl, ?_⟩
  cases t
  simp only at hstate hh
  rw [ServerState.after, hstate, hh]
  rfl

theorem file_lone {wrap : IoError → ε} {f : op.Value → Handler ε α}
    (hok : ∀ v, (w.execFile env op).1 = .ok v → (lone env i).Yields Q E (f v) (w.after env i op))
    (herror : ∀ e, (w.execFile env op).1 = .error e → E (wrap e) (w.after env i op)) :
    (lone env i).Yields Q E (file wrap op >>= f) w := by
  refine Yields.solo_step fun x t _ hx => ?_
  obtain ⟨hanswer, rfl⟩ := execAs_file hx
  cases x with
  | ok v => exact hok v hanswer
  | error e => exact herror e hanswer

theorem attempt_lone {f : op.Answer → Handler ε α}
    (h : (lone env i).Yields Q E (f (w.execFile env op).1) (w.after env i op)) :
    (lone env i).Yields Q E (attempt op >>= f) w := by
  refine Yields.solo_step fun x t _ hx => ?_
  obtain ⟨rfl, rfl⟩ := execAs_file hx
  exact h

/-- A call that is not about files leaves them alone. -/
theorem call_lone {op : ServerOp} {f : op.Answer → Handler ε α} (hop : ∀ o, op ≠ .file o)
    (h : ∀ (x : op.Answer) (t : ServerState ι), t.state.disk = w.state.disk →
      t.history = ⟨i, op, x⟩ :: w.history → World.exec env w.history.length op w.state = some (x, t.state) →
      (lone env i).Yields Q E (f x) t) :
    (lone env i).Yields Q E (call op >>= f) w := by
  refine Yields.solo_step fun x t _ hx => ?_
  obtain ⟨hexec, hh⟩ := record_eq_some.mp hx
  exact h x t (World.exec_disk hop hexec) hh hexec

theorem lift_lone {β : Type} {r : Except ε β} {f : β → Handler ε α}
    (hok : ∀ b, r = .ok b → (lone env i).Yields Q E (f b) w) (herror : ∀ e, r = .error e → E e w) :
    (lone env i).Yields Q E (liftExcept r >>= f) w := by
  cases r with
  | ok b => exact hok b rfl
  | error e => exact Holds.solo_done (herror e rfl)

theorem throw_lone {e : ε} (h : E e w) : (lone env i).Yields Q E (throw e : Handler ε α) w :=
  Holds.solo_done h

/-- What the rules say of a run. -/
theorem yields_alone {p : Handler ε α} {t : ServerState ι} {r : Except ε α} (h : (lone env i).Yields Q E p w)
    (hr : p.alone env i w = some (r, t)) : Contract.Outcome Q E r t :=
  Holds.run h
    (Program.Meets.of_invariant (I := fun _ => True) (fun _ _ _ => trivial) (fun _ _ _ _ _ _ => trivial) _ trivial) hr

end Lone

/-! ### The store at rest -/

section Rest
variable {ι : Type} {env : Env} {P : StoragePaths} {w t : ServerState ι} {C : Crates}

structure AtRest (env : Env) (P : StoragePaths) (w : ServerState ι) : Prop where
  tidy : w.state.disk.Tidy P.crashesDir
  dirs : ∀ s : Sha256, (w.state.disk.dir (P.blobPath s.hex)).isSome = false
  temps : ∀ n u, w.history.length ≤ n → env.uuid n = some u → w.state.disk.file (P.tempPath u) = none

/-- The blobs by their digests. -/
def blobs (P : StoragePaths) (d : Disk) (s : Sha256) : Option Bytes := d.content (P.blobPath s.hex)

/-- Bytes under their digest, unless there are some. -/
def shelve (C : Crates) (b : Sha256 → Option Bytes) (bytes : Bytes) : Sha256 → Option Bytes :=
  Function.update b (C.sha256 bytes) (some ((b (C.sha256 bytes)).getD bytes))

theorem AtRest.knows_eq (h : AtRest env P w) (s : Sha256) : knows P w.state.disk s = (blobs P w.state.disk s).isSome := by
  rw [knows, Disk.occupied, h.dirs s, Bool.or_false, blobs, Disk.content, Option.isSome_map]

/-- The store does not change and the calls go on. -/
theorem AtRest.later (h : AtRest env P w) (hfile : t.state.disk.file = w.state.disk.file)
    (hnext : w.state.disk.next ≤ t.state.disk.next)
    (hdirs : ∀ s : Sha256, (t.state.disk.dir (P.blobPath s.hex)).isSome = (w.state.disk.dir (P.blobPath s.hex)).isSome)
    (hcalls : w.history.length ≤ t.history.length) : AtRest env P t where
  tidy := by
    refine ⟨fun p n hp => ?_, fun p q n hp hn hm => ?_⟩
    · rw [hfile] at hp
      exact Nat.lt_of_lt_of_le (h.tidy.numbered p n hp) hnext
    · rw [hfile] at hn hm
      exact h.tidy.own p q n hp hn hm
  dirs s := (hdirs s).trans (h.dirs s)
  temps n u hn hu := by
    rw [hfile]
    exact h.temps n u (Nat.le_trans hcalls hn) hu

/-! ### A part on its way -/

/-- A temporary file holds `bytes`, and nothing else has changed since `d`. -/
structure Filling (P : StoragePaths) (d : Disk) (u : Uuid) (handle : Handle) (bytes : Bytes) (e : Disk) : Prop where
  file : e.file = Function.update d.file (P.tempPath u) (some d.next)
  inode : ∀ n, n ≠ d.next → e.inode n = d.inode n
  content : (e.inode d.next).content = bytes
  next : e.next = d.next + 1
  dirs : ∀ s : Sha256, (e.dir (P.blobPath s.hex)).isSome = false
  handle : handle = ⟨d.next, bytes.length, false⟩

/-- A part is stored: a new blob, or the one that was there. -/
structure Shelved (P : StoragePaths) (s : Sha256) (bytes : Bytes) (d e : Disk) : Prop where
  file : ∀ q, e.file q = if q = P.blobPath s.hex then some ((d.file q).getD d.next) else d.file q
  inode : ∀ n, n ≠ d.next → e.inode n = d.inode n
  content : (e.inode d.next).content = bytes
  next : e.next = d.next + 1
  dirs : ∀ s : Sha256, (e.dir (P.blobPath s.hex)).isSome = false

theorem tempPath_ne_blobPath (P : StoragePaths) (u : Uuid) (s : Sha256) : P.tempPath u ≠ P.blobPath s.hex :=
  (blobPath_ne_tempPath P s u).symm

/-- A file that is not the new one keeps its content. -/
theorem content_of_inode {d e : Disk} (hd : d.Numbered) (hinode : ∀ n, n ≠ d.next → e.inode n = d.inode n) {q : Path}
    (hq : e.file q = d.file q) : e.content q = d.content q := by
  unfold Disk.content
  rw [hq]
  cases hn : d.file q with
  | none => rfl
  | some n => rw [Option.map_some, hinode n (Nat.ne_of_lt (hd q n hn)), Option.map_some]

section Filling
variable {d e : Disk} {u : Uuid} {handle : Handle} {bytes : Bytes}

theorem Shelved.blobs_eq (hd : d.Numbered) (h : Shelved P (C.sha256 bytes) bytes d e) :
    blobs P e = shelve C (blobs P d) bytes := by
  funext s
  unfold shelve
  by_cases hs : s = C.sha256 bytes
  · subst hs
    rw [Function.update_self]
    unfold blobs Disk.content
    rw [h.file, if_pos rfl]
    cases hn : d.file (P.blobPath (C.sha256 bytes).hex) with
    | none => simp [h.content]
    | some n => simp [h.inode n (Nat.ne_of_lt (hd _ n hn))]
  · rw [Function.update_of_ne hs]
    refine content_of_inode hd h.inode ((h.file _).trans (if_neg fun heq => hs ?_))
    exact P.blobPath_injective heq

theorem Shelved.tidy (hd : d.Tidy P.crashesDir) (h : Shelved P s bytes d e) : e.Tidy P.crashesDir := by
  have hfile : ∀ q n, e.file q = some n → d.file q = some n ∨ q = P.blobPath s.hex ∧ n = d.next := by
    intro q n hq
    rw [h.file] at hq
    split at hq
    · next hblob =>
      cases hn : d.file q with
      | none =>
        rw [hn] at hq
        exact .inr ⟨hblob, (Option.some.inj hq).symm⟩
      | some m =>
        rw [hn] at hq
        exact .inl hq
    · exact .inl hq
  refine ⟨fun q n hq => ?_, fun p q n hp hn hm => ?_⟩
  · rw [h.next]
    rcases hfile q n hq with hq | ⟨-, rfl⟩
    · exact Nat.lt_succ_of_lt (hd.numbered q n hq)
    · exact Nat.lt_succ_self _
  · rcases hfile p n hn with hn | ⟨rfl, rfl⟩ <;> rcases hfile q _ hm with hm | ⟨rfl, hnext⟩
    · exact hd.own p q n hp hn hm
    · exact absurd (hd.numbered p n hn) (hnext ▸ Nat.lt_irrefl _)
    · exact absurd (hd.numbered q _ hm) (Nat.lt_irrefl _)
    · rfl

theorem Filling.tidy (hd : d.Tidy P.crashesDir) (h : Filling P d u handle bytes e) : e.Tidy P.crashesDir := by
  have hfile : ∀ q n, e.file q = some n → d.file q = some n ∨ q = P.tempPath u ∧ n = d.next := by
    intro q n hq
    rw [h.file] at hq
    by_cases htemp : q = P.tempPath u
    · subst htemp
      rw [Function.update_self] at hq
      exact .inr ⟨rfl, (Option.some.inj hq).symm⟩
    · rw [Function.update_of_ne htemp] at hq
      exact .inl hq
  refine ⟨fun q n hq => ?_, fun p q n hp hn hm => ?_⟩
  · rw [h.next]
    rcases hfile q n hq with hq | ⟨-, rfl⟩
    · exact Nat.lt_succ_of_lt (hd.numbered q n hq)
    · exact Nat.lt_succ_self _
  · rcases hfile p n hn with hn | ⟨rfl, -⟩
    · rcases hfile q n hm with hm | ⟨-, rfl⟩
      · exact hd.own p q n hp hn hm
      · exact absurd (hd.numbered p _ hn) (Nat.lt_irrefl _)
    · exact absurd hp (P.crashesDir_not_tempPath u)

theorem Filling.fresh (now : Time) (hdirs : ∀ s : Sha256, (d.dir (P.blobPath s.hex)).isSome = false) :
    Filling P d u ⟨d.next, 0, false⟩ [] (d.fresh (P.tempPath u) now) where
  file := rfl
  inode _ hn := Function.update_of_ne hn ..
  content := by rw [Disk.fresh_inode, Function.update_self]
  next := rfl
  dirs s := by rw [Disk.fresh_dir, hdirs s]
  handle := rfl

theorem Filling.write (h : Filling P d u handle bytes e) (chunk : Bytes) (now : Time) :
    Filling P d u (e.write handle chunk now).1 (bytes ++ chunk) (e.write handle chunk now).2 := by
  obtain rfl := h.handle
  have hposition : e.position ⟨d.next, bytes.length, false⟩ = bytes.length := rfl
  refine ⟨h.file, fun n hn => ?_, ?_, h.next, h.dirs, ?_⟩
  · exact (Function.update_of_ne hn ..).trans (h.inode n hn)
  · show (Function.update e.inode d.next _ d.next).content = _
    rw [Function.update_self]
    show overlay (e.inode d.next).content (e.position ⟨d.next, bytes.length, false⟩) chunk = _
    rw [hposition, h.content, overlay_end]
  · show (⟨d.next, e.position ⟨d.next, bytes.length, false⟩ + chunk.length, false⟩ : Handle) = _
    rw [hposition, List.length_append]

theorem Filling.temp (h : Filling P d u handle bytes e) : e.file (P.tempPath u) = some d.next := by
  rw [h.file, Function.update_self]

/-- The temporary file goes again. -/
theorem Filling.removed (hd : d.file (P.tempPath u) = none) (h : Filling P d u handle bytes e) (now : Time) :
    (e.removeFile (P.tempPath u) now).2.file = d.file ∧ d.next ≤ (e.removeFile (P.tempPath u) now).2.next := by
  rw [Disk.removeFile_some h.temp]
  constructor
  · rw [Disk.touch_file, Disk.unlink_file, h.file, Function.update_idem, ← hd, Function.update_eq_self]
  · rw [Disk.touch_next, Disk.unlink_next, h.next]
    exact Nat.le_succ _

/-- It goes because the blob is there. -/
theorem Filling.shelved_known (hd : d.file (P.tempPath u) = none) (h : Filling P d u handle bytes e)
    (hknown : (d.file (P.blobPath s.hex)).isSome = true) (now : Time) :
    Shelved P s bytes d (e.removeFile (P.tempPath u) now).2 := by
  have hfile := (h.removed hd now).1
  rw [Disk.removeFile_some h.temp] at hfile ⊢
  refine ⟨fun q => ?_, h.inode, h.content, h.next, fun s => ?_⟩
  · rw [hfile]
    split
    · next hq =>
      obtain ⟨n, hn⟩ := Option.isSome_iff_exists.mp hknown
      rw [hq, hn]
      rfl
    · rfl
  · rw [Disk.touch_dir, Disk.unlink_dir, h.dirs s]

/-- It becomes the blob. -/
theorem Filling.shelved_new (hd : d.file (P.tempPath u) = none) (h : Filling P d u handle bytes e)
    (hnew : d.file (P.blobPath s.hex) = none) (now later : Time) :
    Shelved P s bytes d
      ((((e.link (P.blobPath s.hex) d.next).touch (P.blobPath s.hex) now).removeFile (P.tempPath u) later).2) := by
  have htemp : ((e.link (P.blobPath s.hex) d.next).touch (P.blobPath s.hex) now).file (P.tempPath u) = some d.next := by
    rw [Disk.touch_file, Disk.link_file, Function.update_of_ne (tempPath_ne_blobPath P u s), h.temp]
  rw [Disk.removeFile_some htemp]
  refine ⟨fun q => ?_, h.inode, h.content, h.next, fun s => ?_⟩
  · rw [Disk.touch_file, Disk.unlink_file, Disk.touch_file, Disk.link_file, h.file]
    by_cases hq : q = P.tempPath u
    · rw [hq, Function.update_self, if_neg (tempPath_ne_blobPath P u s), hd]
    · rw [Function.update_of_ne hq]
      split
      · next hblob =>
        rw [hblob, Function.update_self, hnew]
        rfl
      · next hblob => rw [Function.update_of_ne hblob, Function.update_of_ne hq]
  · rw [Disk.touch_dir, Disk.unlink_dir, Disk.touch_dir, Disk.link_dir, h.dirs s]

end Filling

/-- The part that began at `w` has a temporary file of its own. -/
structure Midway (env : Env) (P : StoragePaths) (w : ServerState ι) (u : Uuid) (handle : Handle) (bytes : Bytes)
    (t : ServerState ι) : Prop where
  filling : Filling P w.state.disk u handle bytes t.state.disk
  issued : ∃ k, w.history.length ≤ k ∧ k < t.history.length ∧ env.uuid k = some u

theorem Midway.free {u : Uuid} {handle : Handle} {bytes : Bytes} (hw : AtRest env P w)
    (h : Midway env P w u handle bytes t) : w.state.disk.file (P.tempPath u) = none := by
  obtain ⟨k, hk, -, hu⟩ := h.issued
  exact hw.temps k u hk hu

theorem Midway.calls {u : Uuid} {handle : Handle} {bytes : Bytes} (h : Midway env P w u handle bytes t) :
    w.history.length ≤ t.history.length := by
  obtain ⟨k, hk, hkt, -⟩ := h.issued
  omega

/-- A call that leaves the temporary file alone. -/
theorem Midway.same {u : Uuid} {handle : Handle} {bytes : Bytes} {v : ServerState ι}
    (h : Midway env P w u handle bytes t) (hfiles : t.state.disk.SameFiles v.state.disk)
    (hdirs : ∀ s : Sha256, (v.state.disk.dir (P.blobPath s.hex)).isSome = (t.state.disk.dir (P.blobPath s.hex)).isSome)
    (hcalls : t.history.length ≤ v.history.length) : Midway env P w u handle bytes v where
  filling := by
    refine ⟨hfiles.file.trans h.filling.file, fun n hn => ?_, ?_, hfiles.next.trans h.filling.next, fun s => ?_,
      h.filling.handle⟩
    · rw [hfiles.inode, h.filling.inode n hn]
    · rw [hfiles.inode, h.filling.content]
    · rw [hdirs s, h.filling.dirs s]
  issued := by
    obtain ⟨k, hk, hkt, hu⟩ := h.issued
    exact ⟨k, hk, Nat.lt_of_lt_of_le hkt hcalls, hu⟩

/-- Since `w` these parts have been shelved, one after the other, and no index has changed. -/
structure Stocked (C : Crates) (env : Env) (P : StoragePaths) (parts : List Bytes) (w t : ServerState ι) : Prop where
  rest : AtRest env P t
  blobs : blobs P t.state.disk = parts.foldl (shelve C) (blobs P w.state.disk)
  indexes : ∀ q, P.bySource <+: q → t.state.disk.content q = w.state.disk.content q

theorem Stocked.refl (C : Crates) (hw : AtRest env P w) : Stocked C env P [] w w := ⟨hw, rfl, fun _ _ => rfl⟩

theorem Stocked.trans {v : ServerState ι} {a b : List Bytes} (h : Stocked C env P a w t)
    (h' : Stocked C env P b t v) : Stocked C env P (a ++ b) w v where
  rest := h'.rest
  blobs := by rw [h'.blobs, h.blobs, List.foldl_append]
  indexes q hq := (h'.indexes q hq).trans (h.indexes q hq)

/-- A call that is not about files. -/
theorem AtRest.call (C : Crates) {e : ServerEvent ι} (hw : AtRest env P w) (hdisk : t.state.disk = w.state.disk)
    (hh : t.history = e :: w.history) : Stocked C env P [] w t where
  rest := hw.later (by rw [hdisk]) (by rw [hdisk]) (fun s => by rw [hdisk]) (by rw [hh]; exact Nat.le_succ _)
  blobs := by rw [hdisk]; rfl
  indexes q _ := by rw [hdisk]

theorem Midway.atRest {u : Uuid} {handle : Handle} {bytes : Bytes} (hw : AtRest env P w)
    (h : Midway env P w u handle bytes t) : AtRest env P t where
  tidy := h.filling.tidy hw.tidy
  dirs := h.filling.dirs
  temps n v hn hv := by
    obtain ⟨k, hk, hkt, hu⟩ := h.issued
    have hne : v ≠ u := by
      rintro rfl
      have := env.fresh hu hv
      omega
    rw [h.filling.file, Function.update_of_ne fun heq => hne (P.tempPath_injective heq)]
    exact hw.temps n v (by omega) hv

theorem Midway.nothing (C : Crates) {u : Uuid} {handle : Handle} {bytes : Bytes} (hw : AtRest env P w)
    (h : Midway env P w u handle bytes t) : Stocked C env P [] w t := by
  have hsame : ∀ q, q ≠ P.tempPath u → t.state.disk.content q = w.state.disk.content q := by
    intro q hq
    refine content_of_inode hw.tidy.numbered h.filling.inode ?_
    rw [h.filling.file, Function.update_of_ne hq]
  refine ⟨h.atRest hw, funext fun s => hsame _ (blobPath_ne_tempPath P s u), fun q hq => hsame q ?_⟩
  rintro rfl
  exact P.bySource_not_tempPath u hq

/-- The temporary file is removed. -/
theorem Midway.removed (C : Crates) {u : Uuid} {handle : Handle} {bytes : Bytes} (hw : AtRest env P w)
    (h : Midway env P w u handle bytes t) (i : ι) :
    Stocked C env P [] w (t.after env i (.removeFile (P.tempPath u))) := by
  obtain ⟨hfile, hnext⟩ := h.filling.removed (h.free hw) (env.clock t.history.length)
  have hsame : ∀ q, (t.after env i (.removeFile (P.tempPath u))).state.disk.content q = w.state.disk.content q := by
    intro q
    refine content_of_inode hw.tidy.numbered (fun n hn => ?_) (congrFun hfile _)
    show (t.state.disk.removeFile _ _).2.inode n = _
    rw [Disk.removeFile_inode, h.filling.inode n hn]
  refine ⟨hw.later hfile hnext (fun s => ?_) (Nat.le_succ_of_le h.calls), funext fun s => hsame _, fun q _ => hsame q⟩
  show ((t.state.disk.removeFile _ _).2.dir _).isSome = _
  rw [Disk.removeFile_dir, h.filling.dirs s, hw.dirs s]

theorem Shelved.stocked {bytes : Bytes} (hw : AtRest env P w)
    (h : Shelved P (C.sha256 bytes) bytes w.state.disk t.state.disk) (hcalls : w.history.length ≤ t.history.length) :
    Stocked C env P [bytes] w t where
  rest := by
    refine ⟨h.tidy hw.tidy, h.dirs, fun n u hn hu => ?_⟩
    rw [h.file, if_neg (tempPath_ne_blobPath P u _)]
    exact hw.temps n u (Nat.le_trans hcalls hn) hu
  blobs := h.blobs_eq hw.tidy.numbered
  indexes q hq := by
    refine content_of_inode hw.tidy.numbered h.inode ((h.file q).trans (if_neg ?_))
    rintro rfl
    exact P.bySource_not_blobPath _ hq

end Rest

/-! ### Storing a part -/

section Parts
variable {ι : Type} {env : Env} {i : ι} {C : Crates} {state : AppState} {w t : ServerState ι} {u : Uuid}
  {bytes : Bytes}

/-- The chunks of a part go to its temporary file. -/
theorem writeChunks_fills (C : Crates) (failure : Option MultipartError) (chunks : List Bytes) (handle : Handle)
    (written : Bytes) (hw : AtRest env state.storage w) (h : Midway env state.storage w u handle written t) :
    (lone env i).Yields (fun r v => r.2 = written ++ chunks.flatten ∧ Midway env state.storage w u r.1 r.2 v)
      (fun _ v => Stocked C env state.storage [] w v)
      (writeChunks state (state.storage.tempPath u) failure chunks handle written) t := by
  induction chunks generalizing handle written t with
  | nil =>
    unfold writeChunks
    cases failure with
    | some error => exact throw_lone (h.nothing C hw)
    | none => exact Yields.solo_pure ⟨by simp, h⟩
  | cons chunk rest ih =>
    unfold writeChunks
    split
    · exact attempt_lone (throw_lone (h.removed C hw i))
    · refine file_lone (fun handle' hv => ?_) fun e he => by cases he
      obtain rfl : (t.state.disk.write handle chunk (env.clock t.history.length)).1 = handle' := Except.ok.inj hv
      refine Yields.mono (ih _ (written ++ chunk) ⟨h.filling.write chunk _, ?_⟩) ?_ fun _ _ h => h
      · obtain ⟨k, hk, hkt, hu⟩ := h.issued
        exact ⟨k, hk, Nat.lt_succ_of_lt hkt, hu⟩
      · rintro r v ⟨hr, hv⟩
        exact ⟨by rw [hr]; simp, hv⟩

theorem placeBlob_shelves {handle : Handle} (s : Sha256) (hw : AtRest env state.storage w)
    (h : Midway env state.storage w u handle bytes t) :
    (lone env i).Yields (fun dedup v => dedup = knows state.storage w.state.disk s ∧
        Shelved state.storage s bytes w.state.disk v.state.disk ∧ t.history.length ≤ v.history.length)
      (fun _ _ => False) (placeBlob (state.storage.tempPath u) (state.storage.blobPath s.hex)) t := by
  let P := state.storage
  have hfree := h.free hw
  -- whether there is a blob is as it was when the part began
  have hknows : knows P w.state.disk s = (w.state.disk.file (P.blobPath s.hex)).isSome := by
    rw [knows, Disk.occupied, hw.dirs s, Bool.or_false]
  have hoccupied : t.state.disk.occupied (P.blobPath s.hex) = knows P w.state.disk s := by
    rw [hknows, Disk.occupied, h.filling.dirs s, Bool.or_false, h.filling.file,
      Function.update_of_ne (tempPath_ne_blobPath P u s).symm]
  unfold placeBlob
  refine file_lone (fun taken htaken => ?_) fun e he => by cases he
  obtain rfl : t.state.disk.occupied (P.blobPath s.hex) = taken := Except.ok.inj htaken
  let t₁ := t.after env i (.tryExists (P.blobPath s.hex))
  have h₁ : Midway env P w u handle bytes t₁ := h.same ⟨rfl, rfl, rfl⟩ (fun _ => rfl) (Nat.le_succ _)
  have hremove : ∀ {v : ServerState ι}, v.state.disk.file (P.tempPath u) = some w.state.disk.next →
      (v.execFile env (.removeFile (P.tempPath u))).1 = .ok () := by
    intro v hv
    rw [ServerState.execFile_removeFile env v hv]
  cases htaken : t.state.disk.occupied (P.blobPath s.hex) with
  | true =>
    have hknown : knows P w.state.disk s = true := hoccupied.symm.trans htaken
    rw [if_pos rfl]
    refine file_lone (fun _ _ => Yields.solo_pure ⟨hknown.symm, ?_, ?_⟩) fun e he => ?_
    · exact h₁.filling.shelved_known hfree (hknows.symm.trans hknown) _
    · exact Nat.le_add_right _ 2
    · rw [hremove h₁.filling.temp] at he
      cases he
  | false =>
    have hunknown : knows P w.state.disk s = false := hoccupied.symm.trans htaken
    have hnew : w.state.disk.file (P.blobPath s.hex) = none := by
      rw [← Option.not_isSome_iff_eq_none, ← hknows, hunknown]
      exact Bool.false_ne_true
    have hlink := ServerState.execFile_hardLink env t₁ h₁.filling.temp htaken
    let t₂ := t₁.after env i (.hardLink (P.tempPath u) (P.blobPath s.hex))
    have hdisk : t₂.state.disk = (t₁.state.disk.link (P.blobPath s.hex) w.state.disk.next).touch (P.blobPath s.hex)
        (env.clock t₁.history.length) := by
      rw [ServerState.after_disk, hlink]
    have htemp : t₂.state.disk.file (P.tempPath u) = some w.state.disk.next := by
      rw [hdisk, Disk.touch_file, Disk.link_file, Function.update_of_ne (tempPath_ne_blobPath P u s), h₁.filling.temp]
    rw [if_neg Bool.false_ne_true]
    refine attempt_lone ?_
    rw [hlink]
    refine file_lone (fun _ _ => Yields.solo_pure ⟨hunknown.symm, ?_, ?_⟩) fun e he => ?_
    · show Shelved P s bytes w.state.disk (t₂.state.disk.removeFile (P.tempPath u) _).2
      rw [hdisk]
      exact h₁.filling.shelved_new hfree hnew _ _
    · exact Nat.le_add_right _ 3
    · rw [hremove htemp] at he
      cases he

theorem finalizeBlob_shelves {handle : Handle} (s : Sha256) (hw : AtRest env state.storage w)
    (h : Midway env state.storage w u handle bytes t) :
    (lone env i).Yields (fun r v =>
        r = (Path.display (state.storage.relativeToDataDir (state.storage.blobPath s.hex)),
          knows state.storage w.state.disk s) ∧
        Shelved state.storage s bytes w.state.disk v.state.disk ∧ t.history.length ≤ v.history.length)
      (fun _ _ => False) (finalizeBlob state (state.storage.tempPath u) s.hex) t := by
  unfold finalizeBlob
  refine call_lone (by simp) fun _ t₁ hdisk hh _ => ?_
  have hcalls : t₁.history.length = t.history.length + 1 := by rw [hh]; rfl
  have h₁ : Midway env state.storage w u handle bytes t₁ := by
    refine h.same ?_ (fun s => by rw [hdisk]) (by omega)
    rw [hdisk]
    exact ⟨rfl, rfl, rfl⟩
  refine file_lone (fun _ _ => ?_) fun e he => by cases he
  let t₂ := t₁.after env i (.createDirAll (state.storage.blobPath s.hex).parent)
  have h₂ : Midway env state.storage w u handle bytes t₂ := by
    refine h₁.same ⟨rfl, rfl, rfl⟩ (fun s' => ?_) (Nat.le_succ _)
    have hdir : t₂.state.disk.dir (state.storage.blobPath s'.hex) = t₁.state.disk.dir (state.storage.blobPath s'.hex) :=
      if_neg (state.storage.blobPath_not_parent s' s)
    rw [hdir]
  refine Yields.solo_andThen (placeBlob_shelves s hw h₂) ?_
  rintro dedup t₃ ⟨rfl, hshelved, hcalls₃⟩
  refine call_lone (by simp) fun _ v hv hh' _ => Yields.solo_pure ⟨rfl, hv ▸ hshelved, ?_⟩
  have hcalls₂ : t₁.history.length + 1 ≤ t₃.history.length := hcalls₃
  rw [hh', List.length_cons]
  omega

/-- **A part is shelved**, or refused; the store is at rest again. -/
theorem writePartToBlob_shelves (f : Field) (hw : AtRest env state.storage w) :
    (lone env i).Yields (fun p v => p = blobPointer C state.storage (knows state.storage w.state.disk) f ∧
        Stocked C env state.storage [f.bytes] w v)
      (fun _ v => Stocked C env state.storage [] w v) (writePartToBlob C state f) w := by
  unfold writePartToBlob
  refine file_lone (fun _ _ => ?_) fun e he => by cases he
  let w₁ := w.after env i (.createDirAll state.storage.tmpDir)
  have hdirs : ∀ s : Sha256, (w₁.state.disk.dir (state.storage.blobPath s.hex)).isSome = false := by
    intro s
    have hdir : w₁.state.disk.dir (state.storage.blobPath s.hex) = w.state.disk.dir (state.storage.blobPath s.hex) :=
      if_neg (state.storage.blobPath_not_tmpDir s)
    rw [hdir, hw.dirs s]
  refine call_lone (by simp) fun u w₂ hdisk hh hexec => ?_
  have hu : env.uuid (w.history.length + 1) = some u := World.exec_newUuid hexec
  have hcalls : w₂.history.length = w.history.length + 2 := by rw [hh]; rfl
  have hfree : w₂.state.disk.file (state.storage.tempPath u) = none := by
    rw [hdisk]
    exact hw.temps _ u (Nat.le_succ _) hu
  have hcreate := ServerState.execFile_create_none env w₂ hfree
  refine file_lone (fun handle hhandle => ?_) fun e he => by cases he
  obtain rfl : ⟨w₂.state.disk.next, 0, false⟩ = handle := by
    rw [hcreate] at hhandle
    exact Except.ok.inj hhandle
  let w₃ := w₂.after env i (.create (state.storage.tempPath u))
  have hfilling : Midway env state.storage w u ⟨w₂.state.disk.next, 0, false⟩ [] w₃ := by
    have hfresh : Filling state.storage w₁.state.disk u ⟨w₁.state.disk.next, 0, false⟩ []
        (w₁.state.disk.fresh (state.storage.tempPath u) (env.clock w₂.history.length)) := Filling.fresh _ hdirs
    refine ⟨?_, w.history.length + 1, Nat.le_succ _, ?_, hu⟩
    · rw [ServerState.after_disk, hcreate, hdisk]
      exact ⟨hfresh.file, hfresh.inode, hfresh.content, hfresh.next, hfresh.dirs, hfresh.handle⟩
    · show w.history.length + 1 < w₂.history.length + 1
      omega
  refine Yields.solo_andThen (writeChunks_fills C f.failure f.chunks _ [] hw hfilling) ?_
  rintro ⟨handle', bytes⟩ w₄ ⟨hbytes, h₄⟩
  obtain rfl : bytes = f.bytes := hbytes
  refine file_lone (fun _ _ => ?_) fun e he => by cases he
  let w₅ := w₄.after env i (.sync handle')
  have h₅ : Midway env state.storage w u handle' f.bytes w₅ := h₄.same ⟨rfl, rfl, rfl⟩ (fun _ => rfl) (Nat.le_succ _)
  refine Yields.solo_bind (Yields.mono (finalizeBlob_shelves _ hw h₅) ?_ fun _ _ h => h.elim)
  rintro _ v ⟨rfl, hshelved, hcalls'⟩
  exact Yields.solo_pure ⟨rfl, hshelved.stocked hw (Nat.le_trans h₅.calls hcalls')⟩

/-! ### The parts of an upload -/

theorem shelve_isSome (b : Sha256 → Option Bytes) (bytes : Bytes) (s : Sha256) :
    (shelve C b bytes s).isSome = ((b s).isSome || s = C.sha256 bytes) := by
  unfold shelve
  by_cases hs : s = C.sha256 bytes
  · subst hs
    simp
  · simp [hs]

/-- What is there is not replaced. -/
theorem foldl_shelve_some {b : Sha256 → Option Bytes} {x : Bytes} (parts : List Bytes) (h : b s = some x) :
    parts.foldl (shelve C) b s = some x := by
  induction parts generalizing b with
  | nil => exact h
  | cons bytes rest ih =>
    apply ih
    unfold shelve
    by_cases hs : s = C.sha256 bytes
    · subst hs
      rw [Function.update_self, h]
      rfl
    · rw [Function.update_of_ne hs, h]

theorem Stocked.knows_eq (hw : AtRest env state.storage w) (h : Stocked C env state.storage [bytes] w t) :
    knows state.storage t.state.disk =
      fun s => knows state.storage w.state.disk s || s = C.sha256 bytes := by
  funext s
  rw [h.rest.knows_eq, h.blobs, List.foldl_cons, List.foldl_nil, shelve_isSome, hw.knows_eq]

/-- The loop over the parts: all of them are shelved, or those before one that is refused. -/
theorem readParts_shelves (failure : Option MultipartError) (fs : List Field)
    (stored : Option BlobPointer × List AttachmentPointer) (hw : AtRest env state.storage w) :
    (lone env i).Yields
      (fun r v => r = pointers C state.storage (knows state.storage w.state.disk) fs stored ∧
        Stocked C env state.storage (fs.map Field.bytes) w v)
      (fun _ v => ∃ parts, parts <+: fs.map Field.bytes ∧ Stocked C env state.storage parts w v)
      (readParts C state failure fs stored.1 stored.2) w := by
  induction fs generalizing stored w with
  | nil =>
    unfold readParts
    cases failure with
    | some error => exact throw_lone ⟨[], List.nil_prefix, .refl C hw⟩
    | none => exact Yields.solo_pure ⟨rfl, .refl C hw⟩
  | cons f rest ih =>
    rw [readParts_cons]
    split
    · exact throw_lone ⟨[], List.nil_prefix, .refl C hw⟩
    · refine Yields.solo_bind (Yields.mono (writePartToBlob_shelves f hw) ?_ fun e v hv => ⟨[], List.nil_prefix, hv⟩)
      rintro _ v ⟨rfl, hv⟩
      refine Yields.mono (ih _ hv.rest) ?_ ?_
      · rintro r t ⟨rfl, ht⟩
        rw [hv.knows_eq hw]
        exact ⟨rfl, hv.trans ht⟩
      · rintro e t ⟨parts, hparts, ht⟩
        exact ⟨f.bytes :: parts, List.cons_prefix_cons.mpr ⟨rfl, hparts⟩, hv.trans ht⟩

end Parts

end Detritus.Server
