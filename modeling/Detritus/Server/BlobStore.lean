import Detritus.Server.CrashSystem

/-! What every step on the crash store keeps.

`Names` says what a path leads to: a temporary file was created at its own path, a
blob is a temporary file that was linked once its content had the digest in the
blob's name, an index was created at its own path. `Ledger` is about the history
alone, `Stored` about disk and history together. `Legal` is what a task may call and
when; a legal call keeps all three (`legal_inv`), does nothing to the others' temporary
files and touches no index without the history showing it (`legal_frame`), and leaves
every blob as it is unless it removes it (`legal_evolves`). -/
namespace Detritus.Server
open Files Protocol Process

namespace CrashSystem
variable {ι : Type} (Y : CrashSystem ι)

/-- How far below `by-source` the indexes are. -/
def indexDepth : Nat := Y.app.storage.bySource.length + 3

/-- What may be the path of an index: it has the name and the place of one, in directories that are there. -/
structure Spot (q : Path) (d : Disk) : Prop where
  below : Y.app.storage.bySource <+: q
  ext : hasExtension q "json" = true
  depth : q.length = Y.indexDepth
  way : ∀ p, Y.app.storage.bySource <+: p → p <+: q → p ≠ q → (d.dir p).isSome = true

/-- No directory is where a blob or an index would be. -/
structure Dirs (d : Disk) : Prop where
  blob : ∀ s, (d.dir (Y.blob s)).isSome = false
  shallow : ∀ p, Y.app.storage.bySource <+: p → (d.dir p).isSome = true → p.length < Y.indexDepth

/-- What a path leads to. -/
structure Names (d : Disk) (h : List (ServerEvent ι)) : Prop where
  next : ∀ p n, d.file p = some n → n < d.next
  temp : ∀ u n, d.file (Y.temp u) = some n → (d.inode n).origin = Y.temp u
  issued : ∀ u, (d.file (Y.temp u)).isSome = true → ∃ j, Issued j u h
  index : ∀ q n, Y.app.storage.bySource <+: q → d.file q = some n → (d.inode n).origin = q ∧ Y.Spot q d
  blob : ∀ q n, Y.app.storage.byHash <+: q → d.file q = some n → ∃ s u i, q = Y.blob s ∧
    (d.inode n).origin = Y.temp u ∧ Linked Y.app.storage i (Y.temp u) s h ∧
    Y.crates.sha256 (d.inode n).content = s ∧ Y.Part (d.inode n).content
  dirs : Y.Dirs d

/-- What the history is made of. -/
structure Ledger (h : List (ServerEvent ι)) : Prop where
  numbered : ∀ i u, Issued i u h → ∃ k < h.length, Y.env.uuid k = some u
  owner : ∀ i j u, Issued i u h → Issued j u h → i = j
  silent : h.Pairwise fun e f => answers f = true → e.task ≠ f.task
  linked : ∀ i temp s, Linked Y.app.storage i temp s h →
    ∃ u, temp = Y.temp u ∧ Issued i u h ∧ Began i temp s.hex h
  finalized : ∀ i temp sha b, Finalized i temp sha b h → ∃ u s, temp = Y.temp u ∧ sha = s.hex ∧
    Issued i u h ∧ Took Y.app.storage i s h ∧ (b = false ↔ Linked Y.app.storage i temp s h)
  once : ∀ temp, h.countP (finishes temp) ≤ 1
  openers : ∀ i, Opened Y.app.storage i h → ∃ token headers body, Y.jobs i = .upload token headers body

/-- Every digest of the index is one whose blob the task has taken. -/
def Taken (i : ι) (x : CrashIndex) (h : List (ServerEvent ι)) : Prop :=
  ∀ sha ∈ x.hashes, ∃ s, sha = s.hex ∧ Took Y.app.storage i s h

/-- A file that was opened and is empty, or one that was written and holds an index. -/
def Settled (e : ServerEvent ι) (content : Bytes) (h : List (ServerEvent ι)) : Prop :=
  ((opensIndex Y.app.storage e).isSome = true ∧ content = []) ∨
    (writes e = true ∧ ∃ x, content = Y.encode x ∧ Wrote e.task (Y.encode x) h)

/-- What the last call on an index file left in it: nothing yet, or an index whose
blobs the writer had taken. Where no two uploads had it open at a time it is just that. -/
structure Recent (d : Disk) (h : List (ServerEvent ι)) (n : Nat) (e : ServerEvent ι) : Prop where
  last : lastOn n h = some e
  opener : Opened Y.app.storage e.task h
  content : (d.inode n).content = [] ∨ ∃ x, Y.encode x <+: (d.inode n).content ∧ Y.Taken e.task x h
  settled : Separate Y.app.storage h → Y.Settled e (d.inode n).content h

/-- What is on the disk because of what happened. -/
structure Stored (d : Disk) (h : List (ServerEvent ι)) : Prop where
  closed : ∀ i temp sha b, Finalized i temp sha b h → d.file temp = none
  pinned : ∀ i s, Took Y.app.storage i s h → ¬ Answered i h → (d.file (Y.blob s)).isSome = true
  kept : ∀ i s, Took Y.app.storage i s h → (d.file (Y.blob s)).isSome = true ∨ Removed Y.app.storage s h
  single : ∀ s i j a b, ¬ Removed Y.app.storage s h → Linked Y.app.storage i a s h →
    Linked Y.app.storage j b s h → a = b
  recent : ∀ q n, Y.app.storage.bySource <+: q → d.file q = some n → ∃ e, Y.Recent d h n e
  numbered : ∀ e ∈ h, ∀ n, touched e = some n → n < d.next
  origin : ∀ e ∈ h, ∀ n, opensIndex Y.app.storage e = some n → Y.app.storage.bySource <+: (d.inode n).origin
  backed : PrettyLawful Y.crates.json → ∀ q x, Y.app.storage.bySource <+: q →
    d.content q = some (Y.encode x) → Y.Backed x d

structure Inv (w : ServerState ι) : Prop where
  names : Y.Names w.state.disk w.history
  ledger : Y.Ledger w.history
  stored : Y.Stored w.state.disk w.history

/-! ### What a task may call -/

/-- Nothing was linked from the temporary file and its `finalize_blob` has not returned. -/
def Open (temp : Path) (h : List (ServerEvent ι)) : Prop :=
  (∀ i s, ¬ Linked Y.app.storage i temp s h) ∧ ∀ i sha b, ¬ Finalized i temp sha b h

/-- The cycle `k` removes a blob: every index that points to it has been touched since
the cycle listed the indexes, and every upload that took it had answered by then. -/
def Sweepable [DecidableEq ι] (k : ι) (s : Sha256) (w : ServerState ι) : Prop :=
  (PrettyLawful Y.crates.json → ∀ q n i, Y.app.storage.bySource <+: q → w.state.disk.file q = some n →
    (w.state.disk.inode n).content = Y.encode i → s.hex ∈ i.hashes →
      ∃ e ∈ since (lists Y.app.storage k) w.history, touched e = some n) ∧
  ∀ j, Took Y.app.storage j s w.history → Answered j (upTo (lists Y.app.storage k) w.history)

/-- The task has an index file open that it has not written. -/
structure Drafting (i : ι) (handle : Handle) (w : ServerState ι) : Prop where
  known : handle.inode < w.state.disk.next
  origin : Y.app.storage.bySource <+: (w.state.disk.inode handle.inode).origin
  start : handle.offset = 0 ∧ handle.append = false
  opened : Opened Y.app.storage i w.history
  only : ∀ e ∈ w.history, e.task = i → ∀ n, opensIndex Y.app.storage e = some n → n = handle.inode
  last : Separate Y.app.storage w.history → ∃ e, lastOn handle.inode w.history = some e ∧ e.task = i ∧
    (opensIndex Y.app.storage e).isSome = true

/-- A write that completes an index. -/
structure Completes (i : ι) (handle : Handle) (bytes : Bytes) (w : ServerState ι) : Prop
    extends Y.Drafting i handle w where
  index : ∃ x, bytes = Y.encode x ∧ Y.Taken i x w.history

def LegalFile [DecidableEq ι] (i : ι) (op : FileOp) (w : ServerState ι) : Prop :=
  match op with
  | .createDirAll p => (∀ s, ¬ Y.blob s <+: p) ∧ (Y.app.storage.bySource <+: p → p.length < Y.indexDepth)
  | .create p =>
    (∃ u, p = Y.temp u ∧ Issued i u w.history ∧ w.state.disk.file p = none ∧ Y.Open p w.history) ∨
      Y.Spot p w.state.disk ∧ ∃ token headers body, Y.jobs i = .upload token headers body
  | .write handle bytes =>
    (∃ u, Issued i u w.history ∧ w.state.disk.file (Y.temp u) = some handle.inode ∧
      Y.Open (Y.temp u) w.history) ∨ Y.Completes i handle bytes w
  | .hardLink src dst => ∃ u s n, src = Y.temp u ∧ dst = Y.blob s ∧ Issued i u w.history ∧
      Y.Open src w.history ∧ Began i src s.hex w.history ∧ w.state.disk.file src = some n ∧
      Y.crates.sha256 (w.state.disk.inode n).content = s ∧ Y.Part (w.state.disk.inode n).content
  | .removeFile p => (∃ u, p = Y.temp u ∧ Issued i u w.history) ∨ Y.app.storage.bySource <+: p ∨
      Y.app.storage.logsDir <+: p ∨ ∃ s, p = Y.blob s ∧ Y.Sweepable i s w
  | .openAppend _ | .removeDirAll _ | .renameDir _ _ => False
  | .tryExists _ | .sync _ | .read _ | .metadata _ | .readDir _ => True

def Legal [DecidableEq ι] (i : ι) (op : ServerOp) (w : ServerState ι) : Prop :=
  ¬ Answered i w.history ∧ match op with
    | .file op => Y.LegalFile i op w
    | .finalized temp sha b => ∃ u s, temp = Y.temp u ∧ sha = s.hex ∧ Issued i u w.history ∧
        w.state.disk.file temp = none ∧ (∀ j sha' b', ¬ Finalized j temp sha' b' w.history) ∧
        Took Y.app.storage i s w.history ∧ (b = false ↔ Linked Y.app.storage i temp s w.history)
    | _ => True

/-! ### Paths and files that differ -/

variable {Y} {d : Disk} {h : List (ServerEvent ι)} {now : Time} {q : Path} {n : Nat} {p : Path} {u : Uuid}

theorem temp_injective {u v : Uuid} (hu : Y.temp u = Y.temp v) : u = v :=
  Y.app.storage.tempPath_injective hu

theorem blob_injective {s t : Sha256} (hs : Y.blob s = Y.blob t) : s = t :=
  Y.app.storage.blobPath_injective hs

theorem blob_ne_temp (s : Sha256) (u : Uuid) : Y.blob s ≠ Y.temp u := by
  intro he
  have hb := Y.app.storage.byHash_blobPath s
  rw [show Y.app.storage.blobPath s.hex = Y.temp u from he] at hb
  exact Y.app.storage.byHash_not_tempPath u hb

theorem index_ne_temp (hq : Y.app.storage.bySource <+: q) (u : Uuid) : q ≠ Y.temp u := by
  rintro rfl
  exact Y.app.storage.bySource_not_tempPath u hq

theorem index_ne_blob (hq : Y.app.storage.bySource <+: q) (s : Sha256) : q ≠ Y.blob s := by
  rintro rfl
  exact Y.app.storage.bySource_not_blobPath s hq

theorem hash_ne_temp (hq : Y.app.storage.byHash <+: q) (u : Uuid) : q ≠ Y.temp u := by
  rintro rfl
  exact Y.app.storage.byHash_not_tempPath u hq

theorem hash_ne_index {p q : Path} (hp : Y.app.storage.byHash <+: p) (hq : Y.app.storage.bySource <+: q) :
    p ≠ q := by
  rintro rfl
  exact (Y.app.storage.regions_apart).1 ⟨hq, hp⟩

namespace Names
variable (N : Y.Names d h)
include N

/-- A blob's file is not the file of an open temporary. -/
theorem blob_ne_open {m n : Nat} (hq : Y.app.storage.byHash <+: q) (hm : d.file q = some m)
    (hn : d.file (Y.temp u) = some n) (ho : Y.Open (Y.temp u) h) : m ≠ n := by
  rintro rfl
  obtain ⟨s, v, i, rfl, hv, hl, -, -⟩ := N.blob q m hq hm
  obtain rfl := temp_injective ((N.temp u m hn).symm.trans hv)
  exact ho.1 i s hl

theorem blob_ne_index {m n : Nat} (hq : Y.app.storage.byHash <+: q) (hm : d.file q = some m)
    (hn : Y.app.storage.bySource <+: (d.inode n).origin) : m ≠ n := by
  rintro rfl
  obtain ⟨s, v, i, rfl, hv, -, -, -⟩ := N.blob q m hq hm
  exact index_ne_temp hn v hv

theorem temp_ne_index {m n : Nat} (hm : d.file (Y.temp u) = some m)
    (hn : Y.app.storage.bySource <+: (d.inode n).origin) : m ≠ n := by
  rintro rfl
  exact index_ne_temp hn u (N.temp u m hm)

/-- The tree of the indexes is in one piece. -/
theorem rooted : d.Rooted Y.app.storage.bySource := by
  have hspot : ∀ q, Y.app.storage.bySource <+: q → (d.file q).isSome = true → Y.Spot q d := by
    intro q hq hfile
    obtain ⟨n, hn⟩ := Option.isSome_iff_exists.mp hfile
    exact (N.index q n hq hn).2
  refine ⟨fun p q hp hpq hne hfile => (hspot q (hp.trans hpq) hfile).way p hp hpq hne, fun p hp hfile => ?_⟩
  rw [← Bool.not_eq_true]
  intro hdir
  have hshallow := N.dirs.shallow p hp hdir
  rw [(hspot p hp hfile).depth] at hshallow
  exact Nat.lt_irrefl _ hshallow

theorem index_origin (hq : Y.app.storage.bySource <+: q) (hn : d.file q = some n) :
    Y.app.storage.bySource <+: (d.inode n).origin := by
  rw [(N.index q n hq hn).1]
  exact hq

theorem temp_ne_temp {u v : Uuid} {m n : Nat} (hm : d.file (Y.temp u) = some m)
    (hn : d.file (Y.temp v) = some n) (huv : u ≠ v) : m ≠ n := by
  rintro rfl
  exact huv (temp_injective ((N.temp u m hm).symm.trans (N.temp v m hn)))

end Names

/-! ### `Names` under each change of the files -/

theorem Spot.grow {d' : Disk} (hgrow : ∀ p, (d.dir p).isSome = true → (d'.dir p).isSome = true) (S : Y.Spot q d) :
    Y.Spot q d' :=
  ⟨S.below, S.ext, S.depth, fun p hp hpq hne => hgrow p (S.way p hp hpq hne)⟩

theorem Dirs.congr {d' : Disk} (hdir : ∀ p, (d'.dir p).isSome = (d.dir p).isSome) (D : Y.Dirs d) : Y.Dirs d' :=
  ⟨fun s => (hdir _).trans (D.blob s), fun p hp h => D.shallow p hp ((hdir p).symm.trans h)⟩

section NamesSteps
variable {d' : Disk} {h' : List (ServerEvent ι)} (N : Y.Names d h) (hh : h ⊆ h')
include N hh

theorem Names.same (hd : d.SameFiles d') (hdirs : Y.Dirs d')
    (hgrow : ∀ p, (d.dir p).isSome = true → (d'.dir p).isSome = true) : Y.Names d' h' where
  next := by rw [hd.file, hd.next]; exact N.next
  temp := by rw [hd.file, hd.inode]; exact N.temp
  issued := by rw [hd.file]; exact fun u hu => (N.issued u hu).imp fun _ hm => hh hm
  index := by
    rw [hd.file, hd.inode]
    exact fun q n hq hn => (N.index q n hq hn).imp_right (·.grow hgrow)
  blob := by
    rw [hd.file, hd.inode]
    intro q n hq hn
    obtain ⟨s, u, i, he, ho, hl, hc⟩ := N.blob q n hq hn
    exact ⟨s, u, i, he, ho, hh hl, hc⟩
  dirs := hdirs

/-- A new file, at a temporary path or at the path of an index. -/
theorem Names.fresh (hp : (∃ u i, p = Y.temp u ∧ Issued i u h) ∨ Y.Spot p d) : Y.Names (d.fresh p now) h' := by
  have grow : ∀ q, (d.dir q).isSome = true → ((d.fresh p now).dir q).isSome = true := fun q hq => by
    rwa [Disk.fresh_dir]
  have old : ∀ q n, q ≠ p → (d.fresh p now).file q = some n → d.file q = some n ∧ n ≠ d.next := by
    intro q n hq hn
    rw [Disk.fresh_file, Function.update_of_ne hq] at hn
    exact ⟨hn, (N.next q n hn).ne⟩
  have new : ∀ n, (d.fresh p now).file p = some n → n = d.next := by
    intro n hn
    rw [Disk.fresh_file, Function.update_self] at hn
    exact (Option.some.inj hn).symm
  refine ⟨?_, ?_, ?_, ?_, ?_, ?_⟩
  · intro q n hn
    rw [Disk.fresh_next]
    by_cases hq : q = p
    · subst hq
      rw [new n hn]
      omega
    · have := N.next q n (old q n hq hn).1
      omega
  · intro u n hn
    rw [Disk.fresh_inode]
    by_cases hq : Y.temp u = p
    · rw [hq] at hn
      rw [new n hn, Function.update_self, hq]
    · obtain ⟨hn, hne⟩ := old _ n hq hn
      rw [Function.update_of_ne hne]
      exact N.temp u n hn
  · intro u hu
    by_cases hq : Y.temp u = p
    · rcases hp with ⟨v, i, rfl, hi⟩ | hspot
      · obtain rfl := temp_injective hq
        exact ⟨i, hh hi⟩
      · exact absurd hq.symm (index_ne_temp hspot.below u)
    · rw [Disk.fresh_file, Function.update_of_ne hq] at hu
      exact (N.issued u hu).imp fun _ hm => hh hm
  · intro q n hq hn
    rw [Disk.fresh_inode]
    by_cases hqp : q = p
    · subst hqp
      rw [new n hn, Function.update_self]
      refine ⟨rfl, ?_⟩
      rcases hp with ⟨u, -, hu, -⟩ | hspot
      · exact absurd hu (index_ne_temp hq u)
      · exact hspot.grow grow
    · obtain ⟨hn, hne⟩ := old q n hqp hn
      rw [Function.update_of_ne hne]
      exact (N.index q n hq hn).imp_right (·.grow grow)
  · intro q n hq hn
    have hqp : q ≠ p := by
      rintro rfl
      rcases hp with ⟨u, -, hu, -⟩ | hspot
      · exact hash_ne_temp hq u hu
      · exact hash_ne_index hq hspot.below rfl
    obtain ⟨hn, hne⟩ := old q n hqp hn
    rw [Disk.fresh_inode, Function.update_of_ne hne]
    obtain ⟨s, u, i, he, ho, hl, hc⟩ := N.blob q n hq hn
    exact ⟨s, u, i, he, ho, hh hl, hc⟩
  · exact N.dirs.congr fun q => Disk.fresh_dir ..

/-- New content in a file that is no blob. -/
theorem Names.put {c : Bytes} (hb : ∀ q m, Y.app.storage.byHash <+: q → d.file q = some m → m ≠ n) :
    Y.Names (d.store n {d.inode n with content := c, modified := now}) h' := by
  have origin : ∀ m, (Function.update d.inode n {d.inode n with content := c, modified := now} m).origin =
      (d.inode m).origin := by
    intro m
    by_cases hm : m = n
    · subst hm
      rw [Function.update_self]
    · rw [Function.update_of_ne hm]
  refine ⟨N.next, ?_, fun u hu => (N.issued u hu).imp fun _ hm => hh hm, ?_, ?_, N.dirs.congr (d := d) fun _ => rfl⟩
  · intro u m hm
    rw [Disk.store_inode, origin]
    exact N.temp u m hm
  · intro q m hq hm
    rw [Disk.store_inode, origin]
    exact (N.index q m hq hm).imp_right (·.grow (d := d) fun _ hp => hp)
  · intro q m hq hm
    rw [Disk.store_inode, Function.update_of_ne (hb q m hq hm)]
    obtain ⟨s, u, i, he, ho, hl, hc⟩ := N.blob q m hq hm
    exact ⟨s, u, i, he, ho, hh hl, hc⟩

/-- A temporary file linked to the path of its digest. -/
theorem Names.link {i : ι} {s : Sha256} (hn : d.file (Y.temp u) = some n)
    (hl : Linked Y.app.storage i (Y.temp u) s h') (hs : Y.crates.sha256 (d.inode n).content = s)
    (hp : Y.Part (d.inode n).content) : Y.Names ((d.link (Y.blob s) n).touch (Y.blob s) now) h' := by
  have old : ∀ q m, q ≠ Y.blob s → ((d.link (Y.blob s) n).touch (Y.blob s) now).file q = some m →
      d.file q = some m := by
    intro q m hq hm
    rwa [Disk.touch_file, Disk.link_file, Function.update_of_ne hq] at hm
  refine ⟨?_, ?_, ?_, ?_, ?_, ?_⟩
  · intro q m hm
    by_cases hq : q = Y.blob s
    · rw [hq, Disk.touch_file, Disk.link_file, Function.update_self] at hm
      obtain rfl := Option.some.inj hm
      exact N.next _ n hn
    · exact N.next q m (old q m hq hm)
  · intro v m hm
    exact N.temp v m (old _ m (Ne.symm (blob_ne_temp s v)) hm)
  · intro v hv
    rw [Disk.touch_file, Disk.link_file, Function.update_of_ne (Ne.symm (blob_ne_temp s v))] at hv
    exact (N.issued v hv).imp fun _ hm => hh hm
  · intro q m hq hm
    exact (N.index q m hq (old q m (index_ne_blob hq s) hm)).imp_right
      (·.grow fun p hp => by rwa [Disk.touch_dir])
  · intro q m hq hm
    by_cases hqs : q = Y.blob s
    · subst hqs
      rw [Disk.touch_file, Disk.link_file, Function.update_self] at hm
      obtain rfl := Option.some.inj hm
      exact ⟨s, u, i, rfl, N.temp u n hn, hl, hs, hp⟩
    · obtain ⟨s', u', i', he, ho, hl', hc⟩ := N.blob q m hq (old q m hqs hm)
      exact ⟨s', u', i', he, ho, hh hl', hc⟩
  · refine N.dirs.congr fun q => ?_
    rw [Disk.touch_dir, Disk.link_dir]

theorem Names.unlink : Y.Names ((d.unlink p).touch p now) h' := by
  have old : ∀ q m, ((d.unlink p).touch p now).file q = some m → d.file q = some m := by
    intro q m hm
    rw [Disk.touch_file, Disk.unlink_file] at hm
    by_cases hq : q = p
    · rw [hq, Function.update_self] at hm
      exact absurd hm (by simp)
    · rwa [Function.update_of_ne hq] at hm
  refine ⟨fun q m hm => N.next q m (old q m hm), fun u m hm => N.temp u m (old _ m hm), ?_,
    fun q m hq hm => (N.index q m hq (old q m hm)).imp_right (·.grow fun p hp => by rwa [Disk.touch_dir]), ?_, ?_⟩
  · intro u hu
    obtain ⟨m, hm⟩ := Option.isSome_iff_exists.mp hu
    exact (N.issued u (by rw [old _ m hm]; rfl)).imp fun _ hm => hh hm
  · intro q m hq hm
    obtain ⟨s, u, i, he, ho, hl, hc⟩ := N.blob q m hq (old q m hm)
    exact ⟨s, u, i, he, ho, hh hl, hc⟩
  · refine N.dirs.congr fun q => ?_
    rw [Disk.touch_dir, Disk.unlink_dir]

end NamesSteps

/-! ### `Ledger` under one more call -/

theorem Ledger.cons (L : Y.Ledger h) {i : ι} {op : ServerOp} {x : op.Answer} (hs : ¬ Answered i h)
    (hissue : ∀ u, (⟨i, op, x⟩ : ServerEvent ι) = ⟨i, .newUuid, u⟩ → Y.env.uuid h.length = some u)
    (hlink : ∀ temp s, Linked Y.app.storage i temp s [⟨i, op, x⟩] →
      (∃ u, temp = Y.temp u ∧ Issued i u h) ∧ Began i temp s.hex h ∧ Y.Open temp h)
    (hfin : ∀ temp sha b, Finalized i temp sha b [⟨i, op, x⟩] → ∃ u s, temp = Y.temp u ∧ sha = s.hex ∧
      Issued i u h ∧ (∀ j sha' b', ¬ Finalized j temp sha' b' h) ∧ Took Y.app.storage i s h ∧
        (b = false ↔ Linked Y.app.storage i temp s h))
    (hopens : (opensIndex Y.app.storage (⟨i, op, x⟩ : ServerEvent ι)).isSome = true →
      ∃ token headers body, Y.jobs i = .upload token headers body) : Y.Ledger (⟨i, op, x⟩ :: h) := by
  have issued : ∀ j u, Issued j u (⟨i, op, x⟩ :: h) → (j = i ∧ Y.env.uuid h.length = some u) ∨ Issued j u h := by
    intro j u hm
    rcases List.mem_cons.mp hm with he | hm
    · obtain rfl : j = i := congrArg Event.task he
      exact .inl ⟨rfl, hissue u he.symm⟩
    · exact .inr hm
  have linked : ∀ j temp s, Linked Y.app.storage j temp s (⟨i, op, x⟩ :: h) →
      (j = i ∧ Linked Y.app.storage i temp s [⟨i, op, x⟩]) ∨ Linked Y.app.storage j temp s h := by
    intro j temp s hm
    rcases List.mem_cons.mp hm with he | hm
    · obtain rfl : j = i := congrArg Event.task he
      exact .inl ⟨rfl, List.mem_singleton.mpr he⟩
    · exact .inr hm
  refine ⟨?_, ?_, ?_, ?_, ?_, ?_, ?_⟩
  · intro j u hu
    rcases issued j u hu with ⟨-, he⟩ | hu
    · exact ⟨h.length, by simp, he⟩
    · obtain ⟨k, hk, he⟩ := L.numbered j u hu
      exact ⟨k, Nat.lt_succ_of_lt hk, he⟩
  · intro j k u hj hk
    -- a number is used once, so an identifier issued now was not issued before
    have fresh : ∀ l, Issued l u h → Y.env.uuid h.length ≠ some u := by
      intro l hl he
      obtain ⟨m, hm, hm'⟩ := L.numbered l u hl
      exact hm.ne (Y.env.fresh hm' he)
    rcases issued j u hj with ⟨hji, he⟩ | hjo <;> rcases issued k u hk with ⟨hki, he'⟩ | hko
    · exact hji.trans hki.symm
    · exact absurd he (fresh k hko)
    · exact absurd he' (fresh j hjo)
    · exact L.owner j k u hjo hko
  · refine List.pairwise_cons.mpr ⟨fun f hf ha he => hs ?_, L.silent⟩
    exact answered_iff.mpr ⟨f, hf, ha, he.symm⟩
  · intro j temp s hl
    rcases linked j temp s hl with ⟨rfl, hl⟩ | hl
    · obtain ⟨⟨u, hu, hi⟩, hb, -⟩ := hlink temp s hl
      exact ⟨u, hu, .tail _ hi, .tail _ hb⟩
    · obtain ⟨u, hu, hi, hb⟩ := L.linked j temp s hl
      exact ⟨u, hu, .tail _ hi, .tail _ hb⟩
  · intro j temp sha b hf
    rcases List.mem_cons.mp hf with he | hfo
    · obtain rfl : j = i := congrArg Event.task he
      obtain ⟨u, s, ht, hsha, hi, -, htook, hb⟩ := hfin temp sha b (List.mem_singleton.mpr he)
      refine ⟨u, s, ht, hsha, .tail _ hi, htook.mono (List.subset_cons_self ..), hb.trans ?_⟩
      refine ⟨.tail _, fun hl => ?_⟩
      rcases List.mem_cons.mp hl with hl | hl
      · rw [← he] at hl
        exact absurd (congrArg Event.op hl) (by simp)
      · exact hl
    · obtain ⟨u, s, ht, hsha, hi, htook, hb⟩ := L.finalized j temp sha b hfo
      refine ⟨u, s, ht, hsha, .tail _ hi, htook.mono (List.subset_cons_self ..), hb.trans ?_⟩
      refine ⟨.tail _, fun hl => ?_⟩
      rcases linked j temp s hl with ⟨rfl, hl⟩ | hl
      · exact absurd hfo ((hlink temp s hl).2.2.2 j sha b)
      · exact hl
  · intro temp
    rw [List.countP_cons]
    split
    · next hf =>
      obtain ⟨j, sha, b, he⟩ := finishes_iff.mp hf
      obtain rfl : i = j := congrArg Event.task he
      obtain ⟨u, s, -, -, -, hno, -, -⟩ := hfin temp sha b (List.mem_singleton.mpr he.symm)
      have h0 : h.countP (finishes temp) = 0 := by
        rw [List.countP_eq_zero]
        intro f hfm hff
        obtain ⟨j', sha', b', rfl⟩ := finishes_iff.mp hff
        exact hno j' sha' b' hfm
      omega
    · exact L.once temp
  · rintro j ⟨e, he, rfl, ho⟩
    rcases List.mem_cons.mp he with rfl | he
    · exact hopens ho
    · exact L.openers e.task ⟨e, he, rfl, ho⟩

/-! ### `Stored` under each change of the files -/

/-- The hashes of an index are determined by its text. -/
theorem encode_hashes (hj : PrettyLawful Y.crates.json) {x y : CrashIndex} (hp : Y.encode x <+: Y.encode y) :
    x.hashes = y.hashes := by
  have he : x.toJson = y.toJson := congrArg Json.object (hj.separate _ _ hp)
  have hx := indexRef_toJson x
  rw [he, indexRef_toJson] at hx
  exact (Option.some.inj hx).symm

theorem encode_ne_nil (hj : PrettyLawful Y.crates.json) (x : CrashIndex) : Y.encode x ≠ [] := hj.nonempty _

theorem Taken.mono {i : ι} {x : CrashIndex} {h' : List (ServerEvent ι)} (hs : h ⊆ h') (T : Y.Taken i x h) :
    Y.Taken i x h' := fun sha hsha => (T sha hsha).imp fun _ hs' => ⟨hs'.1, hs'.2.mono hs⟩

theorem Settled.mono {e : ServerEvent ι} {content : Bytes} {h' : List (ServerEvent ι)} (hs : h ⊆ h')
    (S : Y.Settled e content h) : Y.Settled e content h' :=
  S.imp_right fun ⟨hw, x, hx, hwrote⟩ => ⟨hw, x, hx, hwrote.mono hs⟩

/-- A call that does not touch a file leaves what was last done to it. -/
theorem Recent.cons {d' : Disk} {e f : ServerEvent ι} (R : Y.Recent d h n f)
    (hc : (d'.inode n).content = (d.inode n).content) (he : touched e ≠ some n) : Y.Recent d' (e :: h) n f where
  last := (lastOn_cons_of_ne he).trans R.last
  opener := R.opener.mono (List.subset_cons_self ..)
  content := by
    rw [hc]
    exact R.content.imp_right fun ⟨x, hx, hall⟩ => ⟨x, hx, hall.mono (List.subset_cons_self ..)⟩
  settled hs := by
    rw [hc]
    exact (R.settled hs.2).mono (List.subset_cons_self ..)

section StoredSteps
variable {d' : Disk} {e : ServerEvent ι} (S : Y.Stored d h)
include S

omit S in
theorem opensIndex_eq_none (ht : touched e = none) : opensIndex Y.app.storage e = none := by
  cases ho : opensIndex Y.app.storage e with
  | none => rfl
  | some n =>
    rw [touched_of_opensIndex ho] at ht
    cases ht

/-- What the numbers of the files that were touched say. -/
theorem Stored.numbered_cons (hnext : d.next ≤ d'.next) (he : ∀ n, touched e = some n → n < d'.next) :
    ∀ f ∈ e :: h, ∀ n, touched f = some n → n < d'.next := by
  intro f hf n hn
  rcases List.mem_cons.mp hf with rfl | hf
  · exact he n hn
  · exact lt_of_lt_of_le (S.numbered f hf n hn) hnext

theorem Stored.origin_cons (horigin : ∀ n < d.next, (d'.inode n).origin = (d.inode n).origin)
    (he : ∀ n, opensIndex Y.app.storage e = some n → Y.app.storage.bySource <+: (d'.inode n).origin) :
    ∀ f ∈ e :: h, ∀ n, opensIndex Y.app.storage f = some n → Y.app.storage.bySource <+: (d'.inode n).origin := by
  intro f hf n hn
  rcases List.mem_cons.mp hf with rfl | hf
  · exact he n hn
  · rw [horigin n (S.numbered f hf n (touched_of_opensIndex hn))]
    exact S.origin f hf n hn

/-- A call that leaves the files alone. -/
theorem Stored.same (hd : d.SameFiles d') (ht : touched e = none)
    (hfin : ∀ j t sha b, Finalized j t sha b [e] → d.file t = none)
    (htook : ∀ j s, Took Y.app.storage j s [e] → (d.file (Y.blob s)).isSome = true)
    (hlink : ∀ j t s, ¬ Linked Y.app.storage j t s [e]) : Y.Stored d' (e :: h) where
  closed := by
    intro j t sha b hf
    rw [hd.file]
    rcases List.mem_cons.mp hf with he | hf
    · exact hfin j t sha b (List.mem_singleton.mpr he)
    · exact S.closed j t sha b hf
  pinned := by
    intro j s hj ha
    rw [hd.file]
    rcases took_cons.mp hj with hn | ho
    · exact htook j s hn
    · exact S.pinned j s ho fun h => ha (h.mono (List.subset_cons_self ..))
  kept := by
    intro j s hj
    rw [hd.file]
    rcases took_cons.mp hj with hn | ho
    · exact .inl (htook j s hn)
    · exact (S.kept j s ho).imp_right (Removed.mono (List.subset_cons_self ..))
  single := by
    intro s i j a b hr hi hj
    have old : ∀ k t, Linked Y.app.storage k t s (e :: h) → Linked Y.app.storage k t s h := by
      intro k t hm
      rcases List.mem_cons.mp hm with he | hm
      · exact absurd (List.mem_singleton.mpr he) (hlink k t s)
      · exact hm
    exact S.single s i j a b (fun h => hr (h.mono (List.subset_cons_self ..))) (old i a hi) (old j b hj)
  recent := by
    intro q n hq hn
    rw [hd.file] at hn
    exact (S.recent q n hq hn).imp fun _ R => R.cons (by rw [hd.inode]) (by simp [ht])
  numbered := S.numbered_cons hd.next.ge (by simp [ht])
  origin := S.origin_cons (fun n _ => by rw [hd.inode]) (by simp [opensIndex_eq_none ht])
  backed := by
    intro hj q x hq hx
    rw [Backed, hd.file]
    refine S.backed hj q x hq ?_
    rw [← hx, Disk.content, Disk.content, hd.file, hd.inode]

/-- A new file that is no blob. -/
theorem Stored.fresh (N : Y.Names d h) (hp : ∀ s, p ≠ Y.blob s) (hopen : ∀ j sha b, ¬ Finalized j p sha b h)
    (ht : touched e = some d.next)
    (hindex : (opensIndex Y.app.storage e).isSome = true ↔ Y.app.storage.bySource <+: p)
    (hfin : ∀ j t sha b, ¬ Finalized j t sha b [e]) (htook : ∀ j s, ¬ Took Y.app.storage j s [e]) :
    Y.Stored (d.fresh p now) (e :: h) := by
  have blob : ∀ s, (d.fresh p now).file (Y.blob s) = d.file (Y.blob s) := fun s => by
    rw [Disk.fresh_file, Function.update_of_ne (Ne.symm (hp s))]
  refine ⟨?_, ?_, ?_, ?_, ?_, ?_, ?_, ?_⟩
  · intro j t sha b hf
    rcases List.mem_cons.mp hf with he | hf
    · exact absurd (List.mem_singleton.mpr he) (hfin j t sha b)
    · have htp : t ≠ p := by
        rintro rfl
        exact hopen j sha b hf
      rw [Disk.fresh_file, Function.update_of_ne htp]
      exact S.closed j t sha b hf
  · intro j s hj ha
    rw [blob]
    exact S.pinned j s ((took_cons.mp hj).resolve_left (htook j s)) fun h =>
      ha (h.mono (List.subset_cons_self ..))
  · intro j s hj
    rw [blob]
    exact (S.kept j s ((took_cons.mp hj).resolve_left (htook j s))).imp_right
      (Removed.mono (List.subset_cons_self ..))
  · intro s i j a b hr hi hj
    have old : ∀ k t, Linked Y.app.storage k t s (e :: h) → Linked Y.app.storage k t s h := by
      intro k t hm
      rcases List.mem_cons.mp hm with he | hm
      · exact absurd (.inr (.inl ⟨t, List.mem_singleton.mpr he⟩)) (htook k s)
      · exact hm
    exact S.single s i j a b (fun h => hr (h.mono (List.subset_cons_self ..))) (old i a hi) (old j b hj)
  · intro q n hq hn
    by_cases hqp : q = p
    · subst hqp
      rw [Disk.fresh_file, Function.update_self] at hn
      obtain rfl := Option.some.inj hn
      have hempty : ((d.fresh q now).inode d.next).content = [] := by rw [Disk.fresh_inode, Function.update_self]
      exact ⟨e, lastOn_cons_self ht, ⟨e, List.mem_cons_self .., rfl, hindex.mpr hq⟩, .inl hempty,
        fun _ => .inl ⟨hindex.mpr hq, hempty⟩⟩
    · rw [Disk.fresh_file, Function.update_of_ne hqp] at hn
      have hne := (N.next q n hn).ne
      exact (S.recent q n hq hn).imp fun _ R => R.cons (by rw [Disk.fresh_inode, Function.update_of_ne hne])
        (by rw [ht]; simpa using hne.symm)
  · refine S.numbered_cons (by rw [Disk.fresh_next]; exact Nat.le_succ _) fun n hn => ?_
    obtain rfl := Option.some.inj (ht.symm.trans hn)
    exact Nat.lt_succ_self _
  · refine S.origin_cons (fun n hn => by rw [Disk.fresh_inode, Function.update_of_ne hn.ne]) fun n hn => ?_
    obtain rfl := Option.some.inj (ht.symm.trans (touched_of_opensIndex hn))
    rw [Disk.fresh_inode, Function.update_self]
    exact hindex.mp (by rw [hn]; rfl)
  · intro hj q x hq hx sha hsha
    have hqp : q ≠ p := by
      rintro rfl
      rw [Disk.content, Disk.fresh_file, Function.update_self, Option.map_some, Disk.fresh_inode,
        Function.update_self] at hx
      exact encode_ne_nil hj x (Option.some.inj hx).symm
    have hold : d.content q = some (Y.encode x) := by
      rw [Disk.content, Disk.fresh_file, Function.update_of_ne hqp] at hx
      obtain ⟨n, hn, hc⟩ := Option.map_eq_some_iff.mp hx
      rw [Disk.fresh_inode, Function.update_of_ne (N.next q n hn).ne] at hc
      rw [Disk.content, hn, Option.map_some, hc]
    have hb := S.backed hj q x hq hold sha hsha
    rw [Disk.fresh_file]
    by_cases hsp : Y.app.storage.blobPath sha = p
    · rw [hsp, Function.update_self]
      rfl
    · rw [Function.update_of_ne hsp]
      exact hb

/-- New content in a file: nothing, or for an index what completes it. -/
theorem Stored.put {c : Bytes} (ht : touched e = some n) (hknown : n < d.next)
    (horigin : (opensIndex Y.app.storage e).isSome = true → Y.app.storage.bySource <+: (d.inode n).origin)
    (hfin : ∀ j t sha b, ¬ Finalized j t sha b [e]) (htook : ∀ j s, ¬ Took Y.app.storage j s [e])
    (hc : ∀ q, Y.app.storage.bySource <+: q → d.file q = some n →
      ((opensIndex Y.app.storage e).isSome = true ∧ c = []) ∨ ¬ Answered e.task h ∧ Opened Y.app.storage e.task h ∧
        writes e = true ∧ ∃ x, Y.encode x <+: c ∧ Y.Taken e.task x h ∧ Wrote e.task (Y.encode x) [e] ∧
          (Separate Y.app.storage h → c = Y.encode x)) :
    Y.Stored (d.store n {d.inode n with content := c, modified := now}) (e :: h) := by
  have origin : ∀ m, (Function.update d.inode n {d.inode n with content := c, modified := now} m).origin =
      (d.inode m).origin := by
    intro m
    by_cases hm : m = n
    · subst hm
      rw [Function.update_self]
    · rw [Function.update_of_ne hm]
  refine ⟨?_, ?_, ?_, ?_, ?_, ?_, ?_, ?_⟩
  · intro j t sha b hf
    rcases List.mem_cons.mp hf with he | hf
    · exact absurd (List.mem_singleton.mpr he) (hfin j t sha b)
    · exact S.closed j t sha b hf
  · intro j s hj ha
    exact S.pinned j s ((took_cons.mp hj).resolve_left (htook j s)) fun h =>
      ha (h.mono (List.subset_cons_self ..))
  · intro j s hj
    exact (S.kept j s ((took_cons.mp hj).resolve_left (htook j s))).imp_right
      (Removed.mono (List.subset_cons_self ..))
  · intro s i j a b hr hi hj
    have old : ∀ k t, Linked Y.app.storage k t s (e :: h) → Linked Y.app.storage k t s h := by
      intro k t hm
      rcases List.mem_cons.mp hm with he | hm
      · exact absurd (.inr (.inl ⟨t, List.mem_singleton.mpr he⟩)) (htook k s)
      · exact hm
    exact S.single s i j a b (fun h => hr (h.mono (List.subset_cons_self ..))) (old i a hi) (old j b hj)
  · intro q m hq hm
    by_cases hmn : m = n
    · subst hmn
      have hcontent : ((d.store m {d.inode m with content := c, modified := now}).inode m).content = c := by
        rw [Disk.store_inode, Function.update_self]
      refine ⟨e, lastOn_cons_self ht, ?_, ?_, fun hs => ?_⟩
      · rcases hc q hq hm with ⟨ho, -⟩ | ⟨-, ho, -⟩
        · exact ⟨e, List.mem_cons_self .., rfl, ho⟩
        · exact ho.mono (List.subset_cons_self ..)
      · rw [hcontent]
        rcases hc q hq hm with ⟨-, hempty⟩ | ⟨-, -, -, x, hx, hall, -⟩
        · exact .inl hempty
        · exact .inr ⟨x, hx, hall.mono (List.subset_cons_self ..)⟩
      · rw [hcontent]
        rcases hc q hq hm with hempty | ⟨-, -, hw, x, -, -, hwrote, hexact⟩
        · exact .inl hempty
        · exact .inr ⟨hw, x, hexact hs.2, hwrote.mono (List.cons_subset_cons _ (List.nil_subset _))⟩
    · exact (S.recent q m hq hm).imp fun _ R => R.cons (by rw [Disk.store_inode, Function.update_of_ne hmn])
        (by rw [ht]; simpa using Ne.symm hmn)
  · refine S.numbered_cons (Nat.le_refl _) fun m hm => ?_
    obtain rfl := Option.some.inj (ht.symm.trans hm)
    exact hknown
  · refine S.origin_cons (fun m _ => origin m) fun m hm => ?_
    obtain rfl := Option.some.inj (ht.symm.trans (touched_of_opensIndex hm))
    rw [Disk.store_inode, origin]
    exact horigin (by rw [hm]; rfl)
  · intro hj q x hq hx sha hsha
    obtain ⟨m, hm, hcm⟩ := Option.map_eq_some_iff.mp hx
    by_cases hmn : m = n
    · subst hmn
      rw [Disk.store_inode, Function.update_self] at hcm
      rcases hc q hq hm with ⟨-, rfl⟩ | ⟨ha, -, -, y, hy, hall, -⟩
      · exact absurd hcm.symm (encode_ne_nil hj x)
      · rw [show c = Y.encode x from hcm] at hy
        rw [← encode_hashes hj hy] at hsha
        obtain ⟨s, rfl, hs⟩ := hall sha hsha
        exact S.pinned e.task s hs ha
    · rw [Disk.store_inode, Function.update_of_ne hmn] at hcm
      refine S.backed hj q x hq ?_ sha hsha
      rw [Disk.content, show d.file q = some m from hm, Option.map_some, hcm]

/-- A blob that was not there. -/
theorem Stored.link {s : Sha256} (L : Y.Ledger h) (hfree : d.file (Y.blob s) = none) (ht : touched e = none)
    (hfin : ∀ j t sha b, ¬ Finalized j t sha b [e]) (htook : ∀ j s', Took Y.app.storage j s' [e] → s' = s) :
    Y.Stored ((d.link (Y.blob s) n).touch (Y.blob s) now) (e :: h) := by
  have there : ∀ p, (d.file p).isSome = true →
      (((d.link (Y.blob s) n).touch (Y.blob s) now).file p).isSome = true := by
    intro p hp
    rw [Disk.touch_file, Disk.link_file]
    by_cases hps : p = Y.blob s
    · rw [hps, Function.update_self]
      rfl
    · rwa [Function.update_of_ne hps]
  have index : ∀ q, Y.app.storage.bySource <+: q →
      ((d.link (Y.blob s) n).touch (Y.blob s) now).file q = d.file q := by
    intro q hq
    rw [Disk.touch_file, Disk.link_file, Function.update_of_ne (index_ne_blob hq s)]
  have now_there : (((d.link (Y.blob s) n).touch (Y.blob s) now).file (Y.blob s)).isSome = true := by
    rw [Disk.touch_file, Disk.link_file, Function.update_self]
    rfl
  refine ⟨?_, ?_, ?_, ?_, ?_, S.numbered_cons (Nat.le_refl _) (by simp [ht]),
    S.origin_cons (fun _ _ => rfl) (by simp [opensIndex_eq_none ht]), ?_⟩
  · intro j t sha b hf
    rcases List.mem_cons.mp hf with he | hf
    · exact absurd (List.mem_singleton.mpr he) (hfin j t sha b)
    · obtain ⟨u, -, rfl, -⟩ := L.finalized j t sha b hf
      rw [Disk.touch_file, Disk.link_file, Function.update_of_ne (Ne.symm (blob_ne_temp s u))]
      exact S.closed j _ sha b hf
  · intro j s' hj ha
    rcases took_cons.mp hj with hn | ho
    · rw [htook j s' hn]
      exact now_there
    · exact there _ (S.pinned j s' ho fun h => ha (h.mono (List.subset_cons_self ..)))
  · intro j s' hj
    rcases took_cons.mp hj with hn | ho
    · rw [htook j s' hn]
      exact .inl now_there
    · exact (S.kept j s' ho).imp (there _) (Removed.mono (List.subset_cons_self ..))
  · intro s' i j a b hr hi hj
    have hr' : ¬ Removed Y.app.storage s' h := fun h => hr (h.mono (List.subset_cons_self ..))
    -- the digest's blob was not there, so nobody had linked it before
    have first : s' = s → ∀ k t, ¬ Linked Y.app.storage k t s' h := by
      rintro rfl k t hk
      rcases S.kept k s' (.inr (.inl ⟨t, hk⟩)) with hs | hs
      · rw [hfree] at hs
        exact absurd hs (by simp)
      · exact hr' hs
    rcases List.mem_cons.mp hi with hi | hi <;> rcases List.mem_cons.mp hj with hj | hj
    · have := congrArg Event.op (hi.trans hj.symm)
      simp at this
      exact this
    · exact absurd hj (first (htook i s' (.inr (.inl ⟨a, List.mem_singleton.mpr hi⟩))) j b)
    · exact absurd hi (first (htook j s' (.inr (.inl ⟨b, List.mem_singleton.mpr hj⟩))) i a)
    · exact S.single s' i j a b hr' hi hj
  · intro q m hq hm
    rw [index q hq] at hm
    exact (S.recent q m hq hm).imp fun _ R => R.cons rfl (by simp [ht])
  · intro hj q x hq hx sha hsha
    refine there _ (S.backed hj q x hq ?_ sha hsha)
    rwa [Disk.content, index q hq] at hx

/-- A complete index points to digests, which its last writer had taken. -/
theorem Stored.taken (hj : PrettyLawful Y.crates.json) {x : CrashIndex} (hq : Y.app.storage.bySource <+: q)
    (hn : d.file q = some n) (hx : (d.inode n).content = Y.encode x) :
    ∃ f, lastOn n h = some f ∧ Y.Taken f.task x h := by
  obtain ⟨f, R⟩ := S.recent q n hq hn
  refine ⟨f, R.last, ?_⟩
  rcases R.content with hc | ⟨y, hy, hall⟩
  · rw [hx] at hc
    exact absurd hc (encode_ne_nil hj x)
  · rw [hx] at hy
    rw [Taken, ← encode_hashes hj hy]
    exact hall

/-- A file is removed: a blob only when nothing speaks for it. -/
theorem Stored.unlink (ht : touched e = none) (hfin : ∀ j t sha b, ¬ Finalized j t sha b [e])
    (htook : ∀ j s, ¬ Took Y.app.storage j s [e]) (hblob : ∀ s, p = Y.blob s → Removed Y.app.storage s (e :: h) ∧
      (∀ j, Took Y.app.storage j s h → Answered j h) ∧
      (PrettyLawful Y.crates.json → ∀ q m x, Y.app.storage.bySource <+: q → d.file q = some m →
        (d.inode m).content = Y.encode x → s.hex ∉ x.hashes)) : Y.Stored ((d.unlink p).touch p now) (e :: h) := by
  have old : ∀ q m, ((d.unlink p).touch p now).file q = some m → d.file q = some m := by
    intro q m hm
    rw [Disk.touch_file, Disk.unlink_file] at hm
    by_cases hq : q = p
    · rw [hq, Function.update_self] at hm
      exact absurd hm (by simp)
    · rwa [Function.update_of_ne hq] at hm
  have there : ∀ q, q ≠ p → ((d.unlink p).touch p now).file q = d.file q := by
    intro q hq
    rw [Disk.touch_file, Disk.unlink_file, Function.update_of_ne hq]
  refine ⟨?_, ?_, ?_, ?_, ?_, S.numbered_cons (Nat.le_refl _) (by simp [ht]),
    S.origin_cons (fun _ _ => rfl) (by simp [opensIndex_eq_none ht]), ?_⟩
  · intro j t sha b hf
    rcases List.mem_cons.mp hf with he | hf
    · exact absurd (List.mem_singleton.mpr he) (hfin j t sha b)
    · have hnone := S.closed j t sha b hf
      cases hm : ((d.unlink p).touch p now).file t with
      | none => rfl
      | some m => rw [old t m hm] at hnone; exact hnone
  · intro j s hj ha
    have ho := (took_cons.mp hj).resolve_left (htook j s)
    have ha' : ¬ Answered j h := fun h => ha (h.mono (List.subset_cons_self ..))
    by_cases hps : p = Y.blob s
    · exact absurd ((hblob s hps).2.1 j ho) ha'
    · rw [there _ (Ne.symm hps)]
      exact S.pinned j s ho ha'
  · intro j s hj
    have ho := (took_cons.mp hj).resolve_left (htook j s)
    by_cases hps : p = Y.blob s
    · exact .inr (hblob s hps).1
    · rw [there _ (Ne.symm hps)]
      exact (S.kept j s ho).imp_right (Removed.mono (List.subset_cons_self ..))
  · intro s i j a b hr hi hj
    have old' : ∀ k t, Linked Y.app.storage k t s (e :: h) → Linked Y.app.storage k t s h := by
      intro k t hm
      rcases List.mem_cons.mp hm with he | hm
      · exact absurd (.inr (.inl ⟨t, List.mem_singleton.mpr he⟩)) (htook k s)
      · exact hm
    exact S.single s i j a b (fun h => hr (h.mono (List.subset_cons_self ..))) (old' i a hi) (old' j b hj)
  · intro q m hq hm
    exact (S.recent q m hq (old q m hm)).imp fun _ R => R.cons rfl (by simp [ht])
  · intro hj q x hq hx sha hsha
    obtain ⟨m, hm, hc⟩ := Option.map_eq_some_iff.mp hx
    have hm := old q m hm
    obtain ⟨f, -, hall⟩ := S.taken hj hq hm hc
    obtain ⟨s, rfl, -⟩ := hall sha hsha
    have hps : Y.blob s ≠ p := fun he => (hblob s he.symm).2.2 hj q m x hq hm hc hsha
    rw [show Y.app.storage.blobPath s.hex = Y.blob s from rfl, there _ hps]
    refine S.backed hj q x hq ?_ _ hsha
    rw [Disk.content, hm, Option.map_some, ← hc]
    rfl

end StoredSteps

end CrashSystem

end Detritus.Server
