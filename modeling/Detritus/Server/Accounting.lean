import Detritus.Protocol.Envelope
import Detritus.Server.Faults
import Detritus.Server.Janitor

/-! What the janitor removes and what it says it has removed.

A cycle only unlinks: what it leaves is the storage it found without some of the files
(`Gone`). Its statistics follow the removals one by one, but they reach the counters only
with the result, and a cycle that fails or panics has none. `janitor_accounts` is for the
cycles that do so before the first removal. -/
namespace Detritus.Server
open Files Protocol Process Contract
variable {root : Path}

/-! ### Removed files -/

/-- The length of the file at a path. -/
def fileSize (d : Disk) (p : Path) : Nat := ((d.content p).getD []).length

/-- The files of `d` that are not in `e` any more. -/
def removed (d e : Disk) : List Path := d.known.filter fun p => (d.file p).isSome && (e.file p).isNone

theorem mem_removed {d e : Disk} {p : Path} : p ∈ removed d e ↔ (d.file p).isSome ∧ e.file p = none := by
  rw [removed, List.mem_filter, Bool.and_eq_true, Option.isNone_iff_eq_none]
  exact ⟨fun h => h.2, fun h => ⟨d.listed p (.inl h.1), h⟩⟩

/-- `e` is `d` without the files of `gone`. -/
structure Gone (d : Disk) (gone : List Path) (e : Disk) : Prop where
  file : ∀ p, e.file p = if p ∈ gone then none else d.file p
  dir : ∀ p, (e.dir p).isSome = (d.dir p).isSome
  inode : e.inode = d.inode
  there : ∀ p ∈ gone, (d.file p).isSome
  nodup : gone.Nodup

namespace Gone
variable {d e : Disk} {gone : List Path} {p : Path}

theorem refl (d : Disk) : Gone d [] d := ⟨fun _ => by simp, fun _ => rfl, rfl, by simp, List.nodup_nil⟩

theorem file_of_notMem (h : Gone d gone e) (hp : p ∉ gone) : e.file p = d.file p := by
  rw [h.file, if_neg hp]

theorem content_of_notMem (h : Gone d gone e) (hp : p ∉ gone) : e.content p = d.content p := by
  rw [Disk.content, h.file_of_notMem hp, h.inode]
  rfl

theorem notMem (h : Gone d gone e) (hp : (e.file p).isSome) : p ∉ gone := by
  intro hmem
  rw [h.file, if_pos hmem] at hp
  cases hp

theorem removed (h : Gone d gone e) : (Server.removed d e).Perm gone := by
  refine (List.perm_ext_iff_of_nodup (d.nodup.filter _) h.nodup).mpr fun p => ?_
  rw [← Server.removed, mem_removed, h.file]
  by_cases hp : p ∈ gone
  · simp [hp, h.there p hp]
  · simp only [hp, if_false, iff_false, not_and]
    intro hsome hnone
    rw [hnone] at hsome
    cases hsome

theorem perm (h : Gone d gone e) {gone' : List Path} (hp : gone.Perm gone') : Gone d gone' e where
  file p := by
    rw [h.file]
    exact if_congr hp.mem_iff rfl rfl
  dir := h.dir
  inode := h.inode
  there p hmem := h.there p (hp.mem_iff.mpr hmem)
  nodup := hp.nodup_iff.mp h.nodup

/-- One file more. -/
theorem remove (h : Gone d gone e) (hp : (e.file p).isSome) (now : Time) : Gone d (p :: gone) (e.removeFile p now).2 := by
  obtain ⟨n, hn⟩ := Option.isSome_iff_exists.mp hp
  have hd : (d.file p).isSome := by rwa [← h.file_of_notMem (h.notMem hp)]
  rw [Disk.removeFile_some hn]
  refine ⟨fun q => ?_, fun q => ?_, h.inode, ?_, List.nodup_cons.mpr ⟨h.notMem hp, h.nodup⟩⟩
  · rw [Disk.touch_file, Disk.unlink_file]
    by_cases hq : q = p
    · subst hq
      simp
    · simp [hq, h.file]
  · rw [Disk.touch_dir]
    exact h.dir q
  · intro q hq
    rcases List.mem_cons.mp hq with rfl | hq
    · exact hd
    · exact h.there q hq

/-- The tree stays in one piece. -/
theorem rooted (h : Gone d gone e) (hd : d.Rooted root) : e.Rooted root := by
  have hfile : ∀ q, (e.file q).isSome = true → (d.file q).isSome = true := fun q hq => by
    rwa [← h.file_of_notMem (h.notMem hq)]
  refine ⟨fun p q hp hpq hne hq => ?_, fun p hp hfp => ?_⟩
  · rw [h.dir]
    exact hd.dirs p q hp hpq hne (hfile q hq)
  · rw [h.dir]
    exact hd.apart p hp (hfile p hfp)

end Gone

/-- The directories that a cycle walks. -/
def StoragePaths.roots (P : StoragePaths) : List Path := [P.logsDir, P.bySource, P.byHash]

/-! ### The loop -/

/-- The counters of the janitor, and the gauges of its last cycle. -/
structure JanitorMetrics where
  cyclesTotal : UInt64
  blobsFreedTotal : UInt64
  bytesFreedTotal : UInt64
  lastLogsDeleted : Int64
  lastIndexesDeleted : Int64
  lastBlobsDeleted : Int64
  deriving DecidableEq

def JanitorMetrics.observeJanitor (m : JanitorMetrics) (stats : JanitorStats) : JanitorMetrics where
  cyclesTotal := m.cyclesTotal + 1
  blobsFreedTotal := m.blobsFreedTotal + stats.blobsDeleted
  bytesFreedTotal := m.bytesFreedTotal + stats.bytesFreed
  lastLogsDeleted := stats.logsDeleted.toInt64
  lastIndexesDeleted := stats.indexesDeleted.toInt64
  lastBlobsDeleted := stats.blobsDeleted.toInt64

/-- One turn of the janitor's loop. -/
def janitorTick (fuel : Nat) (json : SerdeJson) (storage : StoragePaths) (config : RetentionConfig) (m : JanitorMetrics) :
    Program serverInterface JanitorMetrics := do
  let result ← (runJanitorCycle fuel json storage config).run
  match result with
  | .ok stats => return m.observeJanitor stats
  | .error _ =>
    Program.perform (S := serverInterface) (.report "retention janitor cycle failed")
    return m.observeJanitor ⟨0, 0, 0, 0⟩

/-! ### Faults that do no harm -/

/-- The file whose metadata was asked for last, with nothing but the clock read since. -/
def asked {ι : Type} : List (ServerEvent ι) → Option Path
  | [] => none
  | e :: rest => match e.op with
    | .now => asked rest
    | .file (.metadata p) => some p
    | _ => none

/-- What a fault may hit in a cycle that began with the disk `d`, and when it may panic. The metadata of a blob, or
of a file whose age was just checked, is asked for its length, and a fault there takes the length for zero. A blob
that is not found is passed over. Any other fault ends the cycle. -/
def Harmless {ι : Type} (storage : StoragePaths) (faults : Faults) (d : Disk) (op : ServerOp) (w : ServerState ι) :
    Prop :=
  match op with
  | .file op => ∀ fault, faults w.history.length = some fault → match op with
    | .metadata p =>
      if storage.byHash <+: p ∨ asked w.history = some p then fileSize w.state.disk p = 0
      else removed d w.state.disk = []
    | .removeFile p => removed d w.state.disk = [] ∨ storage.byHash <+: p ∧ fault.error = .notFound
    | _ => removed d w.state.disk = []
  | .panic => removed d w.state.disk = []
  | _ => True

namespace Harmless
variable {ι : Type} {storage : StoragePaths} {faults : Faults} {d : Disk} {w : ServerState ι} {p : Path} {fault : Fault}

theorem metadata_of (h : Harmless storage faults d (.file (.metadata p)) w) (hf : faults w.history.length = some fault)
    (hp : storage.byHash <+: p ∨ asked w.history = some p) : fileSize w.state.disk p = 0 := by
  have h : if storage.byHash <+: p ∨ asked w.history = some p then fileSize w.state.disk p = 0
    else removed d w.state.disk = [] := h fault hf
  rwa [if_pos hp] at h

theorem metadata_of_not (h : Harmless storage faults d (.file (.metadata p)) w)
    (hf : faults w.history.length = some fault) (hp : ¬ (storage.byHash <+: p ∨ asked w.history = some p)) :
    removed d w.state.disk = [] := by
  have h : if storage.byHash <+: p ∨ asked w.history = some p then fileSize w.state.disk p = 0
    else removed d w.state.disk = [] := h fault hf
  rwa [if_neg hp] at h

end Harmless

section Cycle
variable {ι : Type} {storage : StoragePaths} {faults : Faults} {env : Env} {i : ι} {d : Disk}

/-- The cycle alone, with no other faults than those. -/
abbrev cycleContract (storage : StoragePaths) (faults : Faults) (env : Env) (i : ι) (d : Disk) :
    Contract serverInterface (ServerState ι) :=
  .solo (execFaultyAs faults env i) (Harmless storage faults d)

/-- The cycle has failed, by a fault, with nothing removed. -/
def Untouched (faults : Faults) (d : Disk) (_ : JanitorError) (w : ServerState ι) : Prop :=
  removed d w.state.disk = [] ∧ ∃ n fault, faults n = some fault

/-- Where a loop over files is: those of `gone` are removed, those of `rest` are still to be looked at. -/
structure Stage (d : Disk) (gone rest : List Path) (w : ServerState ι) : Prop where
  gone : Gone d gone w.state.disk
  there : ∀ p ∈ rest, (w.state.disk.file p).isSome
  nodup : rest.Nodup

/-- The same, and of none of the files the metadata was just asked for. -/
structure Scanning (d : Disk) (gone rest : List Path) (w : ServerState ι) : Prop extends Stage d gone rest w where
  unasked : ∀ p ∈ rest, asked w.history ≠ some p

variable {gone rest : List Path} {p : Path} {w : ServerState ι} {ttl : UInt64} {now : Time} {stats : JanitorStats}
  {u : ServerState ι} {e : Disk}

theorem metadata_of_file {n : Nat} (h : e.file p = some n) :
    e.metadata p = .ok ⟨(e.inode n).modified, (e.inode n).content.length⟩ := by
  rw [Disk.metadata, h]

/-- The outcome of the age check, with the clock at `now`. -/
def IsOld (d : Disk) (now : Time) (ttl : UInt64) (p : Path) : Prop :=
  ttl = 0 ∨ ∃ n moment, d.file p = some n ∧ cutoff now ttl = some moment ∧ ((d.inode n).modified : Int) ≤ moment

theorem isOlderThan_solo (now : Time) (hthere : (w.state.disk.file p).isSome) (hblob : ¬ storage.byHash <+: p)
    (hasked : asked w.history ≠ some p) :
    (cycleContract storage faults env i d).Yields
      (fun old u => u.state = w.state ∧ asked u.history = some p ∧
        ((∀ n, env.clock n = now) → (old = true ↔ IsOld w.state.disk now ttl p)))
      (Untouched faults d) (isOlderThan p ttl) w := by
  obtain ⟨n, hn⟩ := Option.isSome_iff_exists.mp hthere
  unfold isOlderThan
  refine yields_file rfl ?_ ?_
  · intro fault u hfault ha hu hh
    refine ⟨?_, _, fault, hfault⟩
    rw [hu]
    exact ha.metadata_of_not hfault (not_or.mpr ⟨hblob, hasked⟩)
  · intro x u _ hx hu hh
    rw [show x = .ok ⟨(w.state.disk.inode n).modified, (w.state.disk.inode n).content.length⟩ from
      hx.trans (metadata_of_file hn)]
    have hasked' : asked u.history = some p := by rw [hh]; rfl
    dsimp only
    by_cases httl : ttl = 0
    · rw [if_pos httl]
      exact Yields.solo_pure ⟨hu, hasked', fun _ => iff_of_true rfl (.inl httl)⟩
    · rw [if_neg httl]
      refine yields_now fun v hv hvh => ?_
      cases hc : cutoff (env.clock u.history.length) ttl with
      | none => exact Yields.solo_step fun x _ _ _ => x.elim
      | some moment =>
        refine Yields.solo_pure ⟨hv.trans hu, by rw [hvh]; exact hasked', fun hnow => ?_⟩
        rw [hnow] at hc
        rw [decide_eq_true_iff, IsOld, or_iff_right httl]
        constructor
        · exact fun hle => ⟨n, moment, hn, hc, hle⟩
        · rintro ⟨m, moment', hm, hc', hle⟩
          obtain rfl := Option.some.inj (hn.symm.trans hm)
          obtain rfl := Option.some.inj (hc.symm.trans hc')
          exact hle

theorem fileLen_solo (hthere : (w.state.disk.file p).isSome) (hasked : storage.byHash <+: p ∨ asked w.history = some p) :
    (cycleContract storage faults env i d).Yields
      (fun len u => u.state = w.state ∧ len = .ofNat (fileSize w.state.disk p)) (Untouched faults d) (fileLen p) w := by
  obtain ⟨n, hn⟩ := Option.isSome_iff_exists.mp hthere
  unfold fileLen
  refine yields_attempt rfl ?_ ?_
  · intro fault u hf ha hu hh
    exact Yields.solo_pure ⟨hu, by rw [ha.metadata_of hf hasked]; rfl⟩
  · intro x u _ hx hu hh
    rw [show x = .ok ⟨(w.state.disk.inode n).modified, (w.state.disk.inode n).content.length⟩ from
      hx.trans (metadata_of_file hn)]
    exact Yields.solo_pure ⟨hu, by simp [fileSize, Disk.content, hn]⟩

/-- The loop goes on with the files after `p`. -/
theorem Stage.next (hS : Stage d gone (p :: rest) w) (hu : u.state = w.state) : Stage d gone rest u where
  gone := by rw [hu]; exact hS.gone
  there q hq := by rw [hu]; exact hS.there q (.tail _ hq)
  nodup := (List.nodup_cons.mp hS.nodup).2

theorem Scanning.next (hS : Scanning d gone (p :: rest) w) (hu : u.state = w.state)
    (hasked : ∀ q, asked u.history = some q → q = p) : Scanning d gone rest u where
  toStage := hS.toStage.next hu
  unasked q hq h := (List.nodup_cons.mp hS.nodup).1 (hasked q h ▸ hq)

theorem Scanning.tail (hS : Scanning d gone (p :: rest) w) : Scanning d gone rest w :=
  ⟨hS.toStage.next rfl, fun q hq => hS.unasked q (.tail _ hq)⟩

theorem Stage.removed (hS : Stage d gone (p :: rest) w) (now : Time)
    (hu : u.state.disk = (w.state.disk.removeFile p now).2) : Stage d (p :: gone) rest u where
  gone := by
    rw [hu]
    exact hS.gone.remove (hS.there p (.head _)) now
  there q hq := by
    obtain ⟨n, hn⟩ := Option.isSome_iff_exists.mp (hS.there p (.head _))
    have hqp : q ≠ p := fun h => (List.nodup_cons.mp hS.nodup).1 (h ▸ hq)
    rw [hu, Disk.removeFile_some hn, Disk.touch_file, Disk.unlink_file, Function.update_of_ne hqp]
    exact hS.there q (.tail _ hq)
  nodup := (List.nodup_cons.mp hS.nodup).2

theorem Stage.size (hS : Stage d gone (p :: rest) w) : fileSize w.state.disk p = fileSize d p := by
  rw [fileSize, hS.gone.content_of_notMem (hS.gone.notMem (hS.there p (.head _))), fileSize]

/-- How many files, and how many bytes they have, in 64 bits. -/
def counted (files : List Path) : UInt64 := .ofNat files.length

def weighed (d : Disk) (files : List Path) : UInt64 := .ofNat (files.map (fileSize d)).sum

@[simp] theorem counted_nil : counted [] = 0 := rfl

@[simp] theorem weighed_nil (d : Disk) : weighed d [] = 0 := rfl

theorem counted_append (a b : List Path) : counted (a ++ b) = counted a + counted b := by
  rw [counted, List.length_append, UInt64.ofNat_add, counted, counted]

theorem weighed_append (d : Disk) (a b : List Path) : weighed d (a ++ b) = weighed d a + weighed d b := by
  rw [weighed, List.map_append, List.sum_append, UInt64.ofNat_add, weighed, weighed]

/-- One more file, counted before the others. -/
theorem add_counted (n : UInt64) (files : List Path) (p : Path) : n + 1 + counted files = n + counted (files ++ [p]) := by
  rw [counted_append, UInt64.add_assoc, UInt64.add_comm 1]
  rfl

theorem add_weighed (d : Disk) (n : UInt64) (files : List Path) (p : Path) :
    n + .ofNat (fileSize d p) + weighed d files = n + weighed d (files ++ [p]) := by
  rw [weighed_append, UInt64.add_assoc, UInt64.add_comm (.ofNat _)]
  simp [weighed]

/-- A file past its time: its length is taken, and it goes. -/
theorem discard_solo {β : Type} {Q : β → ServerState ι → Prop} {f : UInt64 → Handler JanitorError β}
    (hS : Stage d gone (p :: rest) w) (hblob : ¬ storage.byHash <+: p) {v : ServerState ι} (hv : v.state = w.state)
    (hasked : asked v.history = some p)
    (hf : ∀ u, Scanning d (p :: gone) rest u →
      (cycleContract storage faults env i d).Yields Q (Untouched faults d) (f (.ofNat (fileSize d p))) u) :
    (cycleContract storage faults env i d).Yields Q (Untouched faults d)
      (do let len ← fileLen p; file JanitorError.io (.removeFile p); f len) v := by
  have hthere := hS.there p (.head _)
  refine Yields.solo_andThen (fileLen_solo (by rwa [hv]) (.inr hasked)) ?_
  rintro len u ⟨hu, rfl⟩
  rw [hv] at hu
  refine yields_file rfl ?_ ?_
  · intro fault u' hfault ha hu' _
    refine ⟨?_, _, fault, hfault⟩
    rw [hu']
    exact (ha fault hfault).resolve_right fun h => hblob h.1
  · intro x u' _ hx hu' hh
    obtain ⟨n, hn⟩ := Option.isSome_iff_exists.mp hthere
    rw [show x = .ok () from hx.trans (by
      show (u.state.disk.removeFile p _).1 = _
      rw [hu, Disk.removeFile_some hn])]
    dsimp only
    rw [hv, hS.size]
    refine hf u' ⟨hS.removed (env.clock u.history.length) ?_, by simp [hh, asked]⟩
    rw [hu', hu]
    rfl

/-- What went of the files that were listed: only such files, and if `sure` those with `P`. -/
structure Picked (sure : Prop) (P : Path → Prop) (files more : List Path) : Prop where
  subset : ∀ p ∈ more, p ∈ files
  exact : sure → ∀ p, p ∈ more ↔ p ∈ files ∧ P p

namespace Picked
variable {sure : Prop} {P : Path → Prop} {files more : List Path}

theorem nil : Picked sure P [] [] := ⟨by simp, by simp⟩

theorem skip (h : Picked sure P files more) (hp : sure → ¬ P p) : Picked sure P (p :: files) more where
  subset q hq := .tail _ (h.subset q hq)
  exact hsure q := by
    rw [h.exact hsure, List.mem_cons]
    constructor
    · exact fun hq => ⟨.inr hq.1, hq.2⟩
    · rintro ⟨rfl | hq, hP⟩
      · exact absurd hP (hp hsure)
      · exact ⟨hq, hP⟩

theorem take (h : Picked sure P files more) (hp : sure → P p) : Picked sure P (p :: files) (more ++ [p]) where
  subset q hq := by
    rcases List.mem_append.mp hq with hq | hq
    · exact .tail _ (h.subset q hq)
    · exact List.mem_singleton.mp hq ▸ .head _
  exact hsure q := by
    rw [List.mem_append, List.mem_singleton, h.exact hsure, List.mem_cons]
    constructor
    · rintro (hq | rfl)
      · exact ⟨.inr hq.1, hq.2⟩
      · exact ⟨.inl rfl, hp hsure⟩
    · rintro ⟨rfl | hq, hP⟩
      · exact .inr rfl
      · exact .inl ⟨hq, hP⟩

end Picked

/-- The files of a kind that are past their time; it is sure to be those where the clock is at rest. -/
abbrev Pruned (d : Disk) (env : Env) (now : Time) (ttl : UInt64) (ext : String) (files more : List Path) : Prop :=
  Picked (∀ n, env.clock n = now) (fun p => hasExtension p ext = true ∧ IsOld d now ttl p) files more

theorem Stage.isOld_iff (hS : Stage d gone (p :: rest) w) : IsOld w.state.disk now ttl p ↔ IsOld d now ttl p := by
  rw [IsOld, IsOld, hS.gone.file_of_notMem (hS.gone.notMem (hS.there p (.head _))), hS.gone.inode]

/-- The log files of a listing. -/
theorem pruneLogFiles_solo (now : Time) {files : List Path} (hS : Scanning d gone files w)
    (hblob : ∀ p ∈ files, ¬ storage.byHash <+: p) :
    (cycleContract storage faults env i d).Yields (fun stats' u => ∃ more, Gone d (more ++ gone) u.state.disk ∧
      Pruned d env now ttl "ndjson" files more ∧
      stats' = {stats with
        logsDeleted := stats.logsDeleted + counted more
        bytesFreed := stats.bytesFreed + weighed d more}) (Untouched faults d)
      (pruneLogFiles ttl files stats) w := by
  induction files generalizing gone stats w with
  | nil => exact Yields.solo_pure ⟨[], hS.gone, .nil, by simp⟩
  | cons p rest ih =>
    have hrest : ∀ q ∈ rest, ¬ storage.byHash <+: q := fun q hq => hblob q (.tail _ hq)
    unfold pruneLogFiles
    by_cases hext : hasExtension p "ndjson" = true
    swap
    · rw [if_pos (by simpa using hext)]
      refine (ih hS.tail hrest).imp ?_
      rintro stats' u ⟨more, hgone, hpruned, hstats⟩
      exact ⟨more, hgone, hpruned.skip fun _ h => hext h.1, hstats⟩
    rw [if_neg (by simpa using hext)]
    refine Yields.solo_andThen (isOlderThan_solo now (hS.there p (.head _)) (hblob p (.head _)) (hS.unasked p (.head _))) ?_
    rintro old v ⟨hv, hasked, hold⟩
    cases old with
    | false =>
      refine (ih (hS.next hv fun q hq => Option.some.inj (hq.symm.trans hasked)) hrest).imp ?_
      rintro stats' u ⟨more, hgone, hpruned, hstats⟩
      refine ⟨more, hgone, hpruned.skip fun hnow h => ?_, hstats⟩
      exact absurd ((hold hnow).mpr (hS.isOld_iff.mpr h.2)) (by simp)
    | true =>
      refine discard_solo hS.toStage (hblob p (.head _)) hv hasked fun u hu => (ih hu hrest).imp ?_
      rintro stats' u ⟨more, hgone, hpruned, rfl⟩
      refine ⟨more ++ [p], by rwa [List.append_assoc], hpruned.take fun hnow => ?_, ?_⟩
      · exact ⟨hext, hS.isOld_iff.mp ((hold hnow).mp rfl)⟩
      · rw [add_counted, add_weighed]

/-- The digests that the indexes among some files point to. -/
def Referenced (json : SerdeJson) (d : Disk) (files more : List Path) (sha : String) : Prop :=
  ∃ p ∈ files, hasExtension p "json" = true ∧ p ∉ more ∧ sha ∈ references json ((d.content p).getD [])

namespace Referenced
variable {json : SerdeJson} {files more : List Path} {sha : String}

theorem cons (hext : hasExtension p "json" = true) (hp : p ∉ more) :
    Referenced json d (p :: files) more sha ↔
      sha ∈ references json ((d.content p).getD []) ∨ Referenced json d files more sha := by
  unfold Referenced
  rw [List.exists_mem_cons_iff]
  simp only [hext, hp, not_false_eq_true, true_and]

theorem cons_of_not (hp : ¬ (hasExtension p "json" = true ∧ p ∉ more)) :
    Referenced json d (p :: files) more sha ↔ Referenced json d files more sha := by
  unfold Referenced
  rw [List.exists_mem_cons_iff]
  exact or_iff_right fun h => hp ⟨h.1, h.2.1⟩

theorem append_self (hp : p ∉ files) :
    Referenced json d (p :: files) (more ++ [p]) sha ↔ Referenced json d files more sha := by
  rw [cons_of_not (by simp)]
  refine exists_congr fun q => and_congr_right fun hq => ?_
  have hqp : q ≠ p := fun h => hp (h ▸ hq)
  simp [hqp]

end Referenced

/-- The indexes of a listing: some go, the others are read. -/
theorem pruneIndexFiles_solo (now : Time) {json : SerdeJson} {files : List Path} {referenced : List String}
    (hS : Scanning d gone files w) (hblob : ∀ p ∈ files, ¬ storage.byHash <+: p) :
    (cycleContract storage faults env i d).Yields (fun r u => ∃ more, Gone d (more ++ gone) u.state.disk ∧
      Pruned d env now ttl "json" files more ∧
      (∀ sha, sha ∈ r.1 ↔ sha ∈ referenced ∨ Referenced json d files more sha) ∧
      r.2 = {stats with
        indexesDeleted := stats.indexesDeleted + counted more
        bytesFreed := stats.bytesFreed + weighed d more}) (Untouched faults d)
      (pruneIndexFiles json ttl files referenced stats) w := by
  induction files generalizing gone referenced stats w with
  | nil => exact Yields.solo_pure ⟨[], hS.gone, .nil, by simp [Referenced], by simp⟩
  | cons p rest ih =>
    have hrest : ∀ q ∈ rest, ¬ storage.byHash <+: q := fun q hq => hblob q (.tail _ hq)
    unfold pruneIndexFiles
    by_cases hext : hasExtension p "json" = true
    swap
    · rw [if_pos (by simpa using hext)]
      refine (ih hS.tail hrest).imp ?_
      rintro r u ⟨more, hgone, hpruned, hrefs, hstats⟩
      refine ⟨more, hgone, hpruned.skip fun _ h => hext h.1, fun sha => ?_, hstats⟩
      rw [hrefs, Referenced.cons_of_not fun h => hext h.1]
    rw [if_neg (by simpa using hext)]
    refine Yields.solo_andThen (isOlderThan_solo now (hS.there p (.head _)) (hblob p (.head _)) (hS.unasked p (.head _))) ?_
    rintro old v ⟨hv, hasked, hold⟩
    cases old with
    | true =>
      refine discard_solo hS.toStage (hblob p (.head _)) hv hasked fun u hu => (ih hu hrest).imp ?_
      rintro r u ⟨more, hgone, hpruned, hrefs, hstats⟩
      refine ⟨more ++ [p], by rwa [List.append_assoc], hpruned.take fun hnow => ?_, fun sha => ?_, ?_⟩
      · exact ⟨hext, hS.isOld_iff.mp ((hold hnow).mp rfl)⟩
      · rw [hrefs, Referenced.append_self (List.nodup_cons.mp hS.nodup).1]
      · rw [hstats, add_counted, add_weighed]
    | false =>
      have hthere := hS.there p (.head _)
      obtain ⟨n, hn⟩ := Option.isSome_iff_exists.mp hthere
      have hcontent : (d.content p).getD [] = (w.state.disk.inode n).content := by
        rw [← hS.gone.content_of_notMem (hS.gone.notMem hthere), Disk.content, hn]
        rfl
      refine yields_file rfl ?_ ?_
      · intro fault u hfault ha hu _
        refine ⟨?_, _, fault, hfault⟩
        rw [hu]
        exact ha fault hfault
      · intro x u _ hx hu hh
        rw [show x = .ok (w.state.disk.inode n).content from hx.trans (by
          show v.state.disk.read p = _
          rw [hv, Disk.read, Disk.content, hn]
          rfl)]
        have hu : u.state = w.state := hu.trans hv
        refine (ih (hS.next hu (by simp [hh, asked])) hrest).imp ?_
        rintro r u ⟨more, hgone, hpruned, hrefs, hstats⟩
        refine ⟨more, hgone, hpruned.skip fun hnow h => ?_, fun sha => ?_, hstats⟩
        · exact absurd ((hold hnow).mpr (hS.isOld_iff.mpr h.2)) (by simp)
        · have hp : p ∉ more := fun h => (List.nodup_cons.mp hS.nodup).1 (hpruned.subset p h)
          rw [hrefs, List.mem_append, Referenced.cons hext hp, hcontent, or_assoc]

/-- A blob whose name is none of the digests. -/
def Unreferenced (referenced : String → Prop) (p : Path) : Prop :=
  ∃ hash, p.fileName.bind (stripSuffix ".bin") = some hash ∧ ¬ referenced hash

/-- The blobs of a snapshot. -/
theorem sweepBlobs_solo {referenced : List String} {blobs : List Path} (hS : Stage d gone blobs w)
    (hblob : ∀ p ∈ blobs, storage.byHash <+: p) :
    (cycleContract storage faults env i d).Yields (fun stats' u => ∃ more, Gone d (more ++ gone) u.state.disk ∧
      Picked (∀ n, faults n = none) (Unreferenced (· ∈ referenced)) blobs more ∧
      stats' = {stats with
        blobsDeleted := stats.blobsDeleted + counted more
        bytesFreed := stats.bytesFreed + weighed d more}) (Untouched faults d)
      (sweepBlobs referenced blobs stats) w := by
  induction blobs generalizing gone stats w with
  | nil => exact Yields.solo_pure ⟨[], hS.gone, .nil, by simp⟩
  | cons p rest ih =>
    have hrest : ∀ q ∈ rest, storage.byHash <+: q := fun q hq => hblob q (.tail _ hq)
    -- A blob that stays: it is not a blob by its name, it is referenced, or it was not found.
    have hstays : ∀ u, Stage d gone rest u → ((∀ n, faults n = none) → ¬ Unreferenced (· ∈ referenced) p) →
        (cycleContract storage faults env i d).Yields (fun stats' u => ∃ more, Gone d (more ++ gone) u.state.disk ∧
          Picked (∀ n, faults n = none) (Unreferenced (· ∈ referenced)) (p :: rest) more ∧
          stats' = {stats with
            blobsDeleted := stats.blobsDeleted + counted more
            bytesFreed := stats.bytesFreed + weighed d more}) (Untouched faults d)
          (sweepBlobs referenced rest stats) u := by
      intro u hu hp
      refine (ih hu hrest).imp ?_
      rintro stats' t ⟨more, hgone, hpicked, hstats⟩
      exact ⟨more, hgone, hpicked.skip hp, hstats⟩
    unfold sweepBlobs
    cases hname : p.fileName.bind (stripSuffix ".bin") with
    | none => exact hstays w (hS.next rfl) fun _ ⟨hash, hh, _⟩ => by rw [hname] at hh; cases hh
    | some hash =>
      dsimp only
      by_cases href : hash ∈ referenced
      · rw [if_pos href]
        refine hstays w (hS.next rfl) fun _ ⟨hash', hh, hnot⟩ => hnot ?_
        rw [hname] at hh
        exact Option.some.inj hh ▸ href
      rw [if_neg href]
      have hthere := hS.there p (.head _)
      refine Yields.solo_andThen (fileLen_solo hthere (.inl (hblob p (.head _)))) ?_
      rintro len v ⟨hv, rfl⟩
      refine yields_attempt rfl ?_ ?_
      · intro fault u hfault ha hu hh
        have hstage : Stage d gone rest u := hS.next (hu.trans hv)
        cases herror : fault.error with
        | notFound => exact hstays u hstage fun hnone => by rw [hnone] at hfault; cases hfault
        | alreadyExists | invalidData | other =>
          refine Yields.throw (solo_stable _) ⟨?_, _, fault, hfault⟩
          rw [hu]
          exact (ha fault hfault).resolve_right fun h => by rw [herror] at h; cases h.2
      · intro x u _ hx hu hh
        obtain ⟨n, hn⟩ := Option.isSome_iff_exists.mp hthere
        rw [show x = .ok () from hx.trans (by
          show (v.state.disk.removeFile p _).1 = _
          rw [hv, Disk.removeFile_some hn])]
        have hstage : Stage d (p :: gone) rest u := by
          refine hS.removed (env.clock v.history.length) ?_
          rw [hu, hv]
          rfl
        refine (ih hstage hrest).imp ?_
        rintro stats' t ⟨more, hgone, hpicked, rfl⟩
        refine ⟨more ++ [p], by rwa [List.append_assoc], hpicked.take fun _ => ⟨hash, hname, href⟩, ?_⟩
        rw [hS.size, add_counted, add_weighed]

/-! ### A cycle -/

/-- The files that were looked at are some of the tree, and all of it if `sure'`. -/
theorem Picked.congr {sure sure' : Prop} {P P' : Path → Prop} {files files' more : List Path}
    (h : Picked sure P files more) (hsubset : ∀ p ∈ files, p ∈ files')
    (hsure : sure' → sure ∧ (∀ p ∈ files', p ∈ files) ∧ ∀ p ∈ files, P p ↔ P' p) : Picked sure' P' files' more where
  subset p hp := hsubset p (h.subset p hp)
  exact hsure' p := by
    obtain ⟨hs, hfiles, hP⟩ := hsure hsure'
    rw [h.exact hs]
    constructor
    · exact fun hp => ⟨hsubset p hp.1, (hP p hp.1).mp hp.2⟩
    · exact fun hp => ⟨hfiles p hp.1, (hP p (hfiles p hp.1)).mpr hp.2⟩

/-- The listing of a tree: some of its files, and all of them if it is in one piece. -/
structure Listed (e : Disk) (root : Path) (files : List Path) : Prop where
  nodup : files.Nodup
  subset : ∀ p ∈ files, p ∈ e.below root
  whole : e.Rooted root → ∀ p ∈ e.below root, p ∈ files

theorem Listed.of_walking {files : List Path} (h : e.Walking root [] files) : Listed e root files := by
  obtain ⟨hpart, hwhole⟩ := h.finish
  refine ⟨?_, hpart.subset, fun hd p hp => (hwhole hd).subset hp⟩
  obtain ⟨l, hl, hsub⟩ := hpart
  exact hl.nodup_iff.mp (hsub.nodup (e.nodup.filter _))

/-- **A walk finds the files of its tree.** -/
theorem collectFiles_solo {fuel : Nat} :
    (cycleContract storage faults env i d).Yields
      (fun files u => u.state = w.state ∧ asked u.history = none ∧ Listed w.state.disk root files)
      (Untouched faults d) (collectFiles fuel root) w := by
  refine Yields.mono (collectFiles_rule
    (W := fun dirs files u => u.state = w.state ∧ asked u.history = none ∧ w.state.disk.Walking root dirs files)
    (A := fun u => u = w) (fun _ => solo_stable _) (fun _ _ => solo_stable _)
    (solo_stable _) ?_ ?_ rfl) (fun files u h => ⟨h.1, h.2.1, .of_walking h.2.2⟩) fun _ _ h => h
  · intro t x u ht ha hx
    subst ht
    refine ⟨trivial, ?_⟩
    obtain ⟨hh, ⟨fault, hf, rfl, hu⟩ | ⟨-, rfl, hu⟩⟩ := execFaultyAs_file rfl hx
    · exact ⟨by rw [hu]; exact ha fault hf, _, fault, hf⟩
    · refine ⟨hu, by rw [hh]; rfl, ?_⟩
      cases hroot : t.state.disk.occupied root with
      | true => exact .begin _ _
      | false => exact .absent hroot
  · rintro dir dirs files t x u ⟨ht, -, hwalk⟩ ha hx
    refine ⟨trivial, ?_⟩
    obtain ⟨hh, ⟨fault, hf, rfl, hu⟩ | ⟨-, rfl, hu⟩⟩ := execFaultyAs_file rfl hx
    · exact ⟨by rw [hu]; exact ha fault hf, _, fault, hf⟩
    · refine ⟨hu.trans ht, by rw [hh]; rfl, ?_⟩
      show w.state.disk.Walking root ((subdirectories (List.map _ _)).reverse ++ dirs) (files ++ plainFiles (List.map _ _))
      rw [subdirectories_map, plainFiles_map, ht]
      exact hwalk.step ((env.order _).perm _)

theorem scanning_of_listed {files : List Path} (hgone : Gone d gone w.state.disk)
    (hfiles : Listed w.state.disk root files) (hu : u.state = w.state) (hasked : asked u.history = none) :
    Scanning d gone files u where
  gone := by rwa [hu]
  there p hp := by
    rw [hu]
    exact (Disk.mem_below.mp (hfiles.subset p hp)).2.2
  nodup := hfiles.nodup
  unasked p _ := by
    rw [hasked]
    exact nofun

/-- A tree that none of the removed files was in. -/
theorem Gone.mem_below (h : Gone d gone e) (hroot : ∀ p ∈ gone, ¬ root <+: p) :
    p ∈ e.below root ↔ p ∈ d.below root := by
  rw [Disk.mem_below, Disk.mem_below]
  refine and_congr_right fun hp => ?_
  rw [h.file_of_notMem fun hmem => hroot p hmem hp]

/-- The files of a kind that are past their time, of a whole tree. -/
abbrev Expunged (d : Disk) (env : Env) (now : Time) (ttl : UInt64) (ext : String) (root : Path) (more : List Path) :
    Prop :=
  Picked (d.Rooted root ∧ ∀ n, env.clock n = now) (fun p => hasExtension p ext = true ∧ IsOld d now ttl p)
    (d.below root) more

/-- What a cycle removes: logs and indexes past their time, and the blobs that no other index points to. -/
structure Swept (json : SerdeJson) (storage : StoragePaths) (config : RetentionConfig) (faults : Faults) (env : Env)
    (now : Time) (d : Disk) (logs indexes blobs : List Path) : Prop where
  logFiles : Expunged d env now config.logsTtlDays "ndjson" storage.logsDir logs
  indexFiles : Expunged d env now config.crashesTtlDays "json" storage.bySource indexes
  blobFiles : Picked ((d.Rooted storage.byHash ∧ d.Rooted storage.bySource) ∧ ∀ n, faults n = none)
    (fun p => hasExtension p "bin" = true ∧ Unreferenced (Referenced json d (d.below storage.bySource) indexes) p)
    (d.below storage.byHash) blobs

variable {fuel : Nat} {config : RetentionConfig}

theorem snapshotBlobs_solo :
    (cycleContract storage faults env i d).Yields (fun blobs u => u.state = w.state ∧ ∃ files,
      Listed w.state.disk storage.byHash files ∧ blobs = files.filter (hasExtension · "bin")) (Untouched faults d)
      (snapshotBlobs fuel storage) w := by
  unfold snapshotBlobs
  refine Yields.solo_andThen collectFiles_solo ?_
  rintro files u ⟨hu, -, hfiles⟩
  exact Yields.solo_pure ⟨hu, files, hfiles, rfl⟩

/-- The listing of a tree that none of the removed files was in. -/
theorem Listed.mem_iff {files : List Path} (h : Listed e root files) (hgone : Gone d gone e)
    (hapart : ∀ p ∈ gone, ¬ root <+: p) : (∀ p ∈ files, p ∈ d.below root) ∧
      (d.Rooted root → ∀ p ∈ d.below root, p ∈ files) :=
  ⟨fun p hp => (hgone.mem_below hapart).mp (h.subset p hp),
    fun hd p hp => h.whole (hgone.rooted hd) p ((hgone.mem_below hapart).mpr hp)⟩

theorem pruneLogs_solo (now : Time) (hgone : Gone d gone w.state.disk)
    (hapart : ∀ p ∈ gone, ¬ storage.logsDir <+: p) :
    (cycleContract storage faults env i d).Yields (fun stats' u => ∃ logs, Gone d (logs ++ gone) u.state.disk ∧
      Expunged d env now ttl "ndjson" storage.logsDir logs ∧
      stats' = {stats with
        logsDeleted := stats.logsDeleted + counted logs
        bytesFreed := stats.bytesFreed + weighed d logs}) (Untouched faults d) (pruneLogs fuel storage ttl stats) w := by
  unfold pruneLogs
  refine Yields.solo_andThen collectFiles_solo ?_
  rintro files u ⟨hu, hasked, hfiles⟩
  obtain ⟨hsubset, hwhole⟩ := hfiles.mem_iff hgone hapart
  refine (pruneLogFiles_solo now (scanning_of_listed hgone hfiles hu hasked) ?_).imp ?_
  · exact fun p hp hblob => storage.regions_apart.2.1 ⟨(Disk.mem_below.mp (hsubset p hp)).1, hblob⟩
  · rintro stats' t ⟨logs, hlogs, hpruned, rfl⟩
    exact ⟨logs, hlogs, hpruned.congr hsubset fun hsure => ⟨hsure.2, hwhole hsure.1, fun _ _ => Iff.rfl⟩, rfl⟩

theorem pruneIndexes_solo (now : Time) {json : SerdeJson} (hgone : Gone d gone w.state.disk)
    (hapart : ∀ p ∈ gone, ¬ storage.bySource <+: p) :
    (cycleContract storage faults env i d).Yields (fun r u => ∃ indexes, Gone d (indexes ++ gone) u.state.disk ∧
      Expunged d env now ttl "json" storage.bySource indexes ∧
      (d.Rooted storage.bySource → ∀ sha, sha ∈ r.1 ↔ Referenced json d (d.below storage.bySource) indexes sha) ∧
      r.2 = {stats with
        indexesDeleted := stats.indexesDeleted + counted indexes
        bytesFreed := stats.bytesFreed + weighed d indexes}) (Untouched faults d)
      (pruneIndexesAndCollectReferences fuel json storage ttl stats) w := by
  unfold pruneIndexesAndCollectReferences
  refine Yields.solo_andThen collectFiles_solo ?_
  rintro files u ⟨hu, hasked, hfiles⟩
  obtain ⟨hsubset, hwhole⟩ := hfiles.mem_iff hgone hapart
  refine (pruneIndexFiles_solo now (scanning_of_listed hgone hfiles hu hasked) ?_).imp ?_
  · exact fun p hp hblob => storage.regions_apart.1 ⟨(Disk.mem_below.mp (hsubset p hp)).1, hblob⟩
  · rintro ⟨referenced, stats'⟩ t ⟨indexes, hindexes, hpruned, hrefs, rfl⟩
    refine ⟨indexes, hindexes, hpruned.congr hsubset fun hsure => ⟨hsure.2, hwhole hsure.1, fun _ _ => Iff.rfl⟩,
      fun hd sha => ?_, rfl⟩
    rw [hrefs, or_iff_right List.not_mem_nil]
    exact exists_congr fun p => and_congr_left fun _ => ⟨hsubset p, hwhole hd p⟩

/-- **What a cycle does**, where it comes to its end, and that nothing is removed where it does not. -/
theorem runJanitorCycle_solo (now : Time) {json : SerdeJson} (hw : w.state.disk = d) :
    (cycleContract storage faults env i d).Yields (fun stats u => ∃ logs indexes blobs,
      Swept json storage config faults env now d logs indexes blobs ∧
      Gone d (blobs ++ (indexes ++ logs)) u.state.disk ∧
      stats = ⟨counted logs, counted indexes, counted blobs, weighed d (blobs ++ (indexes ++ logs))⟩)
      (Untouched faults d) (runJanitorCycle fuel json storage config) w := by
  unfold runJanitorCycle
  refine Yields.solo_andThen snapshotBlobs_solo ?_
  rintro snapshot u ⟨hu, files, hfiles, rfl⟩
  rw [hw] at hfiles
  have hbegin : Gone d [] u.state.disk := by
    rw [hu, hw]
    exact .refl _
  refine Yields.solo_andThen (pruneLogs_solo now hbegin (by simp)) ?_
  rintro stats u ⟨logs, hlogs, hprunedLogs, rfl⟩
  rw [List.append_nil] at hlogs
  have hunderLogs : ∀ p ∈ logs, storage.logsDir <+: p := fun p hp => (Disk.mem_below.mp (hprunedLogs.subset p hp)).1
  refine Yields.solo_andThen (pruneIndexes_solo now hlogs fun p hp h =>
    storage.regions_apart.2.2 ⟨hunderLogs p hp, h⟩) ?_
  rintro ⟨referenced, stats⟩ u ⟨indexes, hindexes, hprunedIndexes, hrefs, rfl⟩
  have hstage : Stage d (indexes ++ logs) (files.filter (hasExtension · "bin")) u := by
    refine ⟨hindexes, fun p hp => ?_, hfiles.nodup.filter _⟩
    obtain ⟨hunder, -, hfile⟩ := Disk.mem_below.mp (hfiles.subset p (List.mem_filter.mp hp).1)
    rw [hindexes.file_of_notMem]
    · exact hfile
    · rw [List.mem_append, not_or]
      exact ⟨fun h => storage.regions_apart.1 ⟨(Disk.mem_below.mp (hprunedIndexes.subset p h)).1, hunder⟩,
        fun h => storage.regions_apart.2.1 ⟨hunderLogs p h, hunder⟩⟩
  refine (sweepBlobs_solo hstage fun p hp =>
    (Disk.mem_below.mp (hfiles.subset p (List.mem_filter.mp hp).1)).1).imp ?_
  rintro stats u ⟨blobs, hblobs, hpicked, rfl⟩
  refine ⟨logs, indexes, blobs, ⟨hprunedLogs, hprunedIndexes, ⟨fun p hp => ?_, fun hsure p => ?_⟩⟩, hblobs, ?_⟩
  · exact hfiles.subset p (List.mem_filter.mp (hpicked.subset p hp)).1
  · obtain ⟨⟨hhash, hsource⟩, hnone⟩ := hsure
    rw [hpicked.exact hnone, List.mem_filter, and_assoc]
    refine and_congr ⟨hfiles.subset p, hfiles.whole hhash p⟩ (and_congr_right fun _ => exists_congr fun hash =>
      and_congr_right fun _ => ?_)
    exact not_congr (hrefs hsource hash)
  · rw [weighed_append, weighed_append]
    simp only [UInt64.zero_add, JanitorStats.mk.injEq, true_and]
    rw [UInt64.add_comm (weighed d blobs), UInt64.add_comm (weighed d indexes)]

/-! ### Counters -/

/-- The blobs among some paths. -/
def blobCount (storage : StoragePaths) (paths : List Path) : Nat := paths.countP fun p => decide (storage.byHash <+: p)

def byteCount (d : Disk) (paths : List Path) : Nat := (paths.map (fileSize d)).sum

theorem Swept.blobCount {json : SerdeJson} {logs indexes blobs : List Path}
    (h : Swept json storage config faults env now d logs indexes blobs) :
    blobCount storage (blobs ++ (indexes ++ logs)) = blobs.length := by
  have hblobs : blobs.countP (fun p => decide (storage.byHash <+: p)) = blobs.length :=
    List.countP_eq_length.mpr fun p hp => decide_eq_true (Disk.mem_below.mp (h.blobFiles.subset p hp)).1
  have hindexes : indexes.countP (fun p => decide (storage.byHash <+: p)) = 0 :=
    List.countP_eq_zero.mpr fun p hp hblob => storage.regions_apart.1
      ⟨(Disk.mem_below.mp (h.indexFiles.subset p hp)).1, of_decide_eq_true hblob⟩
  have hlogs : logs.countP (fun p => decide (storage.byHash <+: p)) = 0 :=
    List.countP_eq_zero.mpr fun p hp hblob => storage.regions_apart.2.1
      ⟨(Disk.mem_below.mp (h.logFiles.subset p hp)).1, of_decide_eq_true hblob⟩
  rw [Server.blobCount, List.countP_append, List.countP_append, hblobs, hindexes, hlogs]
  rfl

/-- The removals of one turn of the loop are in the counters. -/
theorem janitorTick_holds {json : SerdeJson} {m : JanitorMetrics} (hw : w.state.disk = d) :
    (cycleContract storage faults env i d).Holds (fun m' u =>
      m'.blobsFreedTotal = m.blobsFreedTotal + .ofNat (blobCount storage (removed d u.state.disk)) ∧
      m'.bytesFreedTotal = m.bytesFreedTotal + .ofNat (byteCount d (removed d u.state.disk)))
      (janitorTick fuel json storage config m) w := by
  unfold janitorTick
  refine Holds.andThen (runJanitorCycle_solo 0 hw) fun r u hr => ?_
  cases r with
  | ok stats =>
    obtain ⟨logs, indexes, blobs, hswept, hgone, rfl⟩ := hr
    refine Holds.solo_done ⟨?_, ?_⟩
    · show _ + counted blobs = _
      rw [blobCount, hgone.removed.countP_eq, ← blobCount, hswept.blobCount, counted]
    · show _ + weighed d (blobs ++ (indexes ++ logs)) = _
      rw [byteCount, (hgone.removed.map _).sum_eq, weighed]
  | error e =>
    have hr : removed d u.state.disk = [] := hr.1
    refine Holds.solo_call fun _ v _ hv => Holds.solo_done ?_
    obtain ⟨-, hv⟩ := execFaultyAs_other (by simp) hv
    obtain ⟨-, hv⟩ := result_eq hv
    rw [← hv, hr]
    exact ⟨rfl, rfl⟩

/-- Turns of the loop one after the other, each with the storage before and after it. Between two of them the
storage may have become any other in which no file stands where a tree should. A cycle that panics takes the loop
with it. -/
inductive Ticks (fuel : Nat) (json : SerdeJson) (storage : StoragePaths) (config : RetentionConfig) (faults : Faults)
    (env : Env) (i : ι) (allows : Disk → ServerOp → ServerState ι → Prop) :
    JanitorMetrics → List (ServerState ι × ServerState ι) → JanitorMetrics → Prop
  | nil (m : JanitorMetrics) : Ticks fuel json storage config faults env i allows m [] m
  | cons {m m' m'' : JanitorMetrics} {w u : ServerState ι} {rest : List (ServerState ι × ServerState ι)}
      (hroots : ∀ root ∈ storage.roots, w.state.disk.file root = none)
      (hmeets : (janitorTick fuel json storage config m).Meets (execFaultyAs faults env i) (allows w.state.disk) w)
      (hrun : (janitorTick fuel json storage config m).run (execFaultyAs faults env i) w = some (m', u))
      (hrest : Ticks fuel json storage config faults env i allows m' rest m'') :
      Ticks fuel json storage config faults env i allows m ((w, u) :: rest) m''
  | panicked {m : JanitorMetrics} {w u : ServerState ι}
      (hroots : ∀ root ∈ storage.roots, w.state.disk.file root = none)
      (hmeets : (janitorTick fuel json storage config m).Meets (execFaultyAs faults env i) (allows w.state.disk) w)
      (hpanic : (janitorTick fuel json storage config m).halts (execFaultyAs faults env i) w = some (.panic, u)) :
      Ticks fuel json storage config faults env i allows m [(w, u)] m

/-- The blobs and the bytes that went in some turns. -/
def blobsGone (storage : StoragePaths) (ticks : List (ServerState ι × ServerState ι)) : Nat :=
  (ticks.map fun t => blobCount storage (removed t.1.state.disk t.2.state.disk)).sum

def bytesGone (ticks : List (ServerState ι × ServerState ι)) : Nat :=
  (ticks.map fun t => byteCount t.1.state.disk (removed t.1.state.disk t.2.state.disk)).sum

theorem blobsGone_cons (t : ServerState ι × ServerState ι) (ticks : List (ServerState ι × ServerState ι)) :
    blobsGone storage (t :: ticks) =
      blobCount storage (removed t.1.state.disk t.2.state.disk) + blobsGone storage ticks := by
  rw [blobsGone, List.map_cons, List.sum_cons, blobsGone]

theorem bytesGone_cons (t : ServerState ι × ServerState ι) (ticks : List (ServerState ι × ServerState ι)) :
    bytesGone (t :: ticks) = byteCount t.1.state.disk (removed t.1.state.disk t.2.state.disk) + bytesGone ticks := by
  rw [bytesGone, List.map_cons, List.sum_cons, bytesGone]

theorem Ticks.counters {json : SerdeJson} {m m' : JanitorMetrics} {ticks : List (ServerState ι × ServerState ι)}
    (h : Ticks fuel json storage config faults env i (Harmless storage faults) m ticks m') :
    m'.blobsFreedTotal = m.blobsFreedTotal + .ofNat (blobsGone storage ticks) ∧
      m'.bytesFreedTotal = m.bytesFreedTotal + .ofNat (bytesGone ticks) := by
  induction h with
  | nil m => exact ⟨(UInt64.add_zero _).symm, (UInt64.add_zero _).symm⟩
  | cons _ hmeets hrun _ ih =>
    obtain ⟨hblobs, hbytes⟩ := (janitorTick_holds rfl).run hmeets hrun
    rw [ih.1, ih.2, hblobs, hbytes, blobsGone_cons, bytesGone_cons, UInt64.ofNat_add, UInt64.ofNat_add,
      ← UInt64.add_assoc, ← UInt64.add_assoc]
    exact ⟨rfl, rfl⟩
  | panicked _ hmeets hpanic =>
    have hnone : removed _ _ = [] := hmeets.halts hpanic
    rw [blobsGone_cons, bytesGone_cons, hnone]
    exact ⟨(UInt64.add_zero _).symm, (UInt64.add_zero _).symm⟩

/-- **The counters account for every removal**, in 64 bits, as long as faults and panics do no harm. -/
theorem janitor_accounts {json : SerdeJson} {config : RetentionConfig} {m m' : JanitorMetrics}
    {ticks : List (ServerState ι × ServerState ι)}
    (h : Ticks fuel json storage config faults env i (Harmless storage faults) m ticks m') :
    m'.blobsFreedTotal.toNat = (m.blobsFreedTotal.toNat + blobsGone storage ticks) % 2 ^ 64 ∧
      m'.bytesFreedTotal.toNat = (m.bytesFreedTotal.toNat + bytesGone ticks) % 2 ^ 64 := by
  rw [h.counters.1, h.counters.2, UInt64.toNat_add, UInt64.toNat_add, UInt64.toNat_ofNat', UInt64.toNat_ofNat']
  exact ⟨Nat.add_mod_mod .., Nat.add_mod_mod ..⟩

end Cycle

/-! Two blobs that nothing points to, and no clock but zero. -/

def firstBlob : Path := ["data", "crashes", "by-hash", "aa", "aa.bin"]

def secondBlob : Path := ["data", "crashes", "by-hash", "bb", "bb.bin"]

def twoBlobs : ServerState Unit :=
  let d := (Disk.empty.createDirAll firstBlob.parent 0).createDirAll secondBlob.parent 0
  let d := (d.create secondBlob 0).2
  let d := (d.create firstBlob 0).2
  ⟨⟨(d.write ⟨1, 0, false⟩ [1, 2, 3] 0).2, fun _ => none, []⟩, []⟩

theorem twoBlobs_roots : ∀ root ∈ StoragePaths.roots ⟨["data"]⟩, twoBlobs.state.disk.file root = none := by
  decide +kernel

def zeroMetrics : JanitorMetrics := ⟨0, 0, 0, 0, 0, 0⟩

/-- One fault, at a call. -/
def faultAt (n : Nat) : Faults := fun m => if m = n then some ⟨.other, 0⟩ else none

/-- The cycle of the examples: nothing expires, and ten directories are enough. -/
abbrev sampleTick (m : JanitorMetrics) : Program serverInterface JanitorMetrics :=
  janitorTick 10 CrashEnvelope.abcJson ⟨["data"]⟩ ⟨14, 90⟩ m

/-- The second removal fails, after one blob of three bytes has gone: the counters stay at zero. -/
theorem twoBlobs_unaccounted : ∃ m u,
    Ticks 10 CrashEnvelope.abcJson ⟨["data"]⟩ ⟨14, 90⟩ (faultAt 9) stillEnv () (fun _ _ _ => True) zeroMetrics
      [(twoBlobs, u)] m ∧
    m = ⟨1, 0, 0, 0, 0, 0⟩ ∧ removed twoBlobs.state.disk u.state.disk = [firstBlob] ∧
    blobsGone ⟨["data"]⟩ [(twoBlobs, u)] = 1 ∧ bytesGone [(twoBlobs, u)] = 3 := by
  have hrun : ((sampleTick zeroMetrics).run (execFaultyAs (faultAt 9) stillEnv ()) twoBlobs).any
      (fun x => x.1 = ⟨1, 0, 0, 0, 0, 0⟩ && removed twoBlobs.state.disk x.2.state.disk = [firstBlob]) = true := by
    decide +kernel
  obtain ⟨⟨m, u⟩, hx, hp⟩ := (Option.any_eq_true _ _).mp hrun
  simp only [Bool.and_eq_true, decide_eq_true_eq] at hp
  have hmeets : (sampleTick zeroMetrics).Meets (execFaultyAs (faultAt 9) stillEnv ()) (fun _ _ => True) twoBlobs :=
    .of_invariant (I := fun _ => True) (fun _ _ _ => trivial) (fun _ _ _ _ _ _ => trivial) _ trivial
  have hbytes : byteCount twoBlobs.state.disk [firstBlob] = 3 := by decide +kernel
  have hblobs : blobCount ⟨["data"]⟩ [firstBlob] = 1 := by decide +kernel
  exact ⟨m, u, .cons twoBlobs_roots hmeets hx (.nil _), hp.1, hp.2, by rw [blobsGone_cons, hp.2, hblobs]; rfl,
    by rw [bytesGone_cons, hp.2, hbytes]; rfl⟩

/-- The calls of a cycle that began with the disk `d`, where the fault is at the first call of all. -/
def permitsFirst (d : Disk) (op : ServerOp) (w : ServerState Unit) : Bool :=
  match op with
  | .file (.tryExists _) => w.history.length ≠ 0 || removed d w.state.disk = []
  | .file _ => w.history.length ≠ 0
  | .panic => false
  | _ => true

theorem harmless_of_permitsFirst (d : Disk) (op : ServerOp) (w : ServerState Unit) (h : permitsFirst d op w = true) :
    Harmless ⟨["data"]⟩ (faultAt 0) d op w := by
  have hfirst : ∀ fault, faultAt 0 w.history.length = some fault → w.history.length = 0 := by
    intro fault hf
    by_contra hne
    rw [faultAt, if_neg hne] at hf
    cases hf
  cases op with
  | file op =>
    intro fault hf
    have hzero := hfirst fault hf
    cases op with
    | tryExists p => simpa [permitsFirst, hzero] using h
    | _ => simp [permitsFirst, hzero] at h
  | panic => cases h
  | _ => trivial

/-- The first listing fails; a second cycle removes both blobs. -/
theorem janitor_accounts_later : ∃ u v m,
    Ticks 10 CrashEnvelope.abcJson ⟨["data"]⟩ ⟨14, 90⟩ (faultAt 0) stillEnv () (Harmless ⟨["data"]⟩ (faultAt 0)) zeroMetrics
      [(twoBlobs, u), (u, v)] m ∧ m.blobsFreedTotal = 2 ∧
      m.blobsFreedTotal.toNat = (0 + blobsGone ⟨["data"]⟩ [(twoBlobs, u), (u, v)]) % 2 ^ 64 := by
  have hruns : ((sampleTick zeroMetrics).check (execFaultyAs (faultAt 0) stillEnv ())
      (permitsFirst twoBlobs.state.disk) twoBlobs).any (fun x =>
        ((sampleTick x.1).check (execFaultyAs (faultAt 0) stillEnv ()) (permitsFirst x.2.state.disk) x.2).any
          (fun y => y.1.blobsFreedTotal = 2) && decide (∀ root ∈ StoragePaths.roots ⟨["data"]⟩,
            x.2.state.disk.file root = none)) = true := by decide +kernel
  obtain ⟨⟨m, u⟩, hu, hp⟩ := (Option.any_eq_true _ _).mp hruns
  rw [Bool.and_eq_true, decide_eq_true_eq] at hp
  obtain ⟨⟨m', v⟩, hv, hblobs⟩ := (Option.any_eq_true _ _).mp hp.1
  obtain ⟨hmeets, hrun⟩ := Program.meets_of_check (harmless_of_permitsFirst _) hu
  obtain ⟨hmeets', hrun'⟩ := Program.meets_of_check (harmless_of_permitsFirst _) hv
  have hticks := Ticks.cons twoBlobs_roots hmeets hrun (.cons hp.2 hmeets' hrun' (.nil _))
  exact ⟨u, v, m', hticks, of_decide_eq_true hblobs, (janitor_accounts hticks).1⟩

end Detritus.Server
