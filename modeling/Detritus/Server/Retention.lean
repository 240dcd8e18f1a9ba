import Detritus.Server.Accounting
import Detritus.Server.Confinement
import Detritus.Server.Expiry

/-! A janitor cycle on a storage that nobody else is using.

`cycle_exact` says what is left of a storage after a cycle: every file except the logs and
the indexes that have expired and the blobs that no other index points to. A second cycle
at the same time finds nothing more to remove. -/
namespace Detritus.Server
open Files Protocol Process Contract Discipline

/-! ### A cycle comes to its end -/

/-- The directories in a directory. -/
def childDirs (d : Disk) (p : Path) : List Path := (d.children p).filter fun q => (d.dir q).isSome

theorem mem_childDirs {d : Disk} {p q : Path} : q ∈ childDirs d p ↔ q ≠ [] ∧ q.parent = p ∧ (d.dir q).isSome = true := by
  rw [childDirs, List.mem_filter, Disk.mem_children, Disk.occupied]
  by_cases hq : (d.dir q).isSome = true <;> simp [hq]

theorem Gone.childDirs {d e : Disk} {gone : List Path} (h : Gone d gone e) (p : Path) :
    (childDirs e p).Perm (childDirs d p) := by
  refine (List.perm_ext_iff_of_nodup ((e.nodup.filter _).filter _) ((d.nodup.filter _).filter _)).mpr fun q => ?_
  rw [← Disk.children, ← Disk.children, ← Server.childDirs, ← Server.childDirs, mem_childDirs, mem_childDirs, h.dir]

theorem Gone.dirsFrom {d e : Disk} {gone : List Path} (h : Gone d gone e) (p : Path) :
    (e.dirsFrom p).Perm (d.dirsFrom p) := by
  refine (List.perm_ext_iff_of_nodup (e.nodup.filter _) (d.nodup.filter _)).mpr fun q => ?_
  rw [← Disk.dirsFrom, ← Disk.dirsFrom, Disk.mem_dirsFrom, Disk.mem_dirsFrom, h.dir]

/-- Calls that are always answered, with the clock at `now` and the directories of `d`. -/
def steady (ι : Type) (now : Time) (d : Disk) : Discipline serverInterface ι where
  fits op x := match op, x with
    | .now, x => x = now
    | .file (.readDir p), x => ∀ entries, x = .ok entries → (subdirectories entries).Perm (childDirs d p)
    | .file (.tryExists p), x => x = .ok true → d.file p = none → (d.dir p).isSome = true
    | _, _ => True
  may _ op _ := match op with
    | .file (.tryExists _) | .file (.readDir _) | .file (.metadata _) | .file (.read _) | .file (.removeFile _) => True
    | .now => True
    | _ => False
  grows _ h := h

section Ends
variable {ι : Type} {i : ι} {now : Time} {d : Disk} {ttl : UInt64} {h : List (ServerEvent ι)} {fuel : Nat}
  {json : SerdeJson} {env : Env}

/-- The moment a retention ago can be told, in 64 bits. -/
structure Tellable (now : Time) (ttl : UInt64) : Prop where
  seconds : ttl.toNat * 86400 < 2 ^ 64
  moment : ttl.toNat * 86400 ≤ now / 1000000000 + 2 ^ 63

theorem Tellable.cutoff (h : Tellable now ttl) : ∃ moment, Server.cutoff now ttl = some moment := by
  rw [cutoff_eq, ttlSeconds, Nat.mod_eq_of_lt h.seconds, if_pos h.moment]
  exact ⟨_, rfl⟩

/-- A walk ends if there is fuel for the directories that it leads to. -/
theorem collectFrom_minds {dirs : List Path} (hdirs : ∀ p ∈ dirs, (d.dir p).isSome = true)
    (hfuel : (dirs.flatMap d.dirsFrom).length ≤ fuel) (files : List Path) :
    (steady ι now d).Minds i (fun _ _ => True) (collectFrom fuel dirs files) h := by
  induction fuel generalizing dirs files h with
  | zero =>
    cases dirs with
    | nil => exact Minds.pure trivial
    | cons p dirs =>
      have hmem : p ∈ d.dirsFrom p := Disk.mem_dirsFrom.mpr ⟨List.prefix_refl p, hdirs p (.head _)⟩
      rw [List.flatMap_cons, List.length_append] at hfuel
      have hpos := List.length_pos_of_mem hmem
      omega
  | succ fuel ih =>
    cases dirs with
    | nil => exact Minds.pure trivial
    | cons p dirs =>
      refine minds_file trivial fun entries hfits => ?_
      have hperm : (subdirectories entries).Perm (childDirs d p) := hfits entries rfl
      refine ih (fun q hq => ?_) ?_ _
      · rcases List.mem_append.mp hq with hq | hq
        · exact (mem_childDirs.mp (hperm.mem_iff.mp (List.mem_reverse.mp hq))).2.2
        · exact hdirs q (.tail _ hq)
      · -- the directory itself is done with
        have hless := Disk.dirsFrom_listing (List.Perm.refl (d.children p)) (hdirs p (.head _))
        have hplace := (((List.reverse_perm _).trans hperm).flatMap_right d.dirsFrom).length_eq
        rw [childDirs] at hplace
        rw [List.flatMap_cons, List.length_append] at hfuel
        rw [List.flatMap_append, List.length_append]
        omega

theorem collectFiles_minds {root : Path} (hroot : d.file root = none) (hfuel : (d.dirsFrom []).length ≤ fuel) :
    (steady ι now d).Minds i (fun _ _ => True) (collectFiles fuel root) h := by
  unfold collectFiles
  refine minds_file trivial fun found hfits => ?_
  cases found with
  | false => exact Minds.pure trivial
  | true =>
    refine collectFrom_minds (fun p hp => ?_) ?_ []
    · rw [List.mem_singleton.mp hp]
      exact hfits rfl hroot
    · rw [List.flatMap_cons, List.flatMap_nil, List.append_nil]
      refine le_trans ((d.nodup.filter _).subperm fun q hq => ?_).length_le hfuel
      exact Disk.mem_dirsFrom.mpr ⟨List.nil_prefix, (Disk.mem_dirsFrom.mp hq).2⟩

theorem isOlderThan_minds (httl : Tellable now ttl) (p : Path) :
    (steady ι now d).Minds i (fun _ _ => True) (isOlderThan p ttl) h := by
  unfold isOlderThan
  refine minds_file trivial fun m _ => ?_
  split
  · exact Minds.pure trivial
  · refine minds_call trivial fun t ht => ?_
    have ht : t = now := ht
    subst ht
    obtain ⟨moment, hmoment⟩ := httl.cutoff
    rw [hmoment]
    exact Minds.pure trivial

theorem fileLen_minds (p : Path) : (steady ι now d).Minds i (fun _ _ => True) (fileLen p) h := by
  unfold fileLen
  exact minds_call trivial fun _ _ => Minds.pure trivial

/-- A loop whose files are looked at one by one. -/
theorem age_minds {β : Type} {Q : β → List (ServerEvent ι) → Prop} (httl : Tellable now ttl) {p : Path}
    {f : UInt64 → Handler JanitorError β} {g : Handler JanitorError β}
    (hf : ∀ len h', (steady ι now d).Minds i Q (f len) h')
    (hg : ∀ h', (steady ι now d).Minds i Q g h') :
    (steady ι now d).Minds i Q (do
      let old ← isOlderThan p ttl
      if old then
        let len ← fileLen p
        file JanitorError.io (.removeFile p)
        f len
      else g) h := by
  refine Minds.bind (isOlderThan_minds httl p) fun old h' _ _ => ?_
  split
  · refine Minds.bind (fileLen_minds p) fun len h' _ _ => ?_
    exact minds_file trivial fun _ _ => hf len _
  · exact hg h'

theorem pruneLogFiles_minds (httl : Tellable now ttl) (files : List Path) (stats : JanitorStats) :
    (steady ι now d).Minds i (fun _ _ => True) (pruneLogFiles ttl files stats) h := by
  induction files generalizing stats h with
  | nil => exact Minds.pure trivial
  | cons p rest ih =>
    unfold pruneLogFiles
    split
    · exact ih stats
    · exact age_minds httl (fun len h' => ih _) fun h' => ih _

theorem pruneIndexFiles_minds (httl : Tellable now ttl) (files : List Path) (referenced : List String)
    (stats : JanitorStats) :
    (steady ι now d).Minds i (fun _ _ => True) (pruneIndexFiles json ttl files referenced stats) h := by
  induction files generalizing referenced stats h with
  | nil => exact Minds.pure trivial
  | cons p rest ih =>
    unfold pruneIndexFiles
    split
    · exact ih referenced stats
    · exact age_minds httl (fun len h' => ih _ _) fun h' => minds_file trivial fun bytes _ => ih _ _

theorem sweepBlobs_minds (referenced : List String) (blobs : List Path) (stats : JanitorStats) :
    (steady ι now d).Minds i (fun _ _ => True) (sweepBlobs referenced blobs stats) h := by
  induction blobs generalizing stats h with
  | nil => exact Minds.pure trivial
  | cons p rest ih =>
    unfold sweepBlobs
    split
    · exact ih stats
    · split
      · exact ih stats
      · refine Minds.bind (fileLen_minds p) fun len h' _ _ => ?_
        refine minds_call trivial fun x _ => ?_
        split
        · exact ih _
        · exact ih _
        · exact Minds.throw _

theorem runJanitorCycle_minds {storage : StoragePaths} {config : RetentionConfig}
    (hlogs : Tellable now config.logsTtlDays) (hcrashes : Tellable now config.crashesTtlDays)
    (hroots : ∀ root ∈ storage.roots, d.file root = none) (hfuel : (d.dirsFrom []).length ≤ fuel) :
    (steady ι now d).Minds i (fun _ _ => True) (runJanitorCycle fuel json storage config) h := by
  have hwalk : ∀ root ∈ storage.roots, ∀ h', (steady ι now d).Minds i (fun _ _ => True) (collectFiles fuel root) h' :=
    fun root hroot _ => collectFiles_minds (hroots root hroot) hfuel
  unfold runJanitorCycle snapshotBlobs pruneLogs pruneIndexesAndCollectReferences
  refine Minds.bind (Q := fun _ _ => True) (Minds.bind (hwalk _ (by simp [StoragePaths.roots]) _)
    fun _ _ _ _ => Minds.pure trivial) fun snapshot _ _ _ => ?_
  refine Minds.bind (Minds.bind (hwalk _ (by simp [StoragePaths.roots]) _)
    fun _ _ _ _ => pruneLogFiles_minds hlogs _ _) fun stats _ _ _ => ?_
  refine Minds.bind (Minds.bind (hwalk _ (by simp [StoragePaths.roots]) _)
    fun _ _ _ _ => pruneIndexFiles_minds hcrashes _ _ _) fun r _ _ _ => ?_
  exact sweepBlobs_minds _ _ _

theorem steady_answered (n : Nat) (op : ServerOp) (w : World) (hop : (steady ι now d).may i op h) :
    (World.exec env n op w).isSome := by
  cases op with
  | file op => rfl
  | now => rfl
  | _ => exact hop.elim

theorem steady_fits (hclock : ∀ n, env.clock n = now) (n : Nat) (op : ServerOp) (w : World) (x : op.Answer)
    (w' : World) (hw : ∃ gone, Gone d gone w.disk) (hx : World.exec env n op w = some (x, w')) :
    (steady ι now d).fits op x := by
  obtain ⟨gone, hgone⟩ := hw
  cases op with
  | now =>
    obtain ⟨hx, -⟩ := result_eq hx
    exact hx.symm.trans (hclock n)
  | file op =>
    obtain ⟨rfl, -⟩ := World.exec_file.mp hx
    cases op with
    | readDir p =>
      intro entries hentries
      rw [← Except.ok.inj hentries, subdirectories_map]
      exact (((env.order n).perm _).filter _).trans (hgone.childDirs p)
    | tryExists p =>
      intro hfound hfile
      have hoccupied : w.disk.occupied p = true := Except.ok.inj hfound
      rw [Disk.occupied, hgone.file, hfile, ite_self, Option.isSome_none, Bool.false_or] at hoccupied
      rwa [← hgone.dir]
    | _ => trivial
  | _ => trivial

theorem steady_keeps (n : Nat) (op : ServerOp) (w : World) (x : op.Answer) (w' : World)
    (hw : ∃ gone, Gone d gone w.disk) (hop : (steady ι now d).may i op h)
    (hx : World.exec env n op w = some (x, w')) : ∃ gone, Gone d gone w'.disk := by
  cases op with
  | now =>
    rw [World.exec_disk (by simp) hx]
    exact hw
  | file op =>
    obtain ⟨-, rfl⟩ := World.exec_file.mp hx
    cases op with
    | removeFile p =>
      obtain ⟨gone, hgone⟩ := hw
      cases hp : w.disk.file p with
      | none => exact ⟨gone, by rw [FileOp.exec, Disk.removeFile_none hp]; exact hgone⟩
      | some m => exact ⟨p :: gone, hgone.remove (by rw [hp]; rfl) _⟩
    | tryExists _ | readDir _ | metadata _ | read _ => exact hw
    | _ => exact hop.elim
  | _ => exact hop.elim

theorem runJanitorCycle_returns {storage : StoragePaths} {config : RetentionConfig}
    (hclock : ∀ n, env.clock n = now) (hlogs : Tellable now config.logsTtlDays)
    (hcrashes : Tellable now config.crashesTtlDays) (w : ServerState ι)
    (hroots : ∀ root ∈ storage.roots, w.state.disk.file root = none)
    (hfuel : (w.state.disk.dirsFrom []).length ≤ fuel) :
    ∃ r u, (runJanitorCycle fuel json storage config).alone env i w = some (r, u) :=
  Obeys.returns (runJanitorCycle_minds hlogs hcrashes hroots hfuel)
    (fun t => ∃ gone, Gone w.state.disk gone t.disk) ⟨[], .refl _⟩ (fun n op t _ hop => steady_answered n op t hop)
    (steady_fits hclock) steady_keeps fun _ _ _ h => h

end Ends

/-! ### What a cycle removes -/

section Removes
variable (json : SerdeJson) (storage : StoragePaths) (config : RetentionConfig) (now : Time) (d : Disk)

/-- When the file at a path was last written. -/
def modifiedAt (p : Path) : Time := ((d.file p).map fun n => (d.inode n).modified).getD 0

def expiredLogs : List Path := (d.below storage.logsDir).filter fun p =>
  hasExtension p "ndjson" && decide (Expired (modifiedAt d p) now config.logsTtlDays)

def expiredIndexes : List Path := (d.below storage.bySource).filter fun p =>
  hasExtension p "json" && decide (Expired (modifiedAt d p) now config.crashesTtlDays)

/-- The digests that the other indexes point to. -/
def liveReferences : List String :=
  ((d.below storage.bySource).filter fun p =>
    hasExtension p "json" && !decide (Expired (modifiedAt d p) now config.crashesTtlDays)).flatMap fun p =>
      references json ((d.content p).getD [])

def orphanedBlobs : List Path := (d.below storage.byHash).filter fun p =>
  hasExtension p "bin" && (p.fileName.bind (stripSuffix ".bin")).any (· ∉ liveReferences json storage config now d)

def cycleRemoves : List Path :=
  orphanedBlobs json storage config now d ++ (expiredIndexes storage config now d ++ expiredLogs storage config now d)

def cycleStats : JanitorStats where
  logsDeleted := counted (expiredLogs storage config now d)
  indexesDeleted := counted (expiredIndexes storage config now d)
  blobsDeleted := counted (orphanedBlobs json storage config now d)
  bytesFreed := weighed d (cycleRemoves json storage config now d)

/-- The three trees of the storage are trees: every directory on the way to a file is there, nothing is both a file and
a directory, and their roots are no files. -/
structure Sited : Prop where
  rooted : ∀ root ∈ storage.roots, d.Rooted root
  roots : ∀ root ∈ storage.roots, d.file root = none

end Removes

section Exact
variable {json : SerdeJson} {storage : StoragePaths} {config : RetentionConfig} {now : Time} {d : Disk} {env : Env}
  {ttl : UInt64} {p : Path}

/-- The age check says whether the file has expired. -/
theorem isOld_iff (httl : Tellable now ttl) (hp : (d.file p).isSome) :
    IsOld d now ttl p ↔ Expired (modifiedAt d p) now ttl := by
  obtain ⟨n, hn⟩ := Option.isSome_iff_exists.mp hp
  obtain ⟨moment, hmoment⟩ := httl.cutoff
  have hmodified : modifiedAt d p = (d.inode n).modified := by rw [modifiedAt, hn]; rfl
  rw [hmodified]
  by_cases hzero : ttl = 0
  · exact iff_of_true (.inl hzero) (.inl hzero)
  · rw [IsOld, or_iff_right hzero, ← cutoff_expired hzero httl.seconds hmoment]
    constructor
    · rintro ⟨m, moment', hm, hmoment', hle⟩
      obtain rfl := Option.some.inj (hn.symm.trans hm)
      obtain rfl := Option.some.inj (hmoment.symm.trans hmoment')
      exact hle
    · exact fun hle => ⟨n, moment, hn, hmoment, hle⟩

/-- What goes of a listing, as a list. -/
theorem Expunged.perm {ext : String} {root : Path} {more : List Path} (h : Expunged d env now ttl ext root more)
    (hroot : d.Rooted root) (hclock : ∀ n, env.clock n = now) (httl : Tellable now ttl) (hnodup : more.Nodup) :
    more.Perm ((d.below root).filter fun p => hasExtension p ext && decide (Expired (modifiedAt d p) now ttl)) := by
  refine (List.perm_ext_iff_of_nodup hnodup ((d.nodup.filter _).filter _)).mpr fun p => ?_
  rw [h.exact ⟨hroot, hclock⟩, List.mem_filter, Bool.and_eq_true, decide_eq_true_eq]
  exact and_congr_right fun hp => and_congr_right fun _ => isOld_iff httl (Disk.mem_below.mp hp).2.2

theorem Swept.perm {faults : Faults} {logs indexes blobs : List Path}
    (h : Swept json storage config faults env now d logs indexes blobs) (hsite : Sited storage d)
    (hclock : ∀ n, env.clock n = now) (hfaults : ∀ n, faults n = none) (hlogs : Tellable now config.logsTtlDays)
    (hcrashes : Tellable now config.crashesTtlDays) (hnodup : (blobs ++ (indexes ++ logs)).Nodup) :
    logs.Perm (expiredLogs storage config now d) ∧ indexes.Perm (expiredIndexes storage config now d) ∧
      blobs.Perm (orphanedBlobs json storage config now d) := by
  obtain ⟨hblobs, hrest, -⟩ := List.nodup_append.mp hnodup
  obtain ⟨hindexes, hlogs', -⟩ := List.nodup_append.mp hrest
  have hsource := hsite.rooted storage.bySource (by simp [StoragePaths.roots])
  have hperm := Expunged.perm h.indexFiles hsource hclock hcrashes hindexes
  refine ⟨Expunged.perm h.logFiles (hsite.rooted _ (by simp [StoragePaths.roots])) hclock hlogs hlogs', hperm, ?_⟩
  have hlive : ∀ sha, Referenced json d (d.below storage.bySource) indexes sha ↔
      sha ∈ liveReferences json storage config now d := by
    intro sha
    rw [liveReferences, List.mem_flatMap]
    refine exists_congr fun p => ?_
    rw [hperm.mem_iff, List.mem_filter, List.mem_filter]
    simp only [Bool.and_eq_true, decide_eq_true_eq, Bool.not_eq_true', decide_eq_false_iff_not]
    tauto
  refine (List.perm_ext_iff_of_nodup hblobs ((d.nodup.filter _).filter _)).mpr fun p => ?_
  rw [h.blobFiles.exact ⟨⟨hsite.rooted _ (by simp [StoragePaths.roots]), hsource⟩, hfaults⟩, List.mem_filter,
    Bool.and_eq_true]
  refine and_congr_right fun _ => and_congr_right fun _ => ?_
  rw [Option.any_eq_true, Unreferenced]
  refine exists_congr fun hash => and_congr_right fun _ => ?_
  rw [decide_eq_true_eq]
  exact not_congr (hlive hash)

section Alone
variable {ι : Type} {i : ι}

/-- A cycle without faults does not panic. -/
theorem runJanitorCycle_harmless {fuel : Nat} {w : ServerState ι} (hclock : ∀ n, env.clock n = now)
    (hlogs : Tellable now config.logsTtlDays) (hcrashes : Tellable now config.crashesTtlDays)
    (hroots : ∀ root ∈ storage.roots, w.state.disk.file root = none)
    (hfuel : (w.state.disk.dirsFrom []).length ≤ fuel) :
    (runJanitorCycle fuel json storage config).run.Meets (execFaultyAs (fun _ => none) env i)
      (Harmless storage (fun _ => none) w.state.disk) w := by
  rw [execFaultyAs_none]
  refine Obeys.meets (runJanitorCycle_minds hlogs hcrashes hroots hfuel)
    (fun t => ∃ gone, Gone w.state.disk gone t.disk) ⟨[], .refl _⟩ (steady_fits hclock)
    (fun n op t x t' _ => steady_keeps n op t x t') fun op t hop => ?_
  cases op with
  | file op => exact fun fault hfault => nomatch hfault
  | panic => exact hop.elim
  | _ => trivial

/-- The run of a cycle, in full. -/
theorem runJanitorCycle_alone {fuel : Nat} (json : SerdeJson) (storage : StoragePaths) (hclock : ∀ n, env.clock n = now)
    (hlogs : Tellable now config.logsTtlDays) (hcrashes : Tellable now config.crashesTtlDays) (w : ServerState ι)
    (hsite : Sited storage w.state.disk) (hfuel : (w.state.disk.dirsFrom []).length ≤ fuel) :
    ∃ u, (runJanitorCycle fuel json storage config).alone env i w =
        some (.ok (cycleStats json storage config now w.state.disk), u) ∧
      Gone w.state.disk (cycleRemoves json storage config now w.state.disk) u.state.disk := by
  obtain ⟨r, u, hrun⟩ : ∃ r u, (runJanitorCycle fuel json storage config).alone env i w = some (r, u) :=
    runJanitorCycle_returns hclock hlogs hcrashes w hsite.roots hfuel
  have hmeets : (runJanitorCycle fuel json storage config).run.Meets (execFaultyAs (fun _ => none) env i)
      (Harmless storage (fun _ => none) w.state.disk) w :=
    runJanitorCycle_harmless hclock hlogs hcrashes hsite.roots hfuel
  have hfaulty : (runJanitorCycle fuel json storage config).run.run (execFaultyAs (fun _ => none) env i) w =
      some (r, u) := by
    rw [execFaultyAs_none]
    exact hrun
  have hr := Holds.run (runJanitorCycle_solo now rfl) hmeets hfaulty
  cases r with
  | error e =>
    obtain ⟨-, n, fault, hfault⟩ := hr
    cases hfault
  | ok stats =>
    obtain ⟨logs, indexes, blobs, hswept, hgone, rfl⟩ := hr
    obtain ⟨hpl, hpi, hpb⟩ := hswept.perm hsite hclock (fun _ => rfl) hlogs hcrashes hgone.nodup
    have hall : (blobs ++ (indexes ++ logs)).Perm (cycleRemoves json storage config now w.state.disk) :=
      hpb.append (hpi.append hpl)
    refine ⟨u, ?_, hgone.perm hall⟩
    rw [hrun, cycleStats, counted, counted, counted, weighed, hpl.length_eq, hpi.length_eq, hpb.length_eq,
      (hall.map _).sum_eq]
    rfl

section Again
variable {gone : List Path} {u : Disk} {root : Path}

theorem Gone.below_iff (h : Gone d gone u) : p ∈ u.below root ↔ p ∈ d.below root ∧ p ∉ gone := by
  rw [Disk.mem_below, Disk.mem_below, h.file]
  by_cases hp : p ∈ gone <;> simp [hp]

theorem Gone.modifiedAt (h : Gone d gone u) (hp : p ∉ gone) : modifiedAt u p = modifiedAt d p := by
  rw [Server.modifiedAt, h.file_of_notMem hp, h.inode]
  rfl

/-- What has been removed because it had expired is not there to be removed again. -/
theorem Gone.filter_expired (h : Gone d gone u) {ext : String}
    (hgone : ∀ p ∈ (d.below root).filter fun p =>
      hasExtension p ext && decide (Expired (Server.modifiedAt d p) now ttl), p ∈ gone) :
    ((u.below root).filter fun p => hasExtension p ext && decide (Expired (Server.modifiedAt u p) now ttl)) = [] := by
  refine List.filter_eq_nil_iff.mpr fun p hp hold => ?_
  obtain ⟨hbelow, hstays⟩ := h.below_iff.mp hp
  rw [h.modifiedAt hstays] at hold
  exact hstays (hgone p (List.mem_filter.mpr ⟨hbelow, hold⟩))

theorem Gone.sited (h : Gone d gone u) (hsite : Sited storage d) : Sited storage u := by
  refine ⟨fun root hroot => h.rooted (hsite.rooted root hroot), fun root hroot => ?_⟩
  rw [h.file, hsite.roots root hroot, ite_self]

/-- An index that has not expired is not removed. -/
theorem notMem_cycleRemoves (hp : storage.bySource <+: p)
    (hstays : ¬ (hasExtension p "json" = true ∧ Expired (modifiedAt d p) now config.crashesTtlDays)) :
    p ∉ cycleRemoves json storage config now d := by
  rw [cycleRemoves, List.mem_append, List.mem_append, not_or, not_or]
  refine ⟨fun h => ?_, fun h => hstays ?_, fun h => ?_⟩
  · exact storage.regions_apart.1 ⟨hp, (Disk.mem_below.mp (List.mem_filter.mp h).1).1⟩
  · have h := (List.mem_filter.mp h).2
    rwa [Bool.and_eq_true, decide_eq_true_eq] at h
  · exact storage.regions_apart.2.2 ⟨(Disk.mem_below.mp (List.mem_filter.mp h).1).1, hp⟩

theorem liveReferences_subset (h : Gone d (cycleRemoves json storage config now d) u) :
    liveReferences json storage config now d ⊆ liveReferences json storage config now u := by
  intro sha hsha
  obtain ⟨q, hq, hsha⟩ := List.mem_flatMap.mp hsha
  obtain ⟨hbelow, hlive⟩ := List.mem_filter.mp hq
  have hstays : q ∉ cycleRemoves json storage config now d := by
    refine notMem_cycleRemoves (Disk.mem_below.mp hbelow).1 fun hold => ?_
    rw [hold.1, decide_eq_true hold.2] at hlive
    cases hlive
  refine List.mem_flatMap.mpr ⟨q, List.mem_filter.mpr ⟨h.below_iff.mpr ⟨hbelow, hstays⟩, ?_⟩, ?_⟩
  · rwa [h.modifiedAt hstays]
  · rwa [h.content_of_notMem hstays]

/-- What a cycle has left, another at the same time leaves. -/
theorem cycleRemoves_idem (h : Gone d (cycleRemoves json storage config now d) u) :
    orphanedBlobs json storage config now u = [] ∧ expiredIndexes storage config now u = [] ∧
      expiredLogs storage config now u = [] := by
  refine ⟨?_, h.filter_expired fun p hp => ?_, h.filter_expired fun p hp => ?_⟩
  · refine List.filter_eq_nil_iff.mpr fun p hp horphan => ?_
    obtain ⟨hbelow, hstays⟩ := h.below_iff.mp hp
    rw [Bool.and_eq_true, Option.any_eq_true] at horphan
    obtain ⟨hext, hash, hname, hdead⟩ := horphan
    refine hstays (List.mem_append_left _ (List.mem_filter.mpr ⟨hbelow, ?_⟩))
    rw [hext, Bool.true_and, Option.any_eq_true]
    refine ⟨hash, hname, decide_eq_true fun hlive => ?_⟩
    exact of_decide_eq_true hdead (liveReferences_subset h hlive)
  · exact List.mem_append_right _ (List.mem_append_left _ hp)
  · exact List.mem_append_right _ (List.mem_append_right _ hp)

end Again

/-- **A cycle removes what retention says**, and a second one finds nothing to remove. -/
theorem cycle_exact {fuel : Nat} (json : SerdeJson) (storage : StoragePaths) (config : RetentionConfig) (i : ι)
    (hclock : ∀ n, env.clock n = now) (hlogs : Tellable now config.logsTtlDays)
    (hcrashes : Tellable now config.crashesTtlDays) (w : ServerState ι) (hsite : Sited storage w.state.disk)
    (hfuel : (w.state.disk.dirsFrom []).length ≤ fuel) :
    (∃ u, (runJanitorCycle fuel json storage config).alone env i w =
        some (.ok (cycleStats json storage config now w.state.disk), u) ∧
      Gone w.state.disk (cycleRemoves json storage config now w.state.disk) u.state.disk ∧
      ∃ v, (runJanitorCycle fuel json storage config).alone env i u = some (.ok ⟨0, 0, 0, 0⟩, v) ∧
        Gone u.state.disk [] v.state.disk) ∧
    (PrettyLawful json → ∀ x : CrashIndex, references json (json.writePretty x.toJson) = x.hashes) := by
  constructor
  · obtain ⟨u, hrun, hgone⟩ := runJanitorCycle_alone (i := i) json storage hclock hlogs hcrashes w hsite hfuel
    have hfuel' : (u.state.disk.dirsFrom []).length ≤ fuel := by
      rw [(hgone.dirsFrom []).length_eq]
      exact hfuel
    obtain ⟨v, hagain, hgone'⟩ :=
      runJanitorCycle_alone (i := i) json storage hclock hlogs hcrashes u (hgone.sited hsite) hfuel'
    obtain ⟨hblobs, hindexes, hlogs⟩ := cycleRemoves_idem hgone
    have hnone : cycleRemoves json storage config now u.state.disk = [] := by
      rw [cycleRemoves, hblobs, hindexes, hlogs]
      rfl
    refine ⟨u, hrun, hgone, v, ?_, by rwa [hnone] at hgone'⟩
    rw [hagain, cycleStats, hnone, hblobs, hindexes, hlogs]
    rfl
  · intro hjson x
    rw [references, hjson.read, indexRef_toJson]
    rfl

end Alone

end Exact

/-! The two blobs again, with an index that points to the second. -/

def oneIndex : ServerState Unit :=
  let index : Path := ["data", "crashes", "by-source", "app", "a", "x.json"]
  let d := ((twoBlobs.state.disk.createDirAll index.parent 0).create index 0).2
  let text := CrashEnvelope.abcJson.writePretty (.object [("dump", .object [("sha256", .string "bb")])])
  ⟨⟨(d.write ⟨2, 0, false⟩ text 0).2, fun _ => none, []⟩, []⟩

theorem oneIndex_sited : Sited ⟨["data"]⟩ oneIndex.state.disk := ⟨by decide +kernel, by decide +kernel⟩

/-- The first goes, with its three bytes. -/
theorem cycle_exact_oneIndex : Tellable 0 14 ∧ Tellable 0 90 ∧ Sited ⟨["data"]⟩ oneIndex.state.disk ∧
    cycleRemoves CrashEnvelope.abcJson ⟨["data"]⟩ ⟨14, 90⟩ 0 oneIndex.state.disk = [firstBlob] ∧
    ∃ u, (runJanitorCycle 10 CrashEnvelope.abcJson ⟨["data"]⟩ ⟨14, 90⟩).alone stillEnv () oneIndex =
      some (.ok ⟨0, 0, 1, 3⟩, u) := by
  have hlogs : Tellable 0 14 := ⟨by decide, by decide⟩
  have hcrashes : Tellable 0 90 := ⟨by decide, by decide⟩
  have hclock : ∀ n, stillEnv.clock n = 0 := fun _ => rfl
  have hfuel : (oneIndex.state.disk.dirsFrom []).length ≤ 10 := by decide +kernel
  obtain ⟨u, hrun, -⟩ :=
    (cycle_exact CrashEnvelope.abcJson ⟨["data"]⟩ ⟨14, 90⟩ () hclock hlogs hcrashes oneIndex oneIndex_sited hfuel).1
  have hstats : cycleStats CrashEnvelope.abcJson ⟨["data"]⟩ ⟨14, 90⟩ 0 oneIndex.state.disk = ⟨0, 0, 1, 3⟩ := by
    decide +kernel
  exact ⟨hlogs, hcrashes, oneIndex_sited, by decide +kernel, u, hstats ▸ hrun⟩

end Detritus.Server
