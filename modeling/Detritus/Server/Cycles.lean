import Detritus.Server.UploadOutcome

/-! Janitor cycles on the crash store.

From the moment a cycle begins to list the indexes, every complete index has been
touched since, is still to be found or read, or has its digests among those the cycle
has met (`Scan`). At the end none is still to be read, which is what allows the
sweep. -/
namespace Detritus.Server
open Files Protocol Process Contract

namespace CrashSystem
variable {ι : Type} [DecidableEq ι] {Y : CrashSystem ι} {k : ι} {s t : ServerState ι} {referenced : List String}
  {stats : JanitorStats} {e : ServerEvent ι} {ttl : UInt64}

/-- The file was touched since the cycle `k` began to list the indexes. -/
def TouchedSince (Y : CrashSystem ι) (k : ι) (n : Nat) (h : List (ServerEvent ι)) : Prop :=
  ∃ e ∈ since (lists Y.app.storage k) h, touched e = some n

variable (Y) in
/-- The cycle has met these digests, and has yet to come to the indexes in `left`. -/
structure Scan (k : ι) (left : Path → Prop) (referenced : List String) (w : ServerState ι) : Prop
    extends Y.Idle k w where
  scanned : PrettyLawful Y.crates.json → ∀ q n x, Y.app.storage.bySource <+: q →
    w.state.disk.file q = some n → (w.state.disk.inode n).content = Y.encode x →
      Y.TouchedSince k n w.history ∨ left q ∨ ∀ sha ∈ x.hashes, sha ∈ referenced

theorem TouchedSince.cons {n : Nat} {h : List (ServerEvent ι)} (he : lists Y.app.storage k e = false)
    (ht : Y.TouchedSince k n h) : Y.TouchedSince k n (e :: h) := by
  obtain ⟨f, hf, hn⟩ := ht
  refine ⟨f, ?_, hn⟩
  rw [since_cons he]
  exact .tail _ hf

/-- Others do not list for `k`. -/
theorem since_append_apart {new h : List (ServerEvent ι)} (hn : ∀ e ∈ new, e.task ≠ k) :
    since (lists Y.app.storage k) (new ++ h) = new ++ since (lists Y.app.storage k) h := by
  induction new with
  | nil => rfl
  | cons e rest ih =>
    have he : lists Y.app.storage k e = false := by
      unfold lists
      split
      · have := hn _ (.head _)
        simpa using fun h => absurd h this
      · rfl
    rw [List.cons_append, since_cons he, ih fun f hf => hn f (.tail _ hf)]
    rfl

theorem Scan.framed {left : Path → Prop} (ht : Y.Inv t) (F : Frame Y k s t) (S : Y.Scan k left referenced s) :
    Y.Scan k left referenced t where
  toIdle := S.toIdle.framed ht F
  scanned := by
    intro hj q n x hq hf hc
    obtain ⟨new, hh, hn, hi⟩ := F.grown
    rw [TouchedSince, hh, since_append_apart hn]
    rcases hi q n hq hf with ⟨hf', hc'⟩ | ⟨e, he, hen⟩
    · refine (S.scanned hj q n x hq hf' (hc'.symm.trans hc)).imp_left ?_
      rintro ⟨e, he, hen⟩
      exact ⟨e, List.mem_append_right _ he, hen⟩
    · exact .inl ⟨e, List.mem_append_left _ he, hen⟩

theorem scan_stable (left : Path → Prop) (referenced : List String) :
    (Y.contract k).Stable (Y.Scan k left referenced) :=
  stable_of (fun _ h => h.inv) fun _ _ ht F S => S.framed ht F

/-- A call of the cycle that makes no index. -/
theorem Scan.own {left rest : Path → Prop} {referenced more : List String} (hh : t.history = e :: s.history)
    (ht : Y.Inv t) (S : Y.Scan k left referenced s) (hq : tells Y.app.storage e = false)
    (hl : lists Y.app.storage k e = false) (hf : ∀ q n, t.state.disk.file q = some n → s.state.disk.file q = some n)
    (hi : t.state.disk.inode = s.state.disk.inode)
    (hrest : PrettyLawful Y.crates.json → ∀ q n x, left q → Y.app.storage.bySource <+: q →
      t.state.disk.file q = some n → (t.state.disk.inode n).content = Y.encode x →
        rest q ∨ ∀ sha ∈ x.hashes, sha ∈ more) (hmore : referenced ⊆ more) : Y.Scan k rest more t where
  toIdle := S.toIdle.own hh ht hq
  scanned := by
    intro hj q n x hq hn hc
    rw [hh]
    rcases S.scanned hj q n x hq (hf q n hn) (by rw [← hi]; exact hc) with h | h | h
    · exact .inl (h.cons hl)
    · exact .inr (hrest hj q n x h hq hn hc)
    · exact .inr (.inr fun sha hsha => hmore (h sha hsha))

/-- A call of the cycle that changes no file. -/
theorem Scan.quiet {left : Path → Prop} (hh : t.history = e :: s.history) (ht : Y.Inv t)
    (S : Y.Scan k left referenced s) (hq : tells Y.app.storage e = false) (hl : lists Y.app.storage k e = false)
    (hd : s.state.disk.SameFiles t.state.disk) : Y.Scan k left referenced t :=
  S.own hh ht hq hl (fun q n hn => by rwa [hd.file] at hn) hd.inode (fun _ _ _ _ hq _ _ _ => .inl hq)
    (fun _ h => h)

/-! ### The programs of a cycle -/

/-- An assertion that outlasts the calls of others and the cycle's own calls that
change no file and list no index. -/
structure Lasting (Y : CrashSystem ι) (k : ι) (A : ServerState ι → Prop) : Prop where
  stable : (Y.contract k).Stable A
  idle : ∀ w, A w → Y.Idle k w
  quiet : ∀ {s t : ServerState ι} {e : ServerEvent ι}, t.history = e :: s.history → Y.Inv t →
    tells Y.app.storage e = false → lists Y.app.storage k e = false → s.state.disk.SameFiles t.state.disk → A s → A t

theorem lasting_idle : Y.Lasting k (Y.Idle k) :=
  ⟨idle_stable, fun _ h => h, fun hh ht ha _ _ h => h.own hh ht ha⟩

theorem lasting_scan (left : Path → Prop) (referenced : List String) :
    Y.Lasting k (Y.Scan k left referenced) :=
  ⟨scan_stable _ _, fun _ h => h.toIdle, fun hh ht ha hl hd h => h.quiet hh ht ha hl hd⟩

theorem isOlderThan_yields {A : ServerState ι → Prop} (hA : Y.Lasting k A) {p : Path} (hs : A s) :
    (Y.contract k).Yields (fun _ => A) (fun _ => Y.Idle k) (isOlderThan p ttl) s := by
  unfold isOlderThan
  refine yields_try sound (fun _ => idle_stable) hA.stable (fun t h => (hA.idle t h).inv) hs
    (fun t h _ => ⟨(hA.idle t h).unanswered, trivial⟩) fun t x v h _ hv _ hx => ?_
  obtain ⟨-, -, hh⟩ := exec_file_iff hx
  have h' := hA.quiet hh hv rfl rfl (exec_quiet rfl hx) h
  cases x with
  | error e => exact .inr ⟨e, rfl, hA.idle _ h'⟩
  | ok m =>
    refine .inl ⟨m, rfl, ?_⟩
    split
    · exact Yields.pure hA.stable h'
    · refine yields_call sound (fun _ => idle_stable) hA.stable (fun t h => (hA.idle t h).inv) h'
        (fun t h _ => ⟨(hA.idle t h).unanswered, trivial⟩) fun t now v h _ hv _ hx => ?_
      obtain ⟨hx', hh⟩ := record_eq_some.mp hx
      have hd := World.exec_disk (by simp) hx'
      have h' := hA.quiet hh hv rfl rfl (by rw [hd]; exact ⟨rfl, rfl, rfl⟩) h
      split
      · exact yields_call sound (fun _ => idle_stable) hA.stable (fun t h => (hA.idle t h).inv) h'
          (fun t h _ => ⟨(hA.idle t h).unanswered, trivial⟩) fun t x => x.elim
      · exact Yields.pure hA.stable h'

theorem fileLen_yields {A : ServerState ι → Prop} (hA : Y.Lasting k A) {p : Path} (hs : A s) :
    (Y.contract k).Yields (fun _ => A) (fun _ => Y.Idle k) (fileLen p) s := by
  unfold fileLen
  refine yields_call sound (fun _ => idle_stable) hA.stable (fun t h => (hA.idle t h).inv) hs
    (fun t h _ => ⟨(hA.idle t h).unanswered, trivial⟩) fun t x v h _ hv _ hx => ?_
  obtain ⟨-, -, hh⟩ := exec_file_iff hx
  exact Yields.pure hA.stable (hA.quiet hh hv rfl rfl (exec_quiet rfl hx) h)

theorem pruneLogFiles_yields (files : List Path) (hf : ∀ p ∈ files, Y.app.storage.logsDir <+: p) (hs : Y.Idle k s) :
    (Y.contract k).Yields (fun _ => Y.Idle k) (fun _ => Y.Idle k) (pruneLogFiles ttl files stats) s := by
  induction files generalizing stats s with
  | nil => exact Yields.pure idle_stable hs
  | cons p rest ih =>
    have hp := hf p (.head _)
    have hrest : ∀ q ∈ rest, Y.app.storage.logsDir <+: q := fun q hq => hf q (.tail _ hq)
    unfold pruneLogFiles
    split
    · exact ih hrest hs
    · refine Yields.andThen (fun _ => idle_stable) (isOlderThan_yields lasting_idle hs) fun old t I => ?_
      split
      · refine Yields.andThen (fun _ => idle_stable) (fileLen_yields lasting_idle I) fun len t I => ?_
        refine yields_try sound (fun _ => idle_stable) idle_stable (fun _ h => h.inv) I
          (fun t I _ => ⟨I.unanswered, .inr (.inr (.inl hp))⟩) fun t x v I _ hv _ hx => ?_
        have I := I.own (exec_file_iff hx).2.2 hv rfl
        cases x with
        | error e => exact .inr ⟨e, rfl, I⟩
        | ok _ => exact .inl ⟨(), rfl, ih hrest I⟩
      · exact ih hrest I

/-! ### Walks -/

/-- A call of the cycle that changes nothing. -/
theorem quiet_guarantee {op : FileOp} {x : op.Answer} (I : Y.Idle k s)
    (hx : execAs Y.env k (.file op) s = some (x, t)) (hop : Y.LegalFile k op s) : (Y.contract k).guarantee s t ∧ Y.Inv t :=
  ⟨fun hinv => sound hinv ⟨I.unanswered, hop⟩ hx, (sound I.inv ⟨I.unanswered, hop⟩ hx).1⟩

/-- A walk finds files that were there at some time. -/
theorem collectFiles_yields {root : Path} {R : Path → Prop}
    (hR : ∀ (w : ServerState ι) p, Y.Inv w → root <+: p → (w.state.disk.file p).isSome = true → R p)
    (hs : Y.Idle k s) : (Y.contract k).Yields (fun files t => Y.Idle k t ∧ ∀ p ∈ files, R p) (fun _ => Y.Idle k)
      (collectFiles Y.fuel root) s := by
  refine (collectFiles_rule (W := fun dirs files t => Y.Idle k t ∧ (∀ p ∈ dirs, root <+: p) ∧ ∀ p ∈ files, R p)
    (fun _ => idle_stable) (fun dirs files s t hr h => ⟨idle_stable s t hr h.1, h.2⟩) idle_stable ?_ ?_ hs).mono
    (fun files t h => ⟨h.1, h.2.2⟩) fun _ _ h => h
  · intro t x u I _ hx
    obtain ⟨hg, hu⟩ := quiet_guarantee I hx trivial
    obtain ⟨rfl, -, hh⟩ := exec_file_iff hx
    refine ⟨hg, I.own hh hu rfl, fun p hp => ?_, by simp⟩
    split at hp
    · rw [List.mem_singleton.mp hp]
    · cases hp
  · rintro dir dirs files t x u ⟨I, hdirs, hfiles⟩ _ hx
    obtain ⟨hg, hu⟩ := quiet_guarantee I hx trivial
    obtain ⟨rfl, -, hh⟩ := exec_file_iff hx
    refine ⟨hg, I.own hh hu rfl, ?_, ?_⟩
    · intro p hp
      rw [subdirectories_map] at hp
      rcases List.mem_append.mp hp with hp | hp
      · have hp := ((Y.env.order _).perm _).mem_iff.mp (List.mem_filter.mp (List.mem_reverse.mp hp)).1
        exact (hdirs dir (.head _)).trans (Disk.below_of_mem_children hp).1
      · exact hdirs p (.tail _ hp)
    · intro p hp
      rw [plainFiles_map] at hp
      rcases List.mem_append.mp hp with hp | hp
      · exact hfiles p hp
      · obtain ⟨hp, hplain⟩ := List.mem_filter.mp hp
        have hp := ((Y.env.order _).perm _).mem_iff.mp hp
        exact hR t p I.inv ((hdirs dir (.head _)).trans (Disk.below_of_mem_children hp).1)
          (Disk.file_of_mem_children hp (by simpa using hplain))

/-- A walk that has these directories and files in hand will come to the path. -/
def Ahead (dirs files : List Path) (q : Path) : Prop := q ∈ files ∨ ∃ p ∈ dirs, p <+: q ∧ p ≠ q

variable (Y) in
/-- Where the walk of the indexes has come to. -/
structure Walks (k : ι) (dirs files : List Path) (w : ServerState ι) : Prop
    extends Y.Scan k (Ahead dirs files) [] w where
  dirs : ∀ p ∈ dirs, Y.app.storage.bySource <+: p
  files : ∀ p ∈ files, Y.app.storage.bySource <+: p

theorem walks_stable (dirs files : List Path) : (Y.contract k).Stable (Y.Walks k dirs files) :=
  fun s t hr h => ⟨scan_stable _ _ s t hr h.toScan, h.dirs, h.files⟩

/-- The walk begins: every index is below the root. -/
theorem Walks.begin {x : FileOp.Answer (.tryExists Y.app.storage.bySource)} (I : Y.Idle k s) (ht : Y.Inv t)
    (hx : execAs Y.env k (.file (.tryExists Y.app.storage.bySource)) s = some (x, t)) : ∃ found, x = .ok found ∧
      Y.Walks k (if found then [Y.app.storage.bySource] else []) [] t := by
  obtain ⟨rfl, -, hh⟩ := exec_file_iff hx
  refine ⟨_, rfl, ⟨I.own hh ht rfl, fun _ q n y hq hn _ => .inr (.inl (.inr ?_))⟩, ?_, by simp⟩
  · rw [(exec_quiet rfl hx).file] at hn
    obtain ⟨-, hspot⟩ := I.inv.names.index q n hq hn
    have hne : Y.app.storage.bySource ≠ q := by
      intro he
      have hlen := hspot.depth
      rw [← he, indexDepth] at hlen
      omega
    have hfound : s.state.disk.occupied Y.app.storage.bySource = true := by
      rw [Disk.occupied, hspot.way _ (List.prefix_refl _) hq hne, Bool.or_true]
    rw [hfound]
    exact ⟨_, List.mem_singleton_self _, hq, hne⟩
  · intro p hp
    split at hp
    · rw [List.mem_singleton.mp hp]
    · cases hp

/-- One directory is read: what was below it is in the listing or below an entry of it. -/
theorem Walks.step {dir : Path} {dirs files : List Path} {x : FileOp.Answer (.readDir dir)}
    (S : Y.Walks k (dir :: dirs) files s) (ht : Y.Inv t) (hx : execAs Y.env k (.file (.readDir dir)) s = some (x, t)) :
    ∃ entries, x = .ok entries ∧
      Y.Walks k ((subdirectories entries).reverse ++ dirs) (files ++ plainFiles entries) t := by
  obtain ⟨rfl, -, hh⟩ := exec_file_iff hx
  have hdir := S.dirs dir (.head _)
  refine ⟨_, rfl, S.own hh ht rfl rfl (fun q n hn => ?_) (exec_quiet rfl hx).inode (fun _ q n y hleft hq hn _ => .inl ?_)
    fun _ h => h, ?_, ?_⟩
  · rwa [(exec_quiet rfl hx).file] at hn
  · rw [(exec_quiet rfl hx).file] at hn
    rw [Ahead, subdirectories_map, plainFiles_map]
    have hperm := (Y.env.order s.history.length).perm (s.state.disk.children dir)
    have hfile : (s.state.disk.file q).isSome = true := by rw [hn]; rfl
    have hrooted := S.inv.names.rooted
    rcases hleft with hq' | ⟨p, hp, hpq, hne⟩
    · exact .inl (List.mem_append_left _ hq')
    rcases List.mem_cons.mp hp with rfl | hp
    · obtain ⟨name, hnext⟩ := Path.next_below hpq hne
      by_cases he : p ++ [name] = q
      · refine .inl (List.mem_append_right _ (List.mem_filter.mpr ⟨hperm.mem_iff.mpr ?_, ?_⟩))
        · subst he
          exact Disk.mem_children_of_file hfile
        · rw [hrooted.apart q hq hfile]
          rfl
      · have hsub := hrooted.dirs _ q (hdir.trans (List.prefix_append ..)) hnext he hfile
        refine .inr ⟨p ++ [name], List.mem_append_left _ (List.mem_reverse.mpr (List.mem_filter.mpr ?_)), hnext, he⟩
        exact ⟨hperm.mem_iff.mpr (Disk.mem_children_of_dir hsub), hsub⟩
    · exact .inr ⟨p, List.mem_append_right _ hp, hpq, hne⟩
  · intro p hp
    rw [subdirectories_map] at hp
    rcases List.mem_append.mp hp with hp | hp
    · have hp := ((Y.env.order _).perm _).mem_iff.mp (List.mem_filter.mp (List.mem_reverse.mp hp)).1
      exact hdir.trans (Disk.below_of_mem_children hp).1
    · exact S.dirs p (.tail _ hp)
  · intro p hp
    rw [plainFiles_map] at hp
    rcases List.mem_append.mp hp with hp | hp
    · exact S.files p hp
    · have hp := ((Y.env.order _).perm _).mem_iff.mp (List.mem_filter.mp hp).1
      exact hdir.trans (Disk.below_of_mem_children hp).1

/-- **The walk of the indexes leaves out none** that has not been touched since it began. -/
theorem collectIndexes_yields (hs : Y.Idle k s) : (Y.contract k).Yields
    (fun files t => Y.Scan k (· ∈ files) [] t ∧ ∀ p ∈ files, Y.app.storage.bySource <+: p) (fun _ => Y.Idle k)
    (collectFiles Y.fuel Y.app.storage.bySource) s := by
  refine (collectFiles_rule (W := Y.Walks k) (fun _ => idle_stable) walks_stable idle_stable ?_ ?_ hs).mono
    (fun files t S => ⟨⟨S.toIdle, fun hj q n x hq hn hc => ?_⟩, S.files⟩) fun _ _ h => h
  · intro t x u I _ hx
    obtain ⟨hg, hu⟩ := quiet_guarantee I hx trivial
    obtain ⟨found, rfl, S⟩ := Walks.begin I hu hx
    exact ⟨hg, S⟩
  · intro dir dirs files t x u S _ hx
    obtain ⟨hg, hu⟩ := quiet_guarantee S.toIdle hx trivial
    obtain ⟨entries, rfl, S'⟩ := S.step hu hx
    exact ⟨hg, S'⟩
  · refine (S.scanned hj q n x hq hn hc).imp_right (Or.imp_left fun hleft => ?_)
    rcases hleft with hq' | ⟨p, hp, -⟩
    · exact hq'
    · cases hp

/-- The indexes of a listing, one after the other. -/
theorem pruneIndexFiles_yields (files : List Path) (hf : ∀ p ∈ files, Y.app.storage.bySource <+: p)
    (hs : Y.Scan k (· ∈ files) referenced s) :
    (Y.contract k).Yields (fun r => Y.Scan k (fun _ => False) r.1) (fun _ => Y.Idle k)
      (pruneIndexFiles Y.crates.json ttl files referenced stats) s := by
  induction files generalizing referenced stats s with
  | nil =>
    refine Yields.pure (scan_stable _ _) ⟨hs.toIdle, fun hj q n x hq hn hc => ?_⟩
    exact (hs.scanned hj q n x hq hn hc).imp_right (Or.imp_left List.not_mem_nil)
  | cons p rest ih =>
    have hp := hf p (.head _)
    have hrest : ∀ q ∈ rest, Y.app.storage.bySource <+: q := fun q hq => hf q (.tail _ hq)
    unfold pruneIndexFiles
    split
    · -- a file without the name of an index is none
      next hext =>
      refine ih hrest ⟨hs.toIdle, fun hj q n x hq hn hc => ?_⟩
      refine (hs.scanned hj q n x hq hn hc).imp_right (Or.imp_left fun hm => ?_)
      rcases List.mem_cons.mp hm with rfl | hm
      · rw [(hs.inv.names.index q n hq hn).2.ext] at hext
        exact absurd hext (by decide)
      · exact hm
    · refine Yields.andThen (fun _ => idle_stable) (isOlderThan_yields (lasting_scan _ _) hs) fun old t S => ?_
      split
      · refine Yields.andThen (fun _ => idle_stable) (fileLen_yields (lasting_scan _ _) S) fun len t S => ?_
        refine yields_try sound (fun _ => idle_stable) (scan_stable _ _) (fun _ h => h.inv) S
          (fun t S _ => ⟨S.unanswered, .inr (.inl hp)⟩) fun t x v S _ hv _ hx => ?_
        obtain ⟨hans, hd, hh⟩ := exec_file_iff hx
        cases hfile : t.state.disk.file p with
        | none =>
          rw [FileOp.exec, Disk.removeFile_none hfile] at hans
          exact .inr ⟨_, hans, S.toIdle.own hh hv rfl⟩
        | some n =>
          rw [FileOp.exec, Disk.removeFile_some hfile] at hans hd
          have old : ∀ q m, v.state.disk.file q = some m → q ≠ p ∧ t.state.disk.file q = some m := by
            intro q m hm
            rw [hd, Disk.touch_file, Disk.unlink_file] at hm
            by_cases hq : q = p
            · rw [hq, Function.update_self] at hm
              exact absurd hm (by simp)
            · rw [Function.update_of_ne hq] at hm
              exact ⟨hq, hm⟩
          refine .inl ⟨(), hans, ih hrest (S.own hh hv rfl rfl (fun q m hm => (old q m hm).2)
            (by rw [hd]; rfl) (fun _ q m _ hq _ hm _ => .inl ?_) fun _ h => h)⟩
          exact (List.mem_cons.mp hq).resolve_left (old q m hm).1
      · refine yields_try sound (fun _ => idle_stable) (scan_stable _ _) (fun _ h => h.inv) S
          (fun t S _ => ⟨S.unanswered, trivial⟩) fun t x v S _ hv _ hx => ?_
        obtain ⟨hans, -, hh⟩ := exec_file_iff hx
        have hsame := exec_quiet rfl hx
        cases x with
        | error e => exact .inr ⟨e, rfl, S.toIdle.own hh hv rfl⟩
        | ok bytes =>
          refine .inl ⟨bytes, rfl, ih hrest (S.own hh hv rfl rfl
            (fun q m hm => by rwa [hsame.file] at hm) hsame.inode ?_ (List.subset_append_left ..))⟩
          intro hj q m y hq _ hm hc
          rcases List.mem_cons.mp hq with rfl | hq
          · right
            have hbytes : bytes = Y.encode y := by
              rw [hsame.file] at hm
              rw [FileOp.exec, Disk.read, Disk.content, hm] at hans
              rw [hsame.inode] at hc
              exact (Except.ok.inj hans).trans hc
            intro sha hsha
            refine List.mem_append_right _ ?_
            rw [hbytes, references, encode, hj.read, indexRef_toJson]
            exact hsha
          · exact .inl hq

theorem sweepBlobs_yields (blobs : List Path) (hb : ∀ p ∈ blobs, ∃ d, p = Y.blob d)
    (hs : Y.Scan k (fun _ => False) referenced s) :
    (Y.contract k).Yields (fun _ => Y.Idle k) (fun _ => Y.Idle k) (sweepBlobs referenced blobs stats) s := by
  induction blobs generalizing stats s with
  | nil => exact Yields.pure idle_stable hs.toIdle
  | cons p rest ih =>
    obtain ⟨d, rfl⟩ := hb p (.head _)
    have hrest : ∀ q ∈ rest, ∃ d, q = Y.blob d := fun q hq => hb q (.tail _ hq)
    have hname : (Y.blob d).fileName.bind (stripSuffix ".bin") = some d.hex := by
      rw [blob, Y.app.storage.blobPath_eq, Path.fileName, List.getLast?_append_of_ne_nil _ (by simp)]
      exact stripSuffix_append ".bin" d.hex
    unfold sweepBlobs
    rw [hname]
    dsimp only
    split
    · exact ih hrest hs
    · next hnot =>
      refine Yields.andThen (fun _ => idle_stable) (fileLen_yields (lasting_scan _ _) hs) fun len t S => ?_
      refine yields_call sound (fun _ => idle_stable) (scan_stable _ _) (fun _ h => h.inv) S ?_ ?_
      · intro t S hp
        refine ⟨S.unanswered, .inr (.inr (.inr ⟨d, rfl, ?_, hp d rfl⟩))⟩
        intro hj q n x hq hn hc hmem
        rcases S.scanned hj q n x hq hn hc with h | h | h
        · exact h
        · exact h.elim
        · exact absurd (h _ hmem) hnot
      · intro t x v S _ hv _ hx
        obtain ⟨hans, hd, hh⟩ := exec_file_iff hx
        have S' : Y.Scan k (fun _ => False) referenced v := by
          cases hfile : t.state.disk.file (Y.blob d) with
          | none =>
            rw [FileOp.exec, Disk.removeFile_none hfile] at hd
            exact S.quiet hh hv rfl rfl (by rw [hd]; exact ⟨rfl, rfl, rfl⟩)
          | some n =>
            rw [FileOp.exec, Disk.removeFile_some hfile] at hd
            refine S.own hh hv rfl rfl ?_ (by rw [hd]; rfl) (fun _ _ _ _ hq _ _ _ => hq.elim) fun _ h => h
            intro q m hm
            rw [hd, Disk.touch_file, Disk.unlink_file] at hm
            by_cases hq : q = Y.blob d
            · rw [hq, Function.update_self] at hm
              exact absurd hm (by simp)
            · rwa [Function.update_of_ne hq] at hm
        split
        · exact ih hrest S'
        · exact ih hrest S'
        · exact Yields.throw idle_stable S'.toIdle

/-- **A cycle keeps to its contract.** -/
theorem runJanitorCycle_yields {config : RetentionConfig} (hs : Y.Idle k s) :
    (Y.contract k).Yields (fun _ => Y.Idle k) (fun _ => Y.Idle k)
      (runJanitorCycle Y.fuel Y.crates.json Y.app.storage config) s := by
  unfold runJanitorCycle snapshotBlobs
  rw [bind_assoc]
  have hblob : ∀ (w : ServerState ι) p, Y.Inv w → Y.app.storage.byHash <+: p → (w.state.disk.file p).isSome = true →
      ∃ d, p = Y.blob d := by
    intro w p I hp hfile
    obtain ⟨n, hn⟩ := Option.isSome_iff_exists.mp hfile
    obtain ⟨d, -, -, hd, -⟩ := I.names.blob p n hp hn
    exact ⟨d, hd⟩
  refine Yields.andThen (fun _ => idle_stable) (collectFiles_yields hblob hs) ?_
  rintro blobs t ⟨I, hblobs⟩
  rw [pure_bind]
  -- the logs
  unfold pruneLogs
  rw [bind_assoc]
  refine Yields.andThen (fun _ => idle_stable) (collectFiles_yields (fun _ _ _ hp _ => hp) I) ?_
  rintro logs t ⟨I, hlogs⟩
  refine Yields.andThen (fun _ => idle_stable) (pruneLogFiles_yields logs hlogs I) ?_
  intro stats t I
  -- the indexes
  unfold pruneIndexesAndCollectReferences
  rw [bind_assoc]
  refine Yields.andThen (fun _ => idle_stable) (collectIndexes_yields I) ?_
  rintro files t ⟨S, hfiles⟩
  refine Yields.andThen (fun _ => idle_stable) (pruneIndexFiles_yields files hfiles S) ?_
  rintro ⟨referenced, stats⟩ z S
  exact sweepBlobs_yields _ (fun p hp => hblobs p (List.mem_filter.mp hp).1) S

end CrashSystem

end Detritus.Server
