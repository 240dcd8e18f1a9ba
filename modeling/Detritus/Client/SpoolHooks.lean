import Detritus.Client.SpoolRuns

/-! Captures among the other processes of a spool.

A capture takes no lock. It gets an identifier, makes the directory of that name and writes
files into it; a handle it writes to is one that it created there. So whatever it changes
belongs to its own entry, also when the entry has been moved in the meantime. -/
namespace Detritus.Client
open Files Protocol Process Contract Discipline

section Parts
variable (C : Crates) (config : PanicHookConfig)

theorem PanicHookConfig.entry_pendingAt {spool : Path} (hdir : config.spoolDir = spool) :
    config.entry = fun u => pendingAt spool u.toString := by
  funext u
  rw [config.entry_eq, hdir, pendingAt, pendingDir, List.append_assoc]
  rfl

end Parts

section Hooks
variable {τ : Type} {spool : Path} {C : Crates} {env : Env} {start : Disk} {i : τ} {s t : ClientState τ} {x : String}

/-- A process that has made no calls yet. -/
structure Silent (spool : Path) (env : Env) (start : Disk) (i : τ) (w : ClientState τ) : Prop where
  inv : SpoolInv spool env start w
  none : ∀ e ∈ w.history, e.task ≠ i

theorem Silent.blank (h : Silent spool env start i s) : Blank spool env start i s :=
  ⟨h.inv, fun _ _ ⟨e, he, htask, _⟩ => h.none e he htask⟩

/-- Files of one entry: created there, written through a handle from there. -/
def writing (spool : Path) (x : String) : Discipline clientInterface τ where
  fits _ _ := True
  may i op h := Looks spool op ∨ (∃ name, op = .file (.create (pendingAt spool x ++ [name]))) ∨
    ∃ p g bytes, op = .file (.write g bytes) ∧ (⟨i, .file (.create p), (.ok g : Except IoError Handle)⟩ : ClientEvent τ) ∈ h
  grows hh := Or.imp_right (Or.imp_right fun ⟨p, g, bytes, hop, he⟩ => ⟨p, g, bytes, hop, hh he⟩)

theorem writeFile_minds {name : String} {bytes : Bytes} {h : List (ClientEvent τ)} (hname : Component name) :
    (writing spool x).Minds i (fun _ _ => True) (writeFile ((pendingAt spool x).join name) bytes) h := by
  rw [hname.join]
  refine minds_file (.inr (.inl ⟨name, rfl⟩)) fun g _ => minds_file (.inr (.inr ?_)) fun _ _ => .pure trivial
  exact ⟨_, g, bytes, rfl, List.mem_cons_self ..⟩

theorem copyContextFiles_minds (index : Nat) (files : List String) (h : List (ClientEvent τ)) :
    (writing spool x).Minds i (fun _ _ => True) (copyContextFiles (pendingAt spool x) index files) h := by
  induction files generalizing index h with
  | nil => exact .pure trivial
  | cons text rest ih =>
    refine Minds.bind (Q := fun _ _ => True) ?_ fun _ _ _ _ =>
      Minds.bind (ih _ _) fun _ _ _ _ => .pure trivial
    exact minds_file (.inl trivial) fun _ _ =>
      Minds.bind (writeFile_minds (contextName_component index text)) fun _ _ _ _ => .pure trivial

theorem finish_minds {config : PanicHookConfig} {metadata : List AttachmentManifest → CrashMetadata} {dump : Bytes}
    {h : List (ClientEvent τ)} :
    (writing spool x).Minds i (fun _ _ => True) (finish C config (pendingAt spool x) metadata dump) h := by
  obtain ⟨hmetadata, hdump, hsdk⟩ := component_names
  refine Minds.bind (copyContextFiles_minds 0 _ h) fun ms _ _ _ => ?_
  refine Minds.bind (writeFile_minds hmetadata) fun _ _ _ _ => ?_
  exact Minds.bind (writeFile_minds hdump) fun _ _ _ _ => writeFile_minds hsdk

/-- A hook writes below its own entry only. -/
theorem fill_minds (config : PanicHookConfig) (capture : Capture) (h : List (ClientEvent τ)) :
    (writing spool x).Minds i (fun _ _ => True) (capture.fill C config (pendingAt spool x)) h := by
  cases capture with
  | crash info =>
    exact minds_call (.inl trivial) fun tarball _ => minds_lift fun dump _ => minds_call (.inl trivial) fun now _ =>
      finish_minds
  | minidump dump => exact minds_call (.inl trivial) fun now _ => finish_minds

/-- A capture that is at work on its entry. -/
structure AtWork (spool : Path) (env : Env) (start : Disk) (i : τ) (x : String) (w : ClientState τ) : Prop where
  inv : SpoolInv spool env start w
  owns : Owns spool i x w.history
  handles : ∀ p g, (⟨i, .file (.create p), (.ok g : Except IoError Handle)⟩ : ClientEvent τ) ∈ w.history →
    InEntry spool x g.inode w.state.disk

theorem AtWork.stable : (spoolContract spool C env start i).Stable (AtWork spool env start i x) := by
  refine spoolContract_stable (fun w h => h.inv) fun s t h ht he => ⟨ht, ?_, fun p g hg => ?_⟩
  · obtain ⟨u, hu, hissued⟩ := h.owns
    exact ⟨u, hu, (did_apart he.apart).mpr hissued⟩
  · exact (h.handles p g ((he.apart.mem rfl).mp hg)).later he.next he.inodes

/-- After a step of its own. -/
theorem AtWork.step (hstart : Orderly spool env start) (h : AtWork spool env start i x s) {op : ClientOp}
    {v : op.Answer} (hstep : SpoolStep spool C env i s t) (hh : t.history = ⟨i, op, v⟩ :: s.history)
    (hnew : ∀ p g, (⟨i, .file (.create p), (.ok g : Except IoError Handle)⟩ : ClientEvent τ) = ⟨i, op, v⟩ →
      InEntry spool x g.inode t.state.disk) : AtWork spool env start i x t := by
  refine ⟨h.inv.step hstart hstep, ?_, fun p g hg => ?_⟩
  · obtain ⟨u, hu, hissued⟩ := h.owns
    exact ⟨u, hu, hh ▸ hissued.cons⟩
  · rw [hh] at hg
    rcases List.mem_cons.mp hg with heq | hg
    · exact hnew p g heq
    · exact (h.handles p g hg).later hstep.next hstep.inodes

/-- A call of a hook at work is a step of the spool. -/
theorem AtWork.call (hstart : Orderly spool env start) (h : AtWork spool env start i x s) {op : ClientOp}
    {v : op.Answer} (hop : (writing spool x).may i op s.history) (hx : execAs env i op s = some (v, t)) :
    SpoolStep spool C env i s t ∧ AtWork spool env start i x t := by
  rcases hop with hlooks | ⟨name, rfl⟩ | ⟨p, g, bytes, rfl, hg⟩
  · have hpass : Passes spool C env op v i s t := passes_looks hlooks hx
    refine ⟨hpass.step, h.step hstart hpass.step hpass.history fun p g heq => ?_⟩
    have hop : ClientOp.file (.create p) = op := (Process.Event.mk.inj heq).2.1
    rw [← hop] at hlooks
    exact hlooks.elim
  · obtain ⟨hstep, hh, hentry⟩ := step_create (C := C) h.owns h.inv.tidy hx
    refine ⟨hstep, h.step hstart hstep hh fun p g heq => hentry g ?_⟩
    obtain ⟨-, hop, hv⟩ := Process.Event.mk.inj heq
    obtain rfl := FileOp.create.inj (ClientOp.file.inj hop)
    exact (eq_of_heq hv).symm
  · obtain ⟨hstep, hh⟩ := step_write (C := C) h.owns (h.handles p g hg) hx
    refine ⟨hstep, h.step hstart hstep hh fun p g heq => ?_⟩
    cases ClientOp.file.inj (Process.Event.mk.inj heq).2.1

/-- A capture that has drawn its identifier, and done no more. -/
def Named (spool : Path) (env : Env) (start : Disk) (i : τ) (u : Uuid) (w : ClientState τ) : Prop :=
  SpoolInv spool env start w ∧ ∀ e : ClientEvent τ, e.task = i → (e ∈ w.history ↔ e = ⟨i, .newUuid, u⟩)

/-- An identifier, a directory of that name, and files in it. -/
theorem hook_holds (hstart : Orderly spool env start) (h : Silent spool env start i s) {rest : Uuid → Action IoError Unit}
    (hrest : ∀ u h, (writing spool u.toString).Minds i (fun _ _ => True) (rest u) h) :
    (spoolContract spool C env start i).Yields (fun _ => SpoolInv spool env start) (fun _ => SpoolInv spool env start)
      (do
        let u : Uuid ← call .newUuid
        file id (.createDirAll (pendingAt spool u.toString))
        rest u) s := by
  have hinv : (spoolContract spool C env start i).Stable (SpoolInv spool env start) := fun _ _ hr h => (hr h).1
  refine Yields.step (fun _ => hinv) (Silent spool env start i) ?_ h fun a (u : Uuid) b ha _ hx => ?_
  · refine spoolContract_stable (fun w h => h.inv) fun a b ha hb he => ⟨hb, fun e hmem htask => ?_⟩
    exact ha.none e ((he.apart.mem htask).mp hmem) htask
  obtain ⟨hstep, -, hh⟩ := step_newUuid hx
  refine ⟨fun _ => hstep, ?_⟩
  -- until its directory is there it has nothing but its identifier
  have hnamed : Named spool env start i u b := by
    refine ⟨ha.inv.step hstart hstep, fun e htask => ?_⟩
    rw [hh, List.mem_cons]
    exact or_iff_left fun he => ha.none e he htask
  have hstable : (spoolContract spool C env start i).Stable (Named spool env start i u) := by
    refine spoolContract_stable (fun w h => h.1) fun a b ha hb he => ⟨hb, fun e htask => ?_⟩
    exact (he.apart.mem htask).trans (ha.2 e htask)
  refine Yields.step (fun _ => hinv) _ hstable hnamed fun a (made : Except IoError Unit) b ha _ hx => ?_
  have howns : Owns spool i u.toString a.history := ⟨u, rfl, _, (ha.2 ⟨i, .newUuid, u⟩ rfl).mpr rfl, rfl, rfl⟩
  cases made with
  | error e =>
    have hpass : Passes spool C env (.file (.createDirAll (pendingAt spool u.toString)))
      (.error e : Except IoError Unit) i a b := passes_error (by simp) hx
    exact ⟨fun _ => hpass.step, ha.1.step hstart hpass.step⟩
  | ok v =>
    have hfirst : ¬ Did spool i (.opened u.toString) a.history := by
      rintro ⟨e, he, htask, hmark⟩
      rw [(ha.2 e htask).mp he] at hmark
      cases hmark
    obtain ⟨hstep, hh⟩ := step_open howns hfirst hx
    refine ⟨fun _ => hstep, ?_⟩
    have hwork : AtWork spool env start i u.toString b := by
      refine ⟨ha.1.step hstart hstep, ?_, fun p g hg => ?_⟩
      · obtain ⟨u', hu, hissued⟩ := howns
        exact ⟨u', hu, hh ▸ hissued.cons⟩
      · rw [hh] at hg
        rcases List.mem_cons.mp hg with heq | hg
        · cases ClientOp.file.inj (Process.Event.mk.inj heq).2.1
        · cases (Process.Event.mk.inj ((ha.2 _ rfl).mp hg)).2.1
    refine (Yields.of_minds (M := World.exec env i) (A := AtWork spool env start i u.toString) rfl AtWork.stable
      (fun a b ha hr => (hr ha.inv).2.apart.subset) (fun _ _ _ _ _ _ => trivial) (fun op a v b ha hop _ hx => ?_)
      (fun _ _ _ _ h => h) (hrest u _) hwork).mono (fun _ _ h => h.1.inv) fun _ _ h => h.inv
    obtain ⟨hstep, hb⟩ := ha.call hstart hop hx
    exact ⟨fun _ => hstep, hb⟩

/-- **A capture keeps to its own entry.** -/
theorem capture_holds (hstart : Orderly spool env start) {config : PanicHookConfig} (hdir : config.spoolDir = spool)
    (capture : Capture) (h : Silent spool env start i s) : (spoolContract spool C env start i).Holds
      (fun _ => SpoolInv spool env start) (capture.write C config).run s := by
  have hyields : (spoolContract spool C env start i).Yields (fun _ => SpoolInv spool env start)
      (fun _ => SpoolInv spool env start) (capture.write C config) s := by
    rw [capture.write_eq, config.entry_pendingAt hdir]
    exact hook_holds hstart h fun u h => fill_minds config capture h
  refine Holds.mono hyields fun r t ht => ?_
  cases r with
  | ok _ => exact ht
  | error _ => exact ht

end Hooks

end Detritus.Client
