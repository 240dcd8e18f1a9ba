import Detritus.Server.BlobSteps

/-! Uploads on the crash store.

An upload relies on the others to leave its temporary files alone and to keep the
blobs it has taken until it answers; it makes legal calls only. What it is at, between
two calls, is one of a few assertions that the others cannot make false: `Idle`
between parts, `Writing` while a part arrives, `Holding` once the temporary file is
linked. -/
namespace Detritus.Server
open Files Protocol Process Contract

namespace CrashSystem
variable {ι : Type} {Y : CrashSystem ι} {i : ι} {s t : ServerState ι} {u : Uuid} {bytes : Bytes} {hd : Handle}
  {d : Sha256} {b : Bool}

/-! ### Assertions -/

variable (Y) in
/-- Has not opened an index file and has not answered. -/
structure Idle (i : ι) (w : ServerState ι) : Prop where
  inv : Y.Inv w
  unanswered : ¬ Answered i w.history
  unopened : ¬ Opened Y.app.storage i w.history

variable (Y) in
/-- Owns an identifier whose `finalize_blob` has not returned. -/
structure Owned (i : ι) (u : Uuid) (w : ServerState ι) : Prop extends Y.Idle i w where
  issued : Issued i u w.history
  unfinalized : ∀ j sha b, ¬ Finalized j (Y.temp u) sha b w.history

variable (Y) in
/-- Has written `bytes` to its temporary file. -/
structure Writing (i : ι) (u : Uuid) (hd : Handle) (bytes : Bytes) (w : ServerState ι) : Prop
    extends Y.Owned i u w where
  unlinked : ∀ j d, ¬ Linked Y.app.storage j (Y.temp u) d w.history
  file : w.state.disk.file (Y.temp u) = some hd.inode
  content : (w.state.disk.inode hd.inode).content = bytes
  offset : hd.offset = bytes.length
  mode : hd.append = false

theorem Writing.isOpen (W : Y.Writing i u hd bytes s) :
    Y.Open (Y.temp u) s.history := ⟨W.unlinked, W.unfinalized⟩

/-- What is done with an identifier is done by the task it was issued to. -/
theorem own_finalized (ht : Y.Inv t) (hu : Issued i u t.history) {j : ι} {sha : String}
    (hf : Finalized j (Y.temp u) sha b t.history) : j = i := by
  obtain ⟨v, -, hv, -, hj, -⟩ := ht.ledger.finalized j _ sha b hf
  obtain rfl := temp_injective hv
  exact ht.ledger.owner j i u hj hu

theorem own_linked (ht : Y.Inv t) (hu : Issued i u t.history) {j : ι}
    (hl : Linked Y.app.storage j (Y.temp u) d t.history) : j = i := by
  obtain ⟨v, hv, hj, -⟩ := ht.ledger.linked j _ d hl
  obtain rfl := temp_injective hv
  exact ht.ledger.owner j i u hj hu

theorem Idle.framed (ht : Y.Inv t) (F : Frame Y i s t) (I : Y.Idle i s) : Y.Idle i t where
  inv := ht
  unanswered := fun ha => I.unanswered ((Answered.apart F.apart).mp ha)
  unopened := fun ho => I.unopened ((Opened.apart F.apart).mp ho)

theorem Owned.framed (ht : Y.Inv t) (F : Frame Y i s t) (O : Y.Owned i u s) : Y.Owned i u t where
  toIdle := O.toIdle.framed ht F
  issued := F.apart.subset O.issued
  unfinalized := by
    intro j sha b hf
    obtain rfl := own_finalized ht (F.apart.subset O.issued) hf
    exact O.unfinalized j sha b ((F.apart.mem rfl).mp hf)

theorem unlinked_framed (ht : Y.Inv t) (F : Frame Y i s t) (O : Y.Owned i u s)
    (h : ∀ j d, ¬ Linked Y.app.storage j (Y.temp u) d s.history) (j : ι) (d : Sha256) :
    ¬ Linked Y.app.storage j (Y.temp u) d t.history := by
  intro hl
  obtain rfl := own_linked ht (F.apart.subset O.issued) hl
  exact h j d ((F.apart.mem rfl).mp hl)

theorem Writing.framed (ht : Y.Inv t) (F : Frame Y i s t) (W : Y.Writing i u hd bytes s) :
    Y.Writing i u hd bytes t where
  toOwned := W.toOwned.framed ht F
  unlinked := unlinked_framed ht F W.toOwned W.unlinked
  file := (F.temp u W.issued).1.trans W.file
  content := by rw [(F.temp u W.issued).2 _ W.file, W.content]
  offset := W.offset
  mode := W.mode

/-! ### Own calls -/

section Own
variable {e : ServerEvent ι} (hh : t.history = e :: s.history) (ht : Y.Inv t)
include hh ht

theorem Idle.own (h : Y.Idle i s) (hq : tells Y.app.storage e = false) : Y.Idle i t where
  inv := ht
  unanswered := by
    rw [hh, answered_iff]
    rintro ⟨f, hf, hfa, hft⟩
    rcases List.mem_cons.mp hf with rfl | hf
    · rw [tells, hfa] at hq
      cases hq
    · exact h.unanswered (answered_iff.mpr ⟨f, hf, hfa, hft⟩)
  unopened := by
    rw [hh]
    rintro ⟨f, hf, hft, ho⟩
    rcases List.mem_cons.mp hf with rfl | hf
    · rw [tells, ho, Bool.or_true] at hq
      cases hq
    · exact h.unopened ⟨f, hf, hft, ho⟩

theorem Owned.own (O : Y.Owned i u s) (hq : tells Y.app.storage e = false)
    (hf : ∀ j sha b, ¬ Finalized j (Y.temp u) sha b [e]) : Y.Owned i u t where
  toIdle := O.toIdle.own hh ht hq
  issued := by
    rw [hh]
    exact .tail _ O.issued
  unfinalized := by
    intro j sha b hm
    rw [hh] at hm
    rcases List.mem_cons.mp hm with he | hm
    · exact hf j sha b (List.mem_singleton.mpr he)
    · exact O.unfinalized j sha b hm

/-- A call that leaves the files alone. -/
theorem Writing.own (W : Y.Writing i u hd bytes s) (hs : s.state.disk.SameFiles t.state.disk)
    (hq : tells Y.app.storage e = false) (hf : ∀ j sha b, ¬ Finalized j (Y.temp u) sha b [e])
    (hl : ∀ j d, ¬ Linked Y.app.storage j (Y.temp u) d [e]) : Y.Writing i u hd bytes t where
  toOwned := W.toOwned.own hh ht hq hf
  unlinked := by
    intro j d hm
    rw [hh] at hm
    rcases List.mem_cons.mp hm with he | hm
    · exact hl j d (List.mem_singleton.mpr he)
    · exact W.unlinked j d hm
  file := by rw [hs.file, W.file]
  content := by rw [hs.inode, W.content]
  offset := W.offset
  mode := W.mode

end Own

theorem exec_file_iff {op : FileOp} {x : op.Answer} : execAs Y.env i (.file op) s = some (x, t) →
    x = (op.exec (Y.env.clock s.history.length) (Y.env.order s.history.length) s.state.disk).1 ∧
    t.state.disk = (op.exec (Y.env.clock s.history.length) (Y.env.order s.history.length) s.state.disk).2 ∧
    t.history = ⟨i, .file op, x⟩ :: s.history := by
  intro he
  obtain ⟨hx, hh⟩ := record_eq_some.mp he
  obtain ⟨hans, hw⟩ := World.exec_file.mp hx
  exact ⟨hans, by rw [hw], hh⟩

theorem exec_quiet {op : FileOp} {x : op.Answer} (hq : op.quiet = true)
    (he : execAs Y.env i (.file op) s = some (x, t)) : s.state.disk.SameFiles t.state.disk := by
  obtain ⟨-, hd, -⟩ := exec_file_iff he
  rw [hd]
  exact FileOp.exec_quiet hq ..

/-! ### A temporary file, from its name to its last byte -/

variable (Y) in
/-- Owns an identifier that nothing has been done with. -/
structure Ready (i : ι) (u : Uuid) (w : ServerState ι) : Prop extends Y.Owned i u w where
  unlinked : ∀ j d, ¬ Linked Y.app.storage j (Y.temp u) d w.history
  absent : w.state.disk.file (Y.temp u) = none

theorem Ready.framed (ht : Y.Inv t) (F : Frame Y i s t) (R : Y.Ready i u s) : Y.Ready i u t where
  toOwned := R.toOwned.framed ht F
  unlinked := unlinked_framed ht F R.toOwned R.unlinked
  absent := (F.temp u R.issued).1.trans R.absent

/-- An identifier is new when it is issued. -/
theorem Ready.of_newUuid (h : Y.Idle i s) (ht : Y.Inv t) (he : execAs Y.env i .newUuid s = some (u, t)) :
    Y.Ready i u t := by
  obtain ⟨hx, hh⟩ := record_eq_some.mp he
  have hd := World.exec_disk (by simp) hx
  have hu : Issued i u t.history := by
    rw [hh]
    exact List.mem_cons_self ..
  have fresh : ∀ j, ¬ Issued j u s.history := by
    intro j hj
    obtain ⟨k, hk, hk'⟩ := h.inv.ledger.numbered j u hj
    exact hk.ne (Y.env.fresh hk' (World.exec_newUuid hx))
  refine ⟨⟨h.own hh ht rfl, hu, ?_⟩, ?_, ?_⟩
  · intro j sha b hf
    rw [hh] at hf
    rcases List.mem_cons.mp hf with he | hf
    · exact absurd (congrArg Event.op he) (by simp)
    · obtain ⟨v, -, hv, -, hj, -⟩ := h.inv.ledger.finalized j _ sha b hf
      rw [← temp_injective hv] at hj
      exact fresh j hj
  · intro j d hl
    rw [hh] at hl
    rcases List.mem_cons.mp hl with he | hl
    · exact absurd (congrArg Event.op he) (by simp)
    · obtain ⟨v, hv, hj, -⟩ := h.inv.ledger.linked j _ d hl
      rw [← temp_injective hv] at hj
      exact fresh j hj
  · rw [hd]
    cases hf : s.state.disk.file (Y.temp u) with
    | none => rfl
    | some n =>
      obtain ⟨j, hj⟩ := h.inv.names.issued u (by rw [hf]; rfl)
      exact absurd hj (fresh j)

theorem Writing.of_create {x : FileOp.Answer (.create (Y.temp u))} (R : Y.Ready i u s) (ht : Y.Inv t)
    (he : execAs Y.env i (.file (.create (Y.temp u))) s = some (x, t)) :
    ∃ hd, x = .ok hd ∧ Y.Writing i u hd [] t := by
  obtain ⟨hx, hd, hh⟩ := exec_file_iff he
  rw [FileOp.exec, Disk.create_none R.absent] at hx hd
  have hq : tells Y.app.storage (⟨i, .file (.create (Y.temp u)), x⟩ : ServerEvent ι) = false := by
    subst hx
    rw [tells, opensIndex, if_neg fun hpre => index_ne_temp hpre u rfl]
    rfl
  refine ⟨_, hx, R.toOwned.own hh ht hq (by simp [Finalized]), ?_, ?_, ?_, rfl, rfl⟩
  · intro j d hl
    rw [hh] at hl
    rcases List.mem_cons.mp hl with he | hl
    · exact absurd (congrArg Event.op he) (by simp)
    · exact R.unlinked j d hl
  · rw [hd, Disk.fresh_file, Function.update_self]
  · rw [hd, Disk.fresh_inode, Function.update_self]

theorem Writing.write {bytes chunk : Bytes} {x : FileOp.Answer (.write hd chunk)} (W : Y.Writing i u hd bytes s)
    (ht : Y.Inv t) (he : execAs Y.env i (.file (.write hd chunk)) s = some (x, t)) :
    ∃ hd', x = .ok hd' ∧ Y.Writing i u hd' (bytes ++ chunk) t := by
  obtain ⟨hx, hdisk, hh⟩ := exec_file_iff he
  have hpos : s.state.disk.position hd = bytes.length := by
    rw [Disk.position, W.mode, if_neg (by decide), W.offset]
  refine ⟨_, hx, W.toOwned.own hh ht rfl (by simp [Finalized]), ?_, ?_, ?_, ?_, W.mode⟩
  · intro j d hl
    rw [hh] at hl
    rcases List.mem_cons.mp hl with he | hl
    · exact absurd (congrArg Event.op he) (by simp)
    · exact W.unlinked j d hl
  · rw [hdisk]
    exact W.file
  · rw [hdisk]
    show (Function.update s.state.disk.inode hd.inode _ hd.inode).content = _
    rw [Function.update_self, hpos]
    show overlay (s.state.disk.inode hd.inode).content bytes.length chunk = _
    rw [W.content, overlay_end]
  · show s.state.disk.position hd + chunk.length = _
    rw [hpos, List.length_append]

/-! ### A temporary file, linked and removed -/

variable (Y) in
/-- Is to link its temporary file. -/
structure Finalizing (i : ι) (u : Uuid) (hd : Handle) (bytes : Bytes) (w : ServerState ι) : Prop
    extends Y.Writing i u hd bytes w where
  began : Began i (Y.temp u) (Y.crates.sha256 bytes).hex w.history

variable (Y) in
/-- Has taken the blob of a digest: `dedup` says that it is not the one that linked it. -/
structure Holding (i : ι) (u : Uuid) (d : Sha256) (dedup : Bool) (w : ServerState ι) : Prop
    extends Y.Owned i u w where
  took : Took Y.app.storage i d w.history
  flag : dedup = false ↔ Linked Y.app.storage i (Y.temp u) d w.history

theorem Finalizing.framed (ht : Y.Inv t) (F : Frame Y i s t) (W : Y.Finalizing i u hd bytes s) :
    Y.Finalizing i u hd bytes t where
  toWriting := W.toWriting.framed ht F
  began := F.apart.subset W.began

theorem Holding.framed (ht : Y.Inv t) (F : Frame Y i s t) (W : Y.Holding i u d b s) : Y.Holding i u d b t where
  toOwned := W.toOwned.framed ht F
  took := W.took.mono F.apart.subset
  flag := W.flag.trans (F.apart.mem rfl).symm

/-- A call other than a link or the return of `finalize_blob`. -/
theorem Holding.own {e : ServerEvent ι} (hh : t.history = e :: s.history) (ht : Y.Inv t) (W : Y.Holding i u d b s)
    (hq : tells Y.app.storage e = false) (hf : ∀ j sha b, ¬ Finalized j (Y.temp u) sha b [e])
    (hl : ∀ j d, ¬ Linked Y.app.storage j (Y.temp u) d [e]) : Y.Holding i u d b t where
  toOwned := W.toOwned.own hh ht hq hf
  took := W.took.mono (by rw [hh]; exact List.subset_cons_self ..)
  flag := by
    rw [W.flag, hh]
    refine ⟨.tail _, fun hm => ?_⟩
    rcases List.mem_cons.mp hm with he | hm
    · exact absurd (List.mem_singleton.mpr he) (hl i d)
    · exact hm

/-- The blob was there. -/
theorem Holding.of_found (W : Y.Finalizing i u hd bytes s) (ht : Y.Inv t)
    (he : execAs Y.env i (.file (.tryExists (Y.blob (Y.crates.sha256 bytes)))) s = some (.ok true, t)) :
    Y.Holding i u (Y.crates.sha256 bytes) true t := by
  obtain ⟨-, -, hh⟩ := exec_file_iff he
  refine ⟨W.toOwned.own hh ht rfl (by simp [Finalized]), .inl ?_, ?_⟩
  · rw [hh]
    exact List.mem_cons_self ..
  · refine ⟨fun h => absurd h (by decide), fun hl => ?_⟩
    rw [hh] at hl
    rcases List.mem_cons.mp hl with he | hl
    · exact absurd (congrArg Event.op he) (by simp)
    · exact absurd hl (W.unlinked i _)

/-- The link was made, or someone else's was there first. -/
theorem Holding.of_link {x : FileOp.Answer (.hardLink (Y.temp u) (Y.blob (Y.crates.sha256 bytes)))}
    (W : Y.Finalizing i u hd bytes s) (ht : Y.Inv t)
    (he : execAs Y.env i (.file (.hardLink (Y.temp u) (Y.blob (Y.crates.sha256 bytes)))) s = some (x, t)) :
    t.state.disk.file (Y.temp u) = some hd.inode ∧
      ((x = .ok () ∧ Y.Holding i u (Y.crates.sha256 bytes) false t) ∨
        (x = .error .alreadyExists ∧ Y.Holding i u (Y.crates.sha256 bytes) true t)) := by
  obtain ⟨hx, hd', hh⟩ := exec_file_iff he
  have O : Y.Owned i u t := W.toOwned.own hh ht rfl (by simp [Finalized])
  cases hocc : s.state.disk.occupied (Y.blob (Y.crates.sha256 bytes)) with
  | false =>
    rw [FileOp.exec, Disk.hardLink_ok W.file hocc] at hx hd'
    subst hx
    have hl : Linked Y.app.storage i (Y.temp u) (Y.crates.sha256 bytes) t.history := by
      rw [hh]
      exact List.mem_cons_self ..
    refine ⟨?_, .inl ⟨rfl, O, .inr (.inl ⟨_, hl⟩), fun _ => hl, fun _ => rfl⟩⟩
    rw [hd', Disk.touch_file, Disk.link_file, Function.update_of_ne (Ne.symm (blob_ne_temp _ u)), W.file]
  | true =>
    rw [FileOp.exec, Disk.hardLink_taken W.file hocc] at hx hd'
    subst hx
    refine ⟨by rw [hd', W.file], .inr ⟨rfl, O, .inr (.inr ⟨Y.temp u, ?_⟩), ?_⟩⟩
    · rw [hh]
      exact List.mem_cons_self ..
    · refine ⟨fun h => absurd h (by decide), fun hl => ?_⟩
      rw [hh] at hl
      rcases List.mem_cons.mp hl with he | hl
      · obtain ⟨-, -, hans⟩ := Event.mk.inj he
        exact absurd (eq_of_heq hans) (by simp)
      · exact absurd hl (W.unlinked i _)

/-! ### The contract -/

section Contract
variable [DecidableEq ι]

variable (Y) in
/-- The condition under which blobs are removed: a cycle removes a blob only if every
upload that has taken it had answered before the cycle listed the indexes. -/
def Patient (k : ι) (op : ServerOp) (w : ServerState ι) : Prop :=
  match op with
  | .file (.removeFile p) => ∀ d, p = Y.blob d → ∀ j, Took Y.app.storage j d w.history →
      Answered j (upTo (lists Y.app.storage k) w.history)
  | _ => True

variable (Y) in
def sharing : Sharing (execAs Y.env) Y.Patient where
  Inv := Y.Inv
  frame := Frame Y
  change := Moved Y
  refl := .refl
  trans _ := .trans

variable (Y) in
def contract (i : ι) : Contract serverInterface (ServerState ι) := Y.sharing.contract i

theorem sound : Y.sharing.Sound Y.Legal := fun I hl he => ⟨legal_inv I hl he, legal_moved I hl he⟩

theorem idle_stable : (Y.contract i).Stable (Y.Idle i) :=
  stable_of (fun _ h => h.inv) fun _ _ ht F I => I.framed ht F

theorem writing_stable (u : Uuid) (hd : Handle) (bytes : Bytes) :
    (Y.contract i).Stable (Y.Writing i u hd bytes) :=
  stable_of (fun _ h => h.inv) fun _ _ ht F W => W.framed ht F

theorem ready_stable (u : Uuid) : (Y.contract i).Stable (Y.Ready i u) :=
  stable_of (fun _ h => h.inv) fun _ _ ht F R => R.framed ht F

/-- The chunks of a part end up in the temporary file, all of them or the part has failed. -/
theorem writeChunks_yields {failure : Option MultipartError} (chunks : List Bytes) (hs : Y.Writing i u hd bytes s) :
    (Y.contract i).Yields (fun r t => Y.Writing i u r.1 r.2 t ∧ r.2 = bytes ++ chunks.flatten ∧ failure = none)
      (fun _ => Y.Idle i) (writeChunks Y.app (Y.temp u) failure chunks hd bytes) s := by
  induction chunks generalizing hd bytes s with
  | nil =>
    unfold writeChunks
    cases failure with
    | some error => exact Yields.throw idle_stable hs.toIdle
    | none =>
      refine Yields.pure ?_ ⟨hs, by simp, rfl⟩
      exact fun s t hr h => ⟨writing_stable u hd bytes s t hr h.1, h.2⟩
  | cons chunk rest ih =>
    unfold writeChunks
    split
    · refine yields_call sound (fun _ => idle_stable) (writing_stable u hd bytes) (fun _ h => h.inv) hs ?_ ?_
      · exact fun t W _ => ⟨W.unanswered, .inl ⟨u, rfl, W.issued⟩⟩
      · intro t x v W _ hv _ hx
        exact Yields.throw idle_stable (W.toIdle.own (exec_file_iff hx).2.2 hv rfl)
    · refine yields_try sound (fun _ => idle_stable) (writing_stable u hd bytes) (fun _ h => h.inv) hs ?_ ?_
      · exact fun t W _ => ⟨W.unanswered, .inl ⟨u, W.issued, W.file, W.isOpen⟩⟩
      · intro t x v W _ hv _ hx
        obtain ⟨hd', rfl, W'⟩ := W.write hv hx
        refine .inl ⟨hd', rfl, (ih W').mono (fun r z h => ⟨h.1, ?_, h.2.2⟩) fun _ _ h => h⟩
        rw [h.2.1, List.flatten_cons, List.append_assoc]

theorem finalizing_stable (u : Uuid) (hd : Handle) (bytes : Bytes) :
    (Y.contract i).Stable (Y.Finalizing i u hd bytes) :=
  stable_of (fun _ h => h.inv) fun _ _ ht F W => W.framed ht F

/-- The temporary file is still there. -/
theorem holding_there_stable (u : Uuid) (d : Sha256) (b : Bool) (n : Nat) : (Y.contract i).Stable
    fun w => Y.Holding i u d b w ∧ w.state.disk.file (Y.temp u) = some n :=
  stable_of (fun _ h => h.1.inv) fun _ _ ht F W => ⟨W.1.framed ht F, (F.temp u W.1.issued).1.trans W.2⟩

theorem holding_gone_stable (u : Uuid) (d : Sha256) (b : Bool) : (Y.contract i).Stable
    fun w => Y.Holding i u d b w ∧ w.state.disk.file (Y.temp u) = none :=
  stable_of (fun _ h => h.1.inv) fun _ _ ht F W => ⟨W.1.framed ht F, (F.temp u W.1.issued).1.trans W.2⟩

theorem removeTemp_yields {n : Nat} (hs : Y.Holding i u d b s) (hf : s.state.disk.file (Y.temp u) = some n) :
    (Y.contract i).Yields (fun r t => Y.Holding i u d r t ∧ t.state.disk.file (Y.temp u) = none)
      (fun _ => Y.Idle i)
      ((file .io (.removeFile (Y.temp u)) >>= fun _ => pure b) : Handler CrashError Bool) s := by
  refine yields_try sound (fun _ => idle_stable) (holding_there_stable u d b n) (fun _ h => h.1.inv) ⟨hs, hf⟩ ?_ ?_
  · exact fun t W _ => ⟨W.1.unanswered, .inl ⟨u, rfl, W.1.issued⟩⟩
  · rintro t x v ⟨W, hf⟩ _ hv _ hx
    obtain ⟨hans, hdisk, hh⟩ := exec_file_iff hx
    rw [FileOp.exec, Disk.removeFile_some hf] at hans hdisk
    refine .inl ⟨(), hans, Yields.pure (holding_gone_stable u d b) ⟨?_, ?_⟩⟩
    · exact W.own hh hv rfl (by simp [Finalized]) (by simp [Linked])
    · rw [hdisk, Disk.touch_file, Disk.unlink_file, Function.update_self]

theorem idle_took_stable (d : Sha256) : (Y.contract i).Stable
    fun w => Y.Idle i w ∧ Took Y.app.storage i d w.history :=
  stable_of (fun _ h => h.1.inv) fun _ _ ht F h =>
    ⟨h.1.framed ht F, h.2.mono F.apart.subset⟩

theorem placeBlob_yields (hp : Y.Part bytes) (hs : Y.Finalizing i u hd bytes s) :
    (Y.contract i).Yields
      (fun r t => Y.Holding i u (Y.crates.sha256 bytes) r t ∧ t.state.disk.file (Y.temp u) = none)
      (fun _ => Y.Idle i) (placeBlob (Y.temp u) (Y.blob (Y.crates.sha256 bytes))) s := by
  unfold placeBlob
  refine yields_try sound (fun _ => idle_stable) (finalizing_stable u hd bytes) (fun _ h => h.inv) hs
    (fun t W _ => ⟨W.unanswered, trivial⟩) ?_
  rintro t x v W _ hv _ hx
  obtain ⟨hans, -, hh⟩ := exec_file_iff hx
  refine .inl ⟨_, hans, ?_⟩
  cases hocc : t.state.disk.occupied (Y.blob (Y.crates.sha256 bytes)) with
  | true =>
    rw [FileOp.exec, hocc] at hans
    rw [hans] at hx
    exact removeTemp_yields (.of_found W hv hx) (by rw [(exec_quiet rfl hx).file, W.file])
  | false =>
    have W : Y.Finalizing i u hd bytes v :=
      ⟨W.own hh hv (exec_quiet rfl hx) rfl (by simp [Finalized]) (by simp [Linked]),
        by rw [hh]; exact .tail _ W.began⟩
    refine yields_call sound (fun _ => idle_stable) (finalizing_stable u hd bytes) (fun _ h => h.inv) W ?_ ?_
    · intro t W _
      exact ⟨W.unanswered, u, _, _, rfl, rfl, W.issued, W.isOpen, W.began, W.file, by rw [W.content],
        by rw [W.content]; exact hp⟩
    · intro t x z W _ hz _ hx
      obtain ⟨hfile, ⟨rfl, H⟩ | ⟨rfl, H⟩⟩ := Holding.of_link W hz hx
      · exact removeTemp_yields H hfile
      · exact removeTemp_yields H hfile

/-- `finalize_blob` leaves the blob taken and returns the way to it. -/
theorem finalizeBlob_yields (hp : Y.Part bytes) (hs : Y.Writing i u hd bytes s) :
    (Y.contract i).Yields
      (fun r t => (Y.Idle i t ∧ Took Y.app.storage i (Y.crates.sha256 bytes) t.history) ∧
        Y.app.storage.dataDir.join r.1 = Y.blob (Y.crates.sha256 bytes))
      (fun _ => Y.Idle i) (finalizeBlob Y.app (Y.temp u) (Y.crates.sha256 bytes).hex) s := by
  unfold finalizeBlob
  -- the call begins
  refine yields_call sound (fun _ => idle_stable) (writing_stable u hd bytes) (fun _ h => h.inv) hs
    (fun t W _ => ⟨W.unanswered, trivial⟩) fun t x v W _ hv _ hx => ?_
  obtain ⟨hx', hh⟩ := record_eq_some.mp hx
  have W : Y.Finalizing i u hd bytes v :=
    ⟨W.own hh hv (by rw [World.exec_disk (by simp) hx']; exact ⟨rfl, rfl, rfl⟩) rfl (by simp [Finalized])
      (by simp [Linked]), by rw [hh]; exact List.mem_cons_self ..⟩
  -- the directory of the blob
  refine yields_try sound (fun _ => idle_stable) (finalizing_stable u hd bytes) (fun _ h => h.inv) W ?_ ?_
  · intro t W _
    refine ⟨W.unanswered, fun d hpre => ?_, fun hsrc =>
      absurd (hsrc.trans (List.dropLast_prefix _)) (Y.app.storage.bySource_not_blobPath _)⟩
    have hlen := hpre.length_le
    rw [Path.parent, List.length_dropLast, blob, Y.app.storage.blobPath_eq, Y.app.storage.blobPath_eq,
      List.length_append, List.length_append] at hlen
    simp only [List.length_cons, List.length_nil] at hlen
    omega
  rintro t x v W _ hv _ hx
  obtain ⟨rfl, -, hh⟩ := exec_file_iff hx
  refine .inl ⟨(), rfl, ?_⟩
  have W : Y.Finalizing i u hd bytes v :=
    ⟨W.own hh hv (exec_quiet rfl hx) rfl (by simp [Finalized]) (by simp [Linked]),
      by rw [hh]; exact .tail _ W.began⟩
  refine Yields.andThen (fun _ => idle_stable) (placeBlob_yields hp W) ?_
  -- the call returns
  rintro b z H
  refine yields_call sound (fun _ => idle_stable) (holding_gone_stable u _ b) (fun _ h => h.1.inv) H ?_ ?_
  · rintro t ⟨H, hnone⟩ _
    exact ⟨H.unanswered, u, _, rfl, rfl, H.issued, hnone, H.unfinalized, H.took, H.flag⟩
  · rintro t x y ⟨H, -⟩ _ hy _ hx
    obtain ⟨-, hh⟩ := record_eq_some.mp hx
    refine Yields.pure (fun s t hr h => ⟨idle_took_stable _ s t hr h.1, h.2⟩)
      ⟨⟨H.toIdle.own hh hy rfl, H.took.mono (by rw [hh]; exact List.subset_cons_self ..)⟩, ?_⟩
    exact Y.app.storage.relative_blobPath _

end Contract

end CrashSystem

end Detritus.Server
