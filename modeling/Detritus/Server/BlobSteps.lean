import Detritus.Server.BlobStore

/-! Legal calls keep the invariant of the crash store, and what they leave alone.

`Frame j` is what the calls of other tasks do not do to the task `j`, `Evolves` what no
call does to a blob. -/
namespace Detritus.Server
open Files Protocol Process

namespace CrashSystem
variable {ι : Type} {Y : CrashSystem ι} {s t : ServerState ι} {i : ι} {p : Path} {n : Nat}

/-- A call that the vocabulary of the history does not speak of. -/
structure Mute (P : StoragePaths) (e : ServerEvent ι) : Prop where
  issued : ∀ j u, ¬ Issued j u [e]
  finalized : ∀ j temp sha b, ¬ Finalized j temp sha b [e]
  took : ∀ j d, ¬ Took P j d [e]

theorem Mute.linked {P : StoragePaths} {e : ServerEvent ι} (m : Mute P e) (j : ι) (temp : Path) (d : Sha256) :
    ¬ Linked P j temp d [e] := fun hl => m.took j d (.inr (.inl ⟨temp, hl⟩))

theorem Ledger.mute {h : List (ServerEvent ι)} (L : Y.Ledger h) {op : ServerOp} {x : op.Answer}
    (hs : ¬ Answered i h) (m : Mute Y.app.storage (⟨i, op, x⟩ : ServerEvent ι))
    (hopens : (opensIndex Y.app.storage (⟨i, op, x⟩ : ServerEvent ι)).isSome = true →
      ∃ token headers body, Y.jobs i = .upload token headers body) : Y.Ledger (⟨i, op, x⟩ :: h) :=
  L.cons hs (fun u he => absurd (List.mem_singleton.mpr he.symm) (m.issued i u))
    (fun temp d hl => absurd hl (m.linked i temp d)) (fun temp sha b hf => absurd hf (m.finalized i temp sha b))
    hopens

/-- A mute call that leaves the files alone. -/
theorem Inv.mute (I : Y.Inv s) {op : ServerOp} {x : op.Answer} (hs : ¬ Answered i s.history)
    (hh : t.history = ⟨i, op, x⟩ :: s.history) (hd : s.state.disk.SameFiles t.state.disk)
    (hdirs : Y.Dirs t.state.disk)
    (hgrow : ∀ p, (s.state.disk.dir p).isSome = true → (t.state.disk.dir p).isSome = true)
    (m : Mute Y.app.storage (⟨i, op, x⟩ : ServerEvent ι)) (ht : touched (⟨i, op, x⟩ : ServerEvent ι) = none) :
    Y.Inv t where
  names := by
    rw [hh]
    exact I.names.same (List.subset_cons_self ..) hd hdirs hgrow
  ledger := by
    rw [hh]
    exact I.ledger.mute hs m (by simp [opensIndex_eq_none ht])
  stored := by
    rw [hh]
    exact I.stored.same hd ht (fun j t sha b hf => absurd hf (m.finalized j t sha b))
      (fun j d hk => absurd hk (m.took j d)) m.linked

/-- A mute call that leaves the disk alone. -/
theorem Inv.mute_disk (I : Y.Inv s) {op : ServerOp} {x : op.Answer} (hs : ¬ Answered i s.history)
    (hh : t.history = ⟨i, op, x⟩ :: s.history) (hd : t.state.disk = s.state.disk)
    (m : Mute Y.app.storage (⟨i, op, x⟩ : ServerEvent ι)) (ht : touched (⟨i, op, x⟩ : ServerEvent ι) = none) :
    Y.Inv t :=
  I.mute hs hh (by rw [hd]; exact ⟨rfl, rfl, rfl⟩) (by rw [hd]; exact I.names.dirs) (fun _ hp => by rwa [hd]) m ht

theorem Names.mono {d : Disk} {h h' : List (ServerEvent ι)} (N : Y.Names d h) (hh : h ⊆ h') : Y.Names d h' :=
  N.same hh ⟨rfl, rfl, rfl⟩ N.dirs fun _ hp => hp

/-- The last of the calls on a file comes after a mark if any does. -/
theorem find_mem_since {mark : ServerEvent ι → Bool} {h : List (ServerEvent ι)} {e f : ServerEvent ι}
    (hf : lastOn n h = some f) (he : e ∈ since mark h) (ht : touched e = some n) : f ∈ since mark h := by
  rw [lastOn, ← since_append_upTo mark h, List.find?_append] at hf
  cases hs : (since mark h).find? (fun e => touched e = some n) with
  | none =>
    have := List.find?_eq_none.mp hs e he
    exact absurd ht (by simpa using this)
  | some g =>
    rw [hs, Option.some_or] at hf
    obtain rfl := Option.some.inj hf
    exact List.mem_of_find?_eq_some hs

/-- No directory has the name of a blob. -/
theorem occupied_iff (N : Y.Names s.state.disk s.history) (d : Sha256) :
    s.state.disk.occupied (Y.blob d) = (s.state.disk.file (Y.blob d)).isSome := by
  rw [Disk.occupied, N.dirs.blob d, Bool.or_false]

section File
variable {now : Time} {order : FileOp.Order}

/-- A file is created: a temporary one, or an index. -/
theorem create_inv [DecidableEq ι] (I : Y.Inv s) (hs : ¬ Answered i s.history) (hl : Y.LegalFile i (.create p) s)
    {x : FileOp.Answer (.create p)} (hx : x = ((FileOp.create p).exec now order s.state.disk).1)
    (hd : t.state.disk = ((FileOp.create p).exec now order s.state.disk).2)
    (hh : t.history = ⟨i, .file (.create p), x⟩ :: s.history) : Y.Inv t := by
  have m : Mute Y.app.storage (⟨i, .file (.create p), x⟩ : ServerEvent ι) :=
    ⟨by simp [Issued], by simp [Finalized], by simp [Took, Found, Linked, Lost]⟩
  have hnb : ∀ d, p ≠ Y.blob d := by
    rintro d rfl
    rcases hl with ⟨u, hu, -⟩ | ⟨hspot, -⟩
    · exact blob_ne_temp d u hu
    · exact index_ne_blob hspot.below d rfl
  have hopen : ∀ j sha b, ¬ Finalized j p sha b s.history := by
    rcases hl with ⟨u, rfl, -, -, ho⟩ | ⟨hspot, -⟩
    · exact ho.2
    · intro j sha b hf
      obtain ⟨u, -, rfl, -⟩ := I.ledger.finalized j p sha b hf
      exact index_ne_temp hspot.below u rfl
  have hspot : ∀ n, s.state.disk.file p = some n → Y.app.storage.bySource <+: p := by
    intro n hn
    rcases hl with ⟨u, -, -, hnone, -⟩ | ⟨hspot, -⟩
    · rw [hn] at hnone
      exact absurd hnone (by simp)
    · exact hspot.below
  have hjob : (opensIndex Y.app.storage (⟨i, .file (.create p), x⟩ : ServerEvent ι)).isSome = true →
      ∃ token headers body, Y.jobs i = .upload token headers body := by
    intro ho
    rcases hl with ⟨u, rfl, -⟩ | ⟨-, hjob⟩
    · obtain ⟨n, hn⟩ := Option.isSome_iff_exists.mp ho
      obtain ⟨q, hd', hq, -, heq⟩ := opensIndex_eq hn
      have hop : FileOp.create (Y.temp u) = .create q := ServerOp.file.inj (congrArg Event.op heq)
      rw [← FileOp.create.inj hop] at hq
      exact absurd hq (Y.app.storage.bySource_not_tempPath u)
    · exact hjob
  refine ⟨?_, by rw [hh]; exact I.ledger.mute hs m hjob, ?_⟩
  all_goals rw [hh, hd]
  · cases hf : s.state.disk.file p with
    | none =>
      rw [FileOp.exec, Disk.create_none hf]
      refine I.names.fresh (List.subset_cons_self ..) (hl.imp ?_ And.left)
      rintro ⟨u, hu, hi, -⟩
      exact ⟨u, i, hu, hi⟩
    | some n =>
      rw [FileOp.exec, Disk.create_some hf]
      refine I.names.put (List.subset_cons_self ..) fun q k hq hk => ?_
      exact I.names.blob_ne_index hq hk (I.names.index_origin (hspot n hf) hf)
  · cases hf : s.state.disk.file p with
    | none =>
      rw [FileOp.exec, Disk.create_none hf] at hx
      subst hx
      rw [FileOp.exec, Disk.create_none hf]
      exact I.stored.fresh I.names hnb hopen rfl (by simp [opensIndex]) m.finalized m.took
    | some n =>
      rw [FileOp.exec, Disk.create_some hf] at hx
      subst hx
      rw [FileOp.exec, Disk.create_some hf]
      exact I.stored.put rfl (I.names.next p n hf) (fun _ => I.names.index_origin (hspot n hf) hf) m.finalized m.took
        fun _ _ _ => .inl ⟨by simp [opensIndex, hspot n hf], rfl⟩

/-- A file that the task alone has open is empty. -/
theorem Drafting.empty {hd : Handle} (D : Y.Drafting i hd s) (S : Y.Stored s.state.disk s.history)
    (hsep : Separate Y.app.storage s.history) {q : Path} (hq : Y.app.storage.bySource <+: q)
    (hn : s.state.disk.file q = some hd.inode) : (s.state.disk.inode hd.inode).content = [] := by
  obtain ⟨e, hlast, -, hopens⟩ := D.last hsep
  obtain ⟨f, R⟩ := S.recent q _ hq hn
  obtain rfl := Option.some.inj (hlast.symm.trans R.last)
  rcases R.settled hsep with ⟨-, hempty⟩ | ⟨hwrites, -⟩
  · exact hempty
  · obtain ⟨n, hn⟩ := Option.isSome_iff_exists.mp hopens
    rw [writes_of_opensIndex hn] at hwrites
    cases hwrites

theorem write_inv [DecidableEq ι] (I : Y.Inv s) {hd : Handle} {bytes : Bytes} (hs : ¬ Answered i s.history)
    (hl : Y.LegalFile i (.write hd bytes) s) {x : FileOp.Answer (.write hd bytes)}
    (hd' : t.state.disk = ((FileOp.write hd bytes).exec now order s.state.disk).2)
    (hh : t.history = ⟨i, .file (.write hd bytes), x⟩ :: s.history) : Y.Inv t := by
  have m : Mute Y.app.storage (⟨i, .file (.write hd bytes), x⟩ : ServerEvent ι) :=
    ⟨by simp [Issued], by simp [Finalized], by simp [Took, Found, Linked, Lost]⟩
  refine ⟨?_, by rw [hh]; exact I.ledger.mute hs m (by simp [opensIndex]), ?_⟩
  all_goals rw [hh, hd']
  · refine I.names.put (List.subset_cons_self ..) fun q k hq hk => ?_
    rcases hl with ⟨u, -, hu, ho⟩ | hc
    · exact I.names.blob_ne_open hq hk hu ho
    · exact I.names.blob_ne_index hq hk hc.origin
  · have hknown : hd.inode < s.state.disk.next := by
      rcases hl with ⟨u, -, hu, -⟩ | hc
      · exact I.names.next _ _ hu
      · exact hc.known
    refine I.stored.put rfl hknown (by simp [opensIndex]) m.finalized m.took fun q hq hn => ?_
    rcases hl with ⟨u, -, hu, -⟩ | hc
    · exact absurd rfl (I.names.temp_ne_index hu (I.names.index_origin hq hn))
    · obtain ⟨y, hy, hall⟩ := hc.index
      rw [Disk.position, hc.start.2, hc.start.1, if_neg (by decide), overlay_start, hy]
      refine .inr ⟨hs, hc.opened, rfl, y, List.prefix_append .., hall, ⟨hd, x, List.mem_singleton_self _⟩, fun hsep => ?_⟩
      rw [hc.empty I.stored hsep hq hn, List.drop_nil, List.append_nil]

/-- A temporary file is linked to its blob. -/
theorem hardLink_inv [DecidableEq ι] (I : Y.Inv s) {src dst : Path} (hs : ¬ Answered i s.history)
    (hl : Y.LegalFile i (.hardLink src dst) s) {x : FileOp.Answer (.hardLink src dst)}
    (hx : x = ((FileOp.hardLink src dst).exec now order s.state.disk).1)
    (hd : t.state.disk = ((FileOp.hardLink src dst).exec now order s.state.disk).2)
    (hh : t.history = ⟨i, .file (.hardLink src dst), x⟩ :: s.history) : Y.Inv t := by
  obtain ⟨u, d, n, rfl, rfl, hu, ho, hb, hn, hsha, hpart⟩ := hl
  have L : Y.Ledger t.history := by
    rw [hh]
    refine I.ledger.cons hs (by simp) ?_ (by simp [Finalized]) (by simp [opensIndex])
    intro temp d' hl'
    obtain ⟨-, ⟨rfl, he⟩, -⟩ : True ∧ (temp = Y.temp u ∧ Y.app.storage.blobPath d'.hex = Y.blob d) ∧ True := by
      have := congrArg Event.op (List.mem_singleton.mp hl')
      simpa using this
    obtain rfl := blob_injective he
    exact ⟨⟨u, rfl, hu⟩, hb, ho⟩
  have htook : ∀ j d', Took Y.app.storage j d'
      [(⟨i, .file (.hardLink (Y.temp u) (Y.blob d)), x⟩ : ServerEvent ι)] → d' = d := by
    rintro j d' (hf | ⟨temp, hf⟩ | ⟨temp, hf⟩)
    · exact absurd (congrArg Event.op (List.mem_singleton.mp hf)) (by simp)
    all_goals
      have := congrArg Event.op (List.mem_singleton.mp hf)
      simp only [ServerOp.file.injEq, FileOp.hardLink.injEq] at this
      exact blob_injective this.2
  cases hocc : s.state.disk.occupied (Y.blob d) with
  | false =>
    have hfree : s.state.disk.file (Y.blob d) = none := by
      rw [occupied_iff I.names] at hocc
      simpa using hocc
    rw [FileOp.exec, Disk.hardLink_ok hn hocc] at hx hd
    subst hx
    refine ⟨?_, L, ?_⟩
    all_goals rw [hh, hd]
    · exact I.names.link (List.subset_cons_self ..) hn (.head _) hsha hpart
    · exact I.stored.link I.ledger hfree rfl (by simp [Finalized]) htook
  | true =>
    rw [FileOp.exec, Disk.hardLink_taken hn hocc] at hx hd
    subst hx
    have hsame : s.state.disk.SameFiles t.state.disk := by
      rw [hd]
      exact ⟨rfl, rfl, rfl⟩
    refine ⟨?_, L, ?_⟩
    all_goals rw [hh]
    · rw [hd]
      exact I.names.mono (List.subset_cons_self ..)
    · refine I.stored.same hsame rfl (by simp [Finalized]) ?_ (by simp [Linked])
      intro j d' hk
      rw [htook j d' hk, ← occupied_iff I.names]
      exact hocc

/-- A file goes: a temporary one, or one that the janitor takes. -/
theorem removeFile_inv [DecidableEq ι] (I : Y.Inv s) (hs : ¬ Answered i s.history)
    (hl : Y.LegalFile i (.removeFile p) s) {x : FileOp.Answer (.removeFile p)}
    (hx : x = ((FileOp.removeFile p).exec now order s.state.disk).1)
    (hd : t.state.disk = ((FileOp.removeFile p).exec now order s.state.disk).2)
    (hh : t.history = ⟨i, .file (.removeFile p), x⟩ :: s.history) : Y.Inv t := by
  have m : Mute Y.app.storage (⟨i, .file (.removeFile p), x⟩ : ServerEvent ι) :=
    ⟨by simp [Issued], by simp [Finalized], by simp [Took, Found, Linked, Lost]⟩
  cases hf : s.state.disk.file p with
  | none =>
    rw [FileOp.exec, Disk.removeFile_none hf] at hd
    exact I.mute_disk hs hh hd m rfl
  | some n =>
    rw [FileOp.exec, Disk.removeFile_some hf] at hx hd
    subst hx
    refine ⟨?_, by rw [hh]; exact I.ledger.mute hs m (by simp [opensIndex]), ?_⟩
    all_goals rw [hh, hd]
    · exact I.names.unlink (List.subset_cons_self ..)
    · refine I.stored.unlink rfl m.finalized m.took fun d hp => ?_
      have hsweep : Y.Sweepable i d s := by
        subst hp
        rcases hl with ⟨u, hu, -⟩ | hi | hlog | ⟨d', he, hsw⟩
        · exact absurd hu (blob_ne_temp d u)
        · exact absurd rfl (index_ne_blob hi d)
        · exact absurd ⟨hlog, Y.app.storage.byHash_blobPath d⟩ Y.app.storage.regions_apart.2.1
        · rwa [blob_injective he]
      refine ⟨⟨i, by rw [hp]; exact List.mem_cons_self ..⟩, ?_, ?_⟩
      · intro j hj
        exact (hsweep.2 j hj).mono (List.dropWhile_sublist _).subset
      · intro hj q k y hq hk hc hmem
        -- whoever completed the index after the listing had answered before it
        obtain ⟨f, hfind, hall⟩ := I.stored.taken hj hq hk hc
        obtain ⟨d', hd', htook⟩ := hall _ hmem
        obtain rfl := Sha256.hex_injective hd'
        obtain ⟨g, hg, hga, hgt⟩ := answered_iff.mp (hsweep.2 f.task htook)
        obtain ⟨e, he, het⟩ := hsweep.1 hj q k y hq hk hc hmem
        have hlate : f ∈ since (lists Y.app.storage i) s.history :=
          find_mem_since hfind he het
        have hord := I.ledger.silent
        rw [← since_append_upTo (lists Y.app.storage i) s.history] at hord
        exact (List.pairwise_append.mp hord).2.2 f hlate g hg hga hgt.symm

end File

/-- **A legal call keeps the invariant.** -/
theorem legal_inv [DecidableEq ι] {op : ServerOp} {x : op.Answer} (I : Y.Inv s) (hl : Y.Legal i op s)
    (he : execAs Y.env i op s = some (x, t)) : Y.Inv t := by
  obtain ⟨hx, hh⟩ := record_eq_some.mp he
  obtain ⟨hs, hop⟩ := hl
  cases op with
  | file op =>
    obtain ⟨hans, hw⟩ := World.exec_file.mp hx
    have hd : t.state.disk = (op.exec (Y.env.clock s.history.length) (Y.env.order s.history.length)
        s.state.disk).2 := by rw [hw]
    have quiet : op.quiet = true → s.state.disk.SameFiles t.state.disk := fun hq => by
      rw [hd]
      exact FileOp.exec_quiet hq ..
    cases op with
    | createDirAll p =>
      have hdir : ∀ q, (t.state.disk.dir q).isSome = true ↔ q <+: p ∨ (s.state.disk.dir q).isSome = true := by
        intro q
        rw [hd, FileOp.exec, Disk.createDirAll_dir]
      refine I.mute hs hh (quiet rfl) ⟨fun d => ?_, fun q hq hq' => ?_⟩ (fun q hq => (hdir q).mpr (.inr hq))
        ⟨by simp [Issued], by simp [Finalized], by simp [Took, Found, Linked, Lost]⟩ rfl
      · rw [← Bool.not_eq_true, hdir]
        rintro (hp | hd')
        · exact hop.1 d hp
        · rw [I.names.dirs.blob d] at hd'
          exact absurd hd' (by decide)
      · rcases (hdir q).mp hq' with hp | hd'
        · exact lt_of_le_of_lt hp.length_le (hop.2 (hq.trans hp))
        · exact I.names.dirs.shallow q hq hd'
    | create p => exact create_inv I hs hop hans hd hh
    | write hd' bytes => exact write_inv I hs hop hd hh
    | hardLink src dst => exact hardLink_inv I hs hop hans hd hh
    | removeFile p => exact removeFile_inv I hs hop hans hd hh
    | openAppend _ | removeDirAll _ | renameDir _ _ => exact absurd hop id
    | tryExists p =>
      refine ⟨?_, ?_, ?_⟩
      all_goals rw [hh]
      · rw [hd]
        exact I.names.mono (List.subset_cons_self ..)
      · exact I.ledger.cons hs (by simp) (by simp [Linked]) (by simp [Finalized]) (by simp [opensIndex])
      · refine I.stored.same (quiet rfl) rfl (by simp [Finalized]) ?_ (by simp [Linked])
        rintro j d (hf | ⟨temp, hf⟩ | ⟨temp, hf⟩)
        · obtain ⟨-, hp, hb⟩ := Event.mk.inj (List.mem_singleton.mp hf)
          simp only [ServerOp.file.injEq, FileOp.tryExists.injEq] at hp
          subst hp
          rw [heq_eq_eq] at hb
          rw [← occupied_iff I.names]
          rw [hans] at hb
          exact (Except.ok.inj hb).symm
        all_goals exact absurd (congrArg Event.op (List.mem_singleton.mp hf)) (by simp)
    | sync _ | read _ | metadata _ | readDir _ =>
      exact I.mute_disk hs hh hd
        ⟨by simp [Issued], by simp [Finalized], by simp [Took, Found, Linked, Lost]⟩ rfl
  | newUuid =>
    have hd := World.exec_disk (by simp) hx
    have hu := World.exec_newUuid hx
    refine ⟨?_, ?_, ?_⟩
    all_goals rw [hh]
    · rw [hd]
      exact I.names.mono (List.subset_cons_self ..)
    · refine I.ledger.cons hs ?_ (by simp [Linked]) (by simp [Finalized]) (by simp [opensIndex])
      intro u he
      obtain ⟨-, -, h⟩ := Event.mk.inj he
      rw [hu, eq_of_heq h]
    · exact I.stored.same (by rw [hd]; exact ⟨rfl, rfl, rfl⟩) rfl (by simp [Finalized])
        (by simp [Took, Found, Linked, Lost]) (by simp [Linked])
  | finalized temp sha b =>
    have hd := World.exec_disk (by simp) hx
    obtain ⟨u, d, ht, hsha, hu, hnone, hfin, htook, hb⟩ := hop
    refine ⟨?_, ?_, ?_⟩
    all_goals rw [hh]
    · rw [hd]
      exact I.names.mono (List.subset_cons_self ..)
    · refine I.ledger.cons hs (by simp) (by simp [Linked]) ?_ (by simp [opensIndex])
      intro temp' sha' b' hf
      obtain ⟨rfl, rfl, rfl⟩ : temp' = temp ∧ sha' = sha ∧ b' = b := by
        simpa [Finalized] using hf
      exact ⟨u, d, ht, hsha, hu, hfin, htook, hb⟩
    · refine I.stored.same (by rw [hd]; exact ⟨rfl, rfl, rfl⟩) rfl ?_
        (by simp [Took, Found, Linked, Lost]) (by simp [Linked])
      intro j temp' sha' b' hf
      obtain ⟨-, rfl, -⟩ : j = i ∧ temp' = temp ∧ sha' = sha ∧ b' = b := by
        simpa [Finalized] using hf
      exact hnone
  | _ =>
    have hd := World.exec_disk (by simp) hx
    exact I.mute_disk hs hh hd
      ⟨by simp [Issued], by simp [Finalized], by simp [Took, Found, Linked, Lost]⟩ rfl

/-! ### What a legal call leaves alone -/

/-- Between two moments, others than `j` were at work. -/
structure Frame (Y : CrashSystem ι) (j : ι) (s t : ServerState ι) : Prop where
  /-- An index that has changed was touched by one of their calls. -/
  grown : ∃ new, t.history = new ++ s.history ∧ (∀ e ∈ new, e.task ≠ j) ∧
    ∀ q n, Y.app.storage.bySource <+: q → t.state.disk.file q = some n →
      (s.state.disk.file q = some n ∧ (t.state.disk.inode n).content = (s.state.disk.inode n).content) ∨
        ∃ e ∈ new, touched e = some n
  /-- The temporary files of `j` are as they were. -/
  temp : ∀ u, Issued j u s.history → t.state.disk.file (Y.temp u) = s.state.disk.file (Y.temp u) ∧
    ∀ n, s.state.disk.file (Y.temp u) = some n → t.state.disk.inode n = s.state.disk.inode n
  known : ∀ n < s.state.disk.next, n < t.state.disk.next ∧
    (t.state.disk.inode n).origin = (s.state.disk.inode n).origin
  dirs : ∀ p, (s.state.disk.dir p).isSome = true → (t.state.disk.dir p).isSome = true
  /-- If no index file was opened twice, the one that `j` has open is as `j` left it. -/
  held : Separate Y.app.storage t.history → ∀ n e, lastOn n s.history = some e → e.task = j →
    (opensIndex Y.app.storage e).isSome = true → lastOn n t.history = some e

theorem Frame.apart {j : ι} (F : Frame Y j s t) : Apart j s.history t.history := by
  obtain ⟨new, hh, hn, -⟩ := F.grown
  exact ⟨new, hh, hn⟩

theorem Frame.refl (j : ι) (s : ServerState ι) : Frame Y j s s where
  grown := ⟨[], rfl, by simp, fun _ _ _ hn => .inl ⟨hn, rfl⟩⟩
  temp := fun _ _ => ⟨rfl, fun _ _ => rfl⟩
  known := fun _ hn => ⟨hn, rfl⟩
  dirs := fun _ hp => hp
  held := fun _ _ _ hlast _ _ => hlast

theorem Frame.trans {j : ι} {u : ServerState ι} (F : Frame Y j s t) (G : Frame Y j t u) : Frame Y j s u where
  grown := by
    obtain ⟨new, hh, hn, hi⟩ := F.grown
    obtain ⟨new', hh', hn', hi'⟩ := G.grown
    refine ⟨new' ++ new, by rw [hh', hh, List.append_assoc], ?_, ?_⟩
    · intro e he
      rcases List.mem_append.mp he with h | h
      · exact hn' e h
      · exact hn e h
    · intro q n hq hf
      rcases hi' q n hq hf with ⟨hf', hc'⟩ | ⟨e, he, ht⟩
      · rcases hi q n hq hf' with ⟨hf'', hc⟩ | ⟨e, he, ht⟩
        · exact .inl ⟨hf'', hc'.trans hc⟩
        · exact .inr ⟨e, List.mem_append_right _ he, ht⟩
      · exact .inr ⟨e, List.mem_append_left _ he, ht⟩
  temp := by
    intro v hv
    obtain ⟨hf, hi⟩ := F.temp v hv
    obtain ⟨hf', hi'⟩ := G.temp v (F.apart.subset hv)
    exact ⟨hf'.trans hf, fun n hn => (hi' n (hf.trans hn)).trans (hi n hn)⟩
  known := by
    intro n hn
    obtain ⟨hn', ho⟩ := F.known n hn
    obtain ⟨hn'', ho'⟩ := G.known n hn'
    exact ⟨hn'', ho'.trans ho⟩
  dirs := fun p hp => G.dirs p (F.dirs p hp)
  held := by
    intro hsep n e hlast hj ho
    obtain ⟨new, hh, -⟩ := G.grown
    rw [hh] at hsep
    have hlast := F.held hsep.of_append n e hlast hj ho
    rw [← hh] at hsep
    exact G.held hsep n e hlast hj ho

/-- A blob stays as it is until it is removed. -/
structure Evolves (Y : CrashSystem ι) (s t : ServerState ι) : Prop where
  history : s.history ⊆ t.history
  blob : ∀ d n, s.state.disk.file (Y.blob d) = some n →
    (t.state.disk.file (Y.blob d) = some n ∧ t.state.disk.inode n = s.state.disk.inode n) ∨
      Removed Y.app.storage d t.history

theorem Evolves.refl (s : ServerState ι) : Evolves Y s s := ⟨fun _ h => h, fun _ _ hn => .inl ⟨hn, rfl⟩⟩

theorem Evolves.trans {u : ServerState ι} (E : Evolves Y s t) (F : Evolves Y t u) : Evolves Y s u where
  history := fun _ h => F.history (E.history h)
  blob := by
    intro d n hn
    rcases E.blob d n hn with ⟨hf, hi⟩ | hr
    · exact (F.blob d n hf).imp_left fun ⟨hf', hi'⟩ => ⟨hf', hi'.trans hi⟩
    · exact .inr (hr.mono F.history)

/-- What a call of `i` does to the others and to the blobs. -/
def Moved (Y : CrashSystem ι) (i : ι) (s t : ServerState ι) : Prop :=
  (∀ j, j ≠ i → Frame Y j s t) ∧ Evolves Y s t

section Moved
variable {op : ServerOp} {x : op.Answer} (hh : t.history = ⟨i, op, x⟩ :: s.history)
  (hdirs : ∀ p, (s.state.disk.dir p).isSome = true → (t.state.disk.dir p).isSome = true)
  (hheld : ∀ j, j ≠ i → Separate Y.app.storage t.history → ∀ n e, lastOn n s.history = some e → e.task = j →
    (opensIndex Y.app.storage e).isSome = true → lastOn n t.history = some e) {now : Time}
include hh hdirs hheld

/-- A call that leaves the files. -/
theorem moved_same (hd : s.state.disk.SameFiles t.state.disk) : Moved Y i s t := by
  refine ⟨fun j hj => ⟨⟨[_], hh, by simpa using Ne.symm hj, ?_⟩, ?_, ?_, hdirs, hheld j hj⟩, ⟨?_, ?_⟩⟩
  · intro q n _ hn
    rw [hd.file] at hn
    exact .inl ⟨hn, by rw [hd.inode]⟩
  · intro u _
    exact ⟨by rw [hd.file], fun n _ => by rw [hd.inode]⟩
  · intro n hn
    rw [hd.next, hd.inode]
    exact ⟨hn, rfl⟩
  · rw [hh]
    exact List.subset_cons_self ..
  · intro d n hn
    rw [hd.file, hd.inode]
    exact .inl ⟨hn, rfl⟩

theorem moved_fresh (N : Y.Names s.state.disk s.history) (hd : t.state.disk = s.state.disk.fresh p now)
    (hb : ∀ d, p ≠ Y.blob d) (ho : ∀ j u, j ≠ i → Issued j u s.history → p ≠ Y.temp u)
    (ht : touched (⟨i, op, x⟩ : ServerEvent ι) = some s.state.disk.next) : Moved Y i s t := by
  have inode : ∀ n, n ≠ s.state.disk.next → t.state.disk.inode n = s.state.disk.inode n := by
    intro n hn
    rw [hd, Disk.fresh_inode, Function.update_of_ne hn]
  have file : ∀ q, q ≠ p → t.state.disk.file q = s.state.disk.file q := by
    intro q hq
    rw [hd, Disk.fresh_file, Function.update_of_ne hq]
  refine ⟨fun j hj => ⟨⟨[_], hh, by simpa using Ne.symm hj, ?_⟩, ?_, ?_, hdirs, hheld j hj⟩, ⟨?_, ?_⟩⟩
  · intro q n hq hn
    by_cases hqp : q = p
    · subst hqp
      rw [hd, Disk.fresh_file, Function.update_self] at hn
      obtain rfl := Option.some.inj hn
      exact .inr ⟨_, List.mem_singleton_self _, ht⟩
    · rw [file q hqp] at hn
      exact .inl ⟨hn, by rw [inode n (N.next q n hn).ne]⟩
  · intro u hu
    rw [file _ (Ne.symm (ho j u hj hu))]
    exact ⟨rfl, fun n hn => inode n (N.next _ n hn).ne⟩
  · intro n hn
    rw [inode n hn.ne, hd, Disk.fresh_next]
    exact ⟨Nat.lt_succ_of_lt hn, rfl⟩
  · rw [hh]
    exact List.subset_cons_self ..
  · intro d n hn
    rw [file _ (Ne.symm (hb d)), inode n (N.next _ n hn).ne]
    exact .inl ⟨hn, rfl⟩

theorem moved_put {c : Bytes}
    (hd : t.state.disk = s.state.disk.store n {s.state.disk.inode n with content := c, modified := now})
    (hb : ∀ d m, s.state.disk.file (Y.blob d) = some m → m ≠ n)
    (ho : ∀ j u m, j ≠ i → Issued j u s.history → s.state.disk.file (Y.temp u) = some m → m ≠ n)
    (ht : touched (⟨i, op, x⟩ : ServerEvent ι) = some n) : Moved Y i s t := by
  have file : t.state.disk.file = s.state.disk.file := by rw [hd, Disk.store_file]
  have inode : ∀ m, m ≠ n → t.state.disk.inode m = s.state.disk.inode m := by
    intro m hm
    rw [hd, Disk.store_inode, Function.update_of_ne hm]
  refine ⟨fun j hj => ⟨⟨[_], hh, by simpa using Ne.symm hj, ?_⟩, ?_, ?_, hdirs, hheld j hj⟩, ⟨?_, ?_⟩⟩
  · intro q m _ hm
    rw [file] at hm
    by_cases hmn : m = n
    · exact .inr ⟨_, List.mem_singleton_self _, hmn ▸ ht⟩
    · exact .inl ⟨hm, by rw [inode m hmn]⟩
  · intro u hu
    exact ⟨by rw [file], fun m hm => inode m (ho j u m hj hu hm)⟩
  · intro m hm
    rw [hd, Disk.store_next, Disk.store_inode]
    refine ⟨hm, ?_⟩
    by_cases hmn : m = n
    · rw [hmn, Function.update_self]
    · rw [Function.update_of_ne hmn]
  · rw [hh]
    exact List.subset_cons_self ..
  · intro d m hm
    rw [file]
    exact .inl ⟨hm, inode m (hb d m hm)⟩

theorem moved_link {d : Sha256} (hd : t.state.disk = (s.state.disk.link (Y.blob d) n).touch (Y.blob d) now)
    (hfree : s.state.disk.file (Y.blob d) = none) : Moved Y i s t := by
  have file : ∀ q, q ≠ Y.blob d → t.state.disk.file q = s.state.disk.file q := by
    intro q hq
    rw [hd, Disk.touch_file, Disk.link_file, Function.update_of_ne hq]
  have inode : t.state.disk.inode = s.state.disk.inode := by rw [hd, Disk.touch_inode, Disk.link_inode]
  refine ⟨fun j hj => ⟨⟨[_], hh, by simpa using Ne.symm hj, ?_⟩, ?_, ?_, hdirs, hheld j hj⟩, ⟨?_, ?_⟩⟩
  · intro q m hq hm
    rw [file q (index_ne_blob hq d)] at hm
    exact .inl ⟨hm, by rw [inode]⟩
  · intro u _
    rw [file _ (Ne.symm (blob_ne_temp d u)), inode]
    exact ⟨rfl, fun _ _ => rfl⟩
  · intro m hm
    rw [inode, hd, Disk.touch_next, Disk.link_next]
    exact ⟨hm, rfl⟩
  · rw [hh]
    exact List.subset_cons_self ..
  · intro d' m hm
    have hne : Y.blob d' ≠ Y.blob d := by
      intro he
      rw [he, hfree] at hm
      exact absurd hm (by simp)
    rw [file _ hne, inode]
    exact .inl ⟨hm, rfl⟩

theorem moved_unlink (hd : t.state.disk = (s.state.disk.unlink p).touch p now)
    (ho : ∀ j u, j ≠ i → Issued j u s.history → p ≠ Y.temp u)
    (hb : ∀ d, p = Y.blob d → Removed Y.app.storage d t.history) : Moved Y i s t := by
  have file : ∀ q, q ≠ p → t.state.disk.file q = s.state.disk.file q := by
    intro q hq
    rw [hd, Disk.touch_file, Disk.unlink_file, Function.update_of_ne hq]
  have inode : t.state.disk.inode = s.state.disk.inode := by rw [hd, Disk.touch_inode, Disk.unlink_inode]
  refine ⟨fun j hj => ⟨⟨[_], hh, by simpa using Ne.symm hj, ?_⟩, ?_, ?_, hdirs, hheld j hj⟩, ⟨?_, ?_⟩⟩
  · intro q m _ hm
    by_cases hqp : q = p
    · rw [hqp, hd, Disk.touch_file, Disk.unlink_file, Function.update_self] at hm
      exact absurd hm (by simp)
    · rw [file q hqp] at hm
      exact .inl ⟨hm, by rw [inode]⟩
  · intro u hu
    rw [file _ (Ne.symm (ho j u hj hu)), inode]
    exact ⟨rfl, fun _ _ => rfl⟩
  · intro m hm
    rw [inode, hd, Disk.touch_next, Disk.unlink_next]
    exact ⟨hm, rfl⟩
  · rw [hh]
    exact List.subset_cons_self ..
  · intro d m hm
    by_cases hdp : Y.blob d = p
    · exact .inr (hb d hdp.symm)
    · rw [file _ hdp, inode]
      exact .inl ⟨hm, rfl⟩

end Moved

/-- A legal call does not touch an index file that another task has open. -/
theorem legal_untouched [DecidableEq ι] {op : ServerOp} {x : op.Answer} (I : Y.Inv s) (hl : Y.Legal i op s)
    (he : execAs Y.env i op s = some (x, t)) (hsep : Separate Y.app.storage (⟨i, op, x⟩ :: s.history))
    {f : ServerEvent ι} (hlast : lastOn n s.history = some f) (hf : f.task ≠ i)
    (ho : (opensIndex Y.app.storage f).isSome = true) : touched (⟨i, op, x⟩ : ServerEvent ι) ≠ some n := by
  intro ht
  obtain ⟨m, hm⟩ := Option.isSome_iff_exists.mp ho
  obtain ⟨hmem, hft⟩ := touched_of_lastOn hlast
  obtain rfl : m = n := Option.some.inj ((touched_of_opensIndex hm).symm.trans hft)
  cases op with
  | file op =>
    cases op with
    | create p =>
      rcases hl.2 with ⟨u, rfl, -, hnone, -⟩ | ⟨hspot, -⟩
      · -- a new file has a number of its own
        obtain ⟨hans, -⟩ := World.exec_file.mp (record_eq_some.mp he).1
        rw [FileOp.exec, Disk.create_none hnone] at hans
        subst hans
        exact absurd (Option.some.inj ht) (I.stored.numbered f hmem m hft).ne'
      · cases x with
        | error _ => cases ht
        | ok hd =>
          have hopens : opensIndex Y.app.storage
              (⟨i, .file (.create p), (.ok hd : Except IoError Handle)⟩ : ServerEvent ι) = some m := by
            rw [opensIndex, if_pos hspot.below]
            exact ht
          have hwrites := hsep.1 m hopens f hlast
          rw [writes_of_opensIndex hm] at hwrites
          cases hwrites
    | write hd bytes =>
      obtain rfl := Option.some.inj ht
      rcases hl.2 with ⟨u, -, hu, -⟩ | hc
      · exact I.names.temp_ne_index hu (I.stored.origin f hmem _ hm) rfl
      · obtain ⟨e, he, hei, -⟩ := hc.last hsep.2
        obtain rfl := Option.some.inj (hlast.symm.trans he)
        exact hf hei
    | _ => cases ht
  | _ => cases ht

/-- **A legal call keeps to itself.** -/
theorem legal_moved [DecidableEq ι] {op : ServerOp} {x : op.Answer} (I : Y.Inv s) (hl : Y.Legal i op s)
    (he : execAs Y.env i op s = some (x, t)) : Moved Y i s t := by
  obtain ⟨hx, hh⟩ := record_eq_some.mp he
  have hop := hl.2
  have N := I.names
  have hheld : ∀ j, j ≠ i → Separate Y.app.storage t.history → ∀ n e, lastOn n s.history = some e → e.task = j →
      (opensIndex Y.app.storage e).isSome = true → lastOn n t.history = some e := by
    rintro j hj hsep n e hlast rfl ho
    rw [hh] at hsep ⊢
    exact (lastOn_cons_of_ne (legal_untouched I hl he hsep hlast hj ho)).trans hlast
  -- the identifiers of others name other files
  have others : ∀ {j : ι} {u v : Uuid}, j ≠ i → Issued j u s.history → Issued i v s.history → u ≠ v := by
    rintro j u v hj hu hv rfl
    exact hj (I.ledger.owner j i u hu hv)
  cases op with
  | file op =>
    obtain ⟨hans, hw⟩ := World.exec_file.mp hx
    have hd : t.state.disk = (op.exec (Y.env.clock s.history.length) (Y.env.order s.history.length)
        s.state.disk).2 := by rw [hw]
    have hdirs : ∀ p, (s.state.disk.dir p).isSome = true → (t.state.disk.dir p).isSome = true := by
      intro p hp
      rw [hd]
      refine FileOp.exec_dir ?_ ?_ _ _ hp
      · rintro q rfl
        exact hop
      · rintro q r rfl
        exact hop
    have quiet : op.quiet = true → Moved Y i s t := fun hq => by
      refine moved_same hh hdirs hheld ?_
      rw [hd]
      exact FileOp.exec_quiet hq ..
    cases op with
    | create p =>
      cases hf : s.state.disk.file p with
      | none =>
        rw [FileOp.exec, Disk.create_none hf] at hd hans
        subst hans
        refine moved_fresh hh hdirs hheld N hd ?_ ?_ rfl
        · rintro d rfl
          rcases hop with ⟨u, hu, -⟩ | ⟨hspot, -⟩
          · exact blob_ne_temp d u hu
          · exact index_ne_blob hspot.below d rfl
        · rintro j u hj hu rfl
          rcases hop with ⟨v, hv, hiv, -⟩ | ⟨hspot, -⟩
          · exact others hj hu hiv (temp_injective hv)
          · exact index_ne_temp hspot.below u rfl
      | some n =>
        have hi : Y.app.storage.bySource <+: p := by
          rcases hop with ⟨u, -, -, hnone, -⟩ | ⟨hspot, -⟩
          · rw [hf] at hnone
            exact absurd hnone (by simp)
          · exact hspot.below
        rw [FileOp.exec, Disk.create_some hf] at hd hans
        subst hans
        exact moved_put hh hdirs hheld hd
          (fun d m hm => N.blob_ne_index (Y.app.storage.byHash_blobPath d) hm (N.index_origin hi hf))
          (fun j u m _ _ hm => N.temp_ne_index hm (N.index_origin hi hf)) rfl
    | write hd' bytes =>
      refine moved_put hh hdirs hheld hd ?_ ?_ rfl
      · intro d m hm
        rcases hop with ⟨u, -, hu, ho⟩ | hc
        · exact N.blob_ne_open (Y.app.storage.byHash_blobPath d) hm hu ho
        · exact N.blob_ne_index (Y.app.storage.byHash_blobPath d) hm hc.origin
      · intro j u m hj hu hm
        rcases hop with ⟨v, hiv, hv, -⟩ | hc
        · exact N.temp_ne_temp hm hv (others hj hu hiv)
        · exact N.temp_ne_index hm hc.origin
    | hardLink src dst =>
      obtain ⟨u, d, n, rfl, rfl, -, -, -, hn, -, -⟩ := hop
      cases hocc : s.state.disk.occupied (Y.blob d) with
      | false =>
        rw [FileOp.exec, Disk.hardLink_ok hn hocc] at hd
        refine moved_link hh hdirs hheld hd ?_
        rw [occupied_iff N] at hocc
        simpa using hocc
      | true =>
        rw [FileOp.exec, Disk.hardLink_taken hn hocc] at hd
        exact moved_same hh hdirs hheld (by rw [hd]; exact ⟨rfl, rfl, rfl⟩)
    | removeFile p =>
      cases hf : s.state.disk.file p with
      | none =>
        rw [FileOp.exec, Disk.removeFile_none hf] at hd
        exact moved_same hh hdirs hheld (by rw [hd]; exact ⟨rfl, rfl, rfl⟩)
      | some n =>
        rw [FileOp.exec, Disk.removeFile_some hf] at hd hans
        subst hans
        refine moved_unlink hh hdirs hheld hd ?_ ?_
        · rintro j u hj hu rfl
          rcases hop with ⟨v, hv, hiv⟩ | hi | hlog | ⟨d, hd', -⟩
          · exact others hj hu hiv (temp_injective hv)
          · exact index_ne_temp hi u rfl
          · exact Y.app.storage.logsDir_not_tempPath u hlog
          · exact blob_ne_temp d u hd'.symm
        · rintro d rfl
          rw [hh]
          exact ⟨i, List.mem_cons_self ..⟩
    | openAppend _ | removeDirAll _ | renameDir _ _ => exact absurd hop id
    | _ => exact quiet rfl
  | _ =>
    have hd := World.exec_disk (by simp) hx
    have hdirs : ∀ p, (s.state.disk.dir p).isSome = true → (t.state.disk.dir p).isSome = true := by
      rw [hd]
      exact fun _ hp => hp
    exact moved_same hh hdirs hheld (by rw [hd]; exact ⟨rfl, rfl, rfl⟩)

end CrashSystem

end Detritus.Server
