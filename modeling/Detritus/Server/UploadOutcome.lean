import Detritus.Protocol.Envelope
import Detritus.Server.Uploads

/-! What an upload has stored when it answers.

`Points` relates a part's bytes to the pointer that stands for them in the index;
`Accepted` is the whole of it for an upload that was answered 201. Both are about the
history only, which grows: what an upload has done stays done. -/
namespace Detritus.Server
open Files Protocol Process Contract

namespace CrashSystem
variable {ι : Type} {Y : CrashSystem ι} {i : ι} {s t : ServerState ι} {h h' : List (ServerEvent ι)}
  {index : CrashIndex} {headers : Headers} {fields : List Field} {body : Body} {fs : List Field} {bytes : Bytes}
  {f : Field}

variable (Y) in
/-- The pointer stands for these bytes, and the task has taken their blob. -/
structure Points (i : ι) (bytes : Bytes) (p : BlobPointer) (h : List (ServerEvent ι)) : Prop where
  sha256 : p.sha256 = (Y.crates.sha256 bytes).hex
  len : p.len = bytes.length
  path : Y.app.storage.dataDir.join p.path = Y.blob (Y.crates.sha256 bytes)
  took : Took Y.app.storage i (Y.crates.sha256 bytes) h

variable (Y) in
/-- The pointer of an attachment stands for this part. -/
def Attached (i : ι) (h : List (ServerEvent ι)) (f : Field) (a : AttachmentPointer) : Prop :=
  ∃ key p, a = attachmentPointer key f p ∧ Y.Points i f.bytes p h

variable (Y) in
/-- What the parts `fs` make of the dump: it was given among them, or was and stays. -/
def DumpOf (i : ι) (fs : List Field) (before after : Option BlobPointer) (h : List (ServerEvent ι)) : Prop :=
  (after = before ∧ fs.filter Field.isDump = []) ∨
    (before = none ∧ ∃ f p, fs.filter Field.isDump = [f] ∧ after = some p ∧ Y.Points i f.bytes p h)

variable (Y) in
/-- An upload's index, as it was written. -/
structure Indexed (i : ι) (metadata : CrashMetadata) (fields : List Field) (index : CrashIndex)
    (h : List (ServerEvent ι)) : Prop where
  metadata : index.metadata = metadata
  dump : ∃ f, fields.filter Field.isDump = [f] ∧ Y.Points i f.bytes index.dump h
  attachments : List.Forall₂ (Y.Attached i h) (fields.filter Field.isAttachment) index.attachments
  wrote : Wrote i (Y.encode index) h

variable (Y) in
/-- An upload has been stored and its index written. -/
def Accepted (i : ι) (headers : Headers) (body : Body) (r : Nat × CrashResponse) (h : List (ServerEvent ι)) :
    Prop :=
  ∃ multipart metadata fields index, openMultipart Y.crates headers body = .ok multipart ∧
    readFirst Y.crates multipart = .ok (metadata, fields) ∧ Y.Indexed i metadata fields index h ∧
    r = (201, ⟨index.dump.sha256, index.dump.dedup⟩)

theorem Points.mono {p : BlobPointer} (hs : h ⊆ h') (P : Y.Points i bytes p h) :
    Y.Points i bytes p h' := ⟨P.sha256, P.len, P.path, P.took.mono hs⟩

theorem Attached.mono {a : AttachmentPointer} (hs : h ⊆ h') (A : Y.Attached i h f a) : Y.Attached i h' f a := by
  obtain ⟨key, p, ha, hp⟩ := A
  exact ⟨key, p, ha, hp.mono hs⟩

theorem DumpOf.mono {before after : Option BlobPointer} (hs : h ⊆ h') (D : Y.DumpOf i fs before after h) :
    Y.DumpOf i fs before after h' :=
  D.imp id fun ⟨hb, f, p, hf, ha, hp⟩ => ⟨hb, f, p, hf, ha, hp.mono hs⟩

theorem Indexed.mono {metadata : CrashMetadata} (hs : h ⊆ h') (X : Y.Indexed i metadata fields index h) :
    Y.Indexed i metadata fields index h' where
  metadata := X.metadata
  dump := X.dump.imp fun _ hf => ⟨hf.1, hf.2.mono hs⟩
  attachments := X.attachments.imp fun _ _ ha => ha.mono hs
  wrote := X.wrote.mono hs

theorem Accepted.mono {r : Nat × CrashResponse} (hs : h ⊆ h') (A : Y.Accepted i headers body r h) :
    Y.Accepted i headers body r h' := by
  obtain ⟨multipart, metadata, fields, index, hm, hf, hi, hr⟩ := A
  exact ⟨multipart, metadata, fields, index, hm, hf, hi.mono hs, hr⟩

theorem attached_taken {as : List AttachmentPointer} (hA : List.Forall₂ (Y.Attached i h) fs as) :
    ∀ a ∈ as, ∃ d, a.sha256 = d.hex ∧ Took Y.app.storage i d h := by
  induction hA with
  | nil => simp
  | cons ha _ ih =>
    intro b hb
    rcases List.mem_cons.mp hb with rfl | hb
    · obtain ⟨key, p, rfl, hp⟩ := ha
      exact ⟨_, hp.sha256, hp.took⟩
    · exact ih b hb

/-- An index whose pointers stand for parts points to digests that were taken. -/
theorem hashes_taken (hp : Y.Points i bytes index.dump h) (hA : List.Forall₂ (Y.Attached i h) fs index.attachments) :
    Y.Taken i index h := by
  intro sha hsha
  rcases List.mem_cons.mp hsha with rfl | hsha
  · exact ⟨_, hp.sha256, hp.took⟩
  · obtain ⟨a, ha, rfl⟩ := List.mem_map.mp hsha
    exact attached_taken hA a ha

/-! ### The programs -/

section Contract
variable [DecidableEq ι] {M : List (ServerEvent ι) → Prop}

/-- What only grows with the history is stable. -/
theorem idle_and_stable (hM : ∀ h h', h ⊆ h' → M h → M h') :
    (Y.contract i).Stable fun w => Y.Idle i w ∧ M w.history :=
  stable_of (fun _ h => h.1.inv) fun _ _ ht F h => ⟨h.1.framed ht F, hM _ _ F.apart.subset h.2⟩

/-- What only grows with the history is kept by a program. -/
theorem yields_history {α ε : Type} {Q : α → ServerState ι → Prop} {E : ε → ServerState ι → Prop} {p : Handler ε α}
    (hM : ∀ h h', h ⊆ h' → M h → M h') (hp : (Y.contract i).Yields Q E p s) (hI : Y.Inv s) (hs : M s.history) :
    (Y.contract i).Yields (fun a t => Q a t ∧ M t.history) E p s := by
  refine (Yields.frame (B := fun w => Y.Inv w ∧ M w.history) ?_ ?_ hp ⟨hI, hs⟩).mono
    (fun _ _ h => ⟨h.1, h.2.2⟩) fun _ _ h => h.1
  · exact stable_of (fun _ h => h.1) fun _ _ ht F h => ⟨ht, hM _ _ F.apart.subset h.2⟩
  · intro s t hg hB
    obtain ⟨ht, hm⟩ := hg hB.1
    exact ⟨ht, hM _ _ hm.2.history hB.2⟩

theorem writePartToBlob_yields (hp : Y.Part f.bytes) (hs : Y.Idle i s) :
    (Y.contract i).Yields (fun p t => Y.Idle i t ∧ Y.Points i f.bytes p t.history) (fun _ => Y.Idle i)
      (writePartToBlob Y.crates Y.app f) s := by
  unfold writePartToBlob
  refine yields_try sound (fun _ => idle_stable) idle_stable (fun _ h => h.inv) hs ?_ ?_
  · refine fun t I _ => ⟨I.unanswered, fun d hpre => ?_, fun hsrc =>
      absurd (List.prefix_refl _) (Y.app.storage.tmpDir_not_bySource hsrc)⟩
    have hlen := hpre.length_le
    rw [blob, Y.app.storage.blobPath_eq, Y.app.storage.tmpDir_eq] at hlen
    simp at hlen
  rintro t x v I _ hv _ hx
  obtain ⟨rfl, -, hh⟩ := exec_file_iff hx
  refine .inl ⟨(), rfl, ?_⟩
  refine yields_call sound (fun _ => idle_stable) idle_stable (fun _ h => h.inv) (I.own hh hv rfl)
    (fun t I _ => ⟨I.unanswered, trivial⟩) fun t u v I _ hv _ hx => ?_
  refine yields_try sound (fun _ => idle_stable) (ready_stable u) (fun _ h => h.inv) (.of_newUuid I hv hx)
    (fun t R _ => ⟨R.unanswered, .inl ⟨u, rfl, R.issued, R.absent, R.unlinked, R.unfinalized⟩⟩) ?_
  rintro t x v R _ hv _ hx
  obtain ⟨hd, rfl, W⟩ := Writing.of_create R hv hx
  refine .inl ⟨hd, rfl, ?_⟩
  refine Yields.andThen (fun _ => idle_stable) (writeChunks_yields f.chunks W) ?_
  rintro ⟨hd, bytes⟩ z ⟨W, hbytes, -⟩
  obtain rfl : bytes = f.bytes := hbytes
  refine yields_try sound (fun _ => idle_stable) (writing_stable u hd f.bytes) (fun _ h => h.inv) W
    (fun t W _ => ⟨W.unanswered, trivial⟩) ?_
  rintro t x v W _ hv _ hx
  obtain ⟨rfl, -, hh⟩ := exec_file_iff hx
  refine .inl ⟨(), rfl, ?_⟩
  have W := W.own hh hv (exec_quiet rfl hx) rfl (by simp [Finalized]) (by simp [Linked])
  refine Yields.andThen (fun _ => idle_stable) (finalizeBlob_yields hp W) ?_
  rintro ⟨path, dedup⟩ z ⟨⟨I, htook⟩, hpath⟩
  exact Yields.pure (idle_and_stable fun _ _ hs P => P.mono hs) ⟨I, rfl, rfl, hpath, htook⟩

/-- The parts after the metadata: the dump is stored at most once, and the attachments
in their order. -/
theorem readParts_yields {failure : Option MultipartError} (fs : List Field) {dump : Option BlobPointer}
    {as : List AttachmentPointer} (hp : ∀ f ∈ fs, Y.Part f.bytes) (hs : Y.Idle i s) :
    (Y.contract i).Yields (fun r t => Y.Idle i t ∧ Y.DumpOf i fs dump r.1 t.history ∧
        ∃ new, r.2 = as ++ new ∧ List.Forall₂ (Y.Attached i t.history) (fs.filter Field.isAttachment) new)
      (fun _ => Y.Idle i) (readParts Y.crates Y.app failure fs dump as) s := by
  induction fs generalizing dump as s with
  | nil =>
    unfold readParts
    cases failure with
    | some error => exact Yields.throw idle_stable hs
    | none =>
      refine Yields.pure ?_ ⟨hs, .inl ⟨rfl, rfl⟩, [], by simp, by simp⟩
      exact idle_and_stable (M := fun h => Y.DumpOf i [] dump dump h ∧ ∃ new, as = as ++ new ∧
        List.Forall₂ (Y.Attached i h) (List.filter Field.isAttachment []) new)
        fun _ _ hs h => ⟨h.1.mono hs, h.2.imp fun _ hn => ⟨hn.1, hn.2.imp fun _ _ ha => ha.mono hs⟩⟩
  | cons f rest ih =>
    have hf : Y.Part f.bytes := hp f (.head _)
    have hrest : ∀ g ∈ rest, Y.Part g.bytes := fun g hg => hp g (.tail _ hg)
    rw [readParts_cons]
    split
    · exact Yields.throw idle_stable hs
    · next hstored =>
      have hstored := refusal_eq_none_iff.mp hstored
      refine Yields.andThen (fun _ => idle_stable) (writePartToBlob_yields hf hs) ?_
      rintro p z ⟨I, P⟩
      refine (yields_history (fun _ _ hs P => Points.mono hs P) (ih hrest I) I.inv P).imp ?_
      rintro r y ⟨⟨I, D, new, hnew, hA⟩, P⟩
      unfold placePart at D hnew
      by_cases hdump : f.isDump = true
      · rw [if_pos hdump] at D hnew
        have hnot := Field.isAttachment_of_isDump hdump
        refine ⟨I, ?_, new, hnew, by rwa [List.filter_cons_of_neg (by simp [hnot])]⟩
        rcases D with ⟨ha, hr⟩ | ⟨hb, -⟩
        · have hnone : dump = none := by simpa using hstored.first hdump
          exact .inr ⟨hnone, f, p, by rw [List.filter_cons_of_pos hdump, hr], ha, P⟩
        · cases hb
      · rw [if_neg hdump] at D hnew
        refine ⟨I, ?_, _ :: new, by rw [hnew, List.append_assoc]; rfl, ?_⟩
        · rw [DumpOf, List.filter_cons_of_neg hdump]
          exact D
        · rw [List.filter_cons_of_pos (hstored.attachment hdump)]
          exact .cons ⟨_, p, rfl, P⟩ hA

omit [DecidableEq ι] in
theorem Drafting.framed {hd : Handle} (F : Frame Y i s t) (D : Y.Drafting i hd s) : Y.Drafting i hd t where
  known := (F.known _ D.known).1
  origin := by
    rw [(F.known _ D.known).2]
    exact D.origin
  start := D.start
  opened := D.opened.mono F.apart.subset
  only e he hi := by
    obtain ⟨new, hh, hnew⟩ := F.apart
    rw [hh] at he
    exact D.only e ((List.mem_append.mp he).resolve_left fun hm => hnew e hm hi) hi
  last hsep := by
    obtain ⟨new, hh, -⟩ := F.apart
    have hold : Separate Y.app.storage s.history := by
      rw [hh] at hsep
      exact hsep.of_append
    obtain ⟨e, he, hi, ho⟩ := D.last hold
    exact ⟨e, F.held hsep _ e he hi ho, hi, ho⟩

variable (Y) in
/-- Has an index file open for its bytes. -/
structure Draft (i : ι) (hd : Handle) (index : CrashIndex) (w : ServerState ι) : Prop extends Y.Drafting i hd w where
  inv : Y.Inv w
  unanswered : ¬ Answered i w.history
  taken : Y.Taken i index w.history

theorem draft_stable (hd : Handle) (index : CrashIndex) : (Y.contract i).Stable (Y.Draft i hd index) :=
  stable_of (fun _ h => h.inv) fun _ _ ht F D => ⟨D.toDrafting.framed F, ht,
    fun ha => D.unanswered ((Answered.apart F.apart).mp ha), D.taken.mono F.apart.subset⟩

omit [DecidableEq ι] in
/-- An index file that was opened is new or emptied, and is written from its start. -/
theorem Draft.of_create {q : Path} {x : FileOp.Answer (.create q)} (I : Y.Idle i s) (ht : Y.Inv t)
    (htaken : Y.Taken i index s.history) (hq : Y.app.storage.bySource <+: q)
    (he : execAs Y.env i (.file (.create q)) s = some (x, t)) : ∃ hd : Handle, x = .ok hd ∧ Y.Draft i hd index t := by
  obtain ⟨hans, hdisk, hh⟩ := exec_file_iff he
  obtain ⟨hd, rfl, hoff, hmode, hknown, horigin⟩ : ∃ hd : Handle, x = .ok hd ∧ hd.offset = 0 ∧ hd.append = false ∧
      hd.inode < t.state.disk.next ∧ Y.app.storage.bySource <+: (t.state.disk.inode hd.inode).origin := by
    cases hf : s.state.disk.file q with
    | none =>
      rw [FileOp.exec, Disk.create_none hf] at hans hdisk
      refine ⟨⟨s.state.disk.next, 0, false⟩, hans, rfl, rfl, ?_, ?_⟩
      · rw [hdisk, Disk.fresh_next]
        exact Nat.lt_succ_self _
      · rw [hdisk, Disk.fresh_inode, Function.update_self]
        exact hq
    | some n =>
      rw [FileOp.exec, Disk.create_some hf] at hans hdisk
      refine ⟨⟨n, 0, false⟩, hans, rfl, rfl, ?_, ?_⟩
      · rw [hdisk, Disk.store_next]
        exact I.inv.names.next _ n hf
      · rw [hdisk, Disk.store_inode, Function.update_self]
        exact I.inv.names.index_origin hq hf
  have hopens : opensIndex Y.app.storage (⟨i, .file (.create q), (.ok hd : Except IoError Handle)⟩ : ServerEvent ι) =
      some hd.inode := by rw [opensIndex, if_pos hq]
  refine ⟨hd, rfl, ⟨hknown, horigin, ⟨hoff, hmode⟩, ?_, ?_, fun _ => ?_⟩, ht, ?_, ?_⟩
  all_goals rw [hh]
  · exact ⟨_, List.mem_cons_self .., rfl, by rw [hopens]; rfl⟩
  · intro e he hi n hn
    rcases List.mem_cons.mp he with rfl | he
    · exact Option.some.inj (hn.symm.trans hopens)
    · exact absurd ⟨e, he, hi, by rw [hn]; rfl⟩ I.unopened
  · exact ⟨_, lastOn_cons_self (touched_of_opensIndex hopens), rfl, by rw [hopens]; rfl⟩
  · rw [answered_iff]
    rintro ⟨f, hf, hfa, hft⟩
    rcases List.mem_cons.mp hf with rfl | hf
    · cases hfa
    · exact I.unanswered (answered_iff.mpr ⟨f, hf, hfa, hft⟩)
  · exact htaken.mono (List.subset_cons_self ..)

variable (Y) in
/-- Has written its index and has not answered. -/
structure Filed (i : ι) (w : ServerState ι) : Prop where
  inv : Y.Inv w
  unanswered : ¬ Answered i w.history
  closed : Closed Y.app.storage i w.history

omit [DecidableEq ι] in
/-- An index is written. -/
theorem Filed.of_write {hd : Handle} {x : FileOp.Answer (.write hd bytes)} (D : Y.Draft i hd index s) (ht : Y.Inv t)
    (he : execAs Y.env i (.file (.write hd bytes)) s = some (x, t)) : Y.Filed i t := by
  obtain ⟨-, -, hh⟩ := exec_file_iff he
  refine ⟨ht, ?_, ?_⟩
  all_goals rw [hh]
  · rw [answered_iff]
    rintro ⟨f, hf, hfa, hft⟩
    rcases List.mem_cons.mp hf with rfl | hf
    · cases hfa
    · exact D.unanswered (answered_iff.mpr ⟨f, hf, hfa, hft⟩)
  · intro n f hf hi
    by_cases hn : hd.inode = n
    · rw [lastOn_cons_self (by rw [← hn]; rfl)] at hf
      rw [← Option.some.inj hf]
      rfl
    · rw [lastOn_cons_of_ne (by simpa [touched] using hn)] at hf
      cases ho : opensIndex Y.app.storage f with
      | none => rfl
      | some m =>
        obtain ⟨hmem, htouch⟩ := touched_of_lastOn hf
        have hm := Option.some.inj ((touched_of_opensIndex ho).symm.trans htouch)
        exact absurd ((D.only f hmem hi m ho).symm.trans hm) hn

/-- What only grows with the history is stable. -/
theorem filed_and_stable (hM : ∀ h h', h ⊆ h' → M h → M h') :
    (Y.contract i).Stable fun w => Y.Filed i w ∧ M w.history :=
  stable_of (fun _ h => h.1.inv) fun _ _ ht F h => ⟨⟨ht, fun ha => h.1.unanswered ((Answered.apart F.apart).mp ha),
    h.1.closed.apart F.apart⟩, hM _ _ F.apart.subset h.2⟩

/-- The directories on a way stay. -/
theorem idle_dirs_stable (index : CrashIndex) (way : Path) : (Y.contract i).Stable fun w => Y.Idle i w ∧
    Y.Taken i index w.history ∧ ∀ p, p <+: way → (w.state.disk.dir p).isSome = true :=
  stable_of (fun _ h => h.1.inv) fun _ _ ht F h =>
    ⟨h.1.framed ht F, h.2.1.mono F.apart.subset, fun p hp => F.dirs p (h.2.2 p hp)⟩

theorem writeIndex_yields {source : SourceKey} (hv : source.Valid) (hd : ∃ d, index.dump.sha256 = Sha256.hex d)
    (hjob : ∃ token headers body, Y.jobs i = .upload token headers body) (hs : Y.Idle i s)
    (htook : Y.Taken i index s.history) :
    (Y.contract i).Yields (fun _ t => Y.Filed i t ∧ Wrote i (Y.encode index) t.history) (fun _ => Y.Idle i)
      (writeIndex Y.crates Y.app source index.metadata index.dump index.attachments) s := by
  obtain ⟨d, hd⟩ := hd
  have hsrc := Y.app.storage.bySource_indexPath hv index.metadata.timestamp d
  have hlen := Y.app.storage.indexPath_length hv index.metadata.timestamp d
  have hext := hasExtension_indexPath Y.app.storage hv index.metadata.timestamp d
  unfold writeIndex
  rw [hd]
  generalize Y.app.storage.indexPath source index.metadata.timestamp.format d.hex = q at hsrc hlen hext
  -- the directory of the source
  refine yields_try sound (fun _ => idle_stable) (idle_and_stable fun _ _ hs h => Taken.mono hs h) (fun _ h => h.1.inv)
    ⟨hs, htook⟩ ?_ ?_
  · refine fun t I _ => ⟨I.1.unanswered, fun d' hpre => ?_, fun _ => ?_⟩
    · exact Y.app.storage.regions_apart.1
        ⟨hsrc, (Y.app.storage.byHash_blobPath d').trans (hpre.trans (List.dropLast_prefix q))⟩
    · rw [Path.parent, List.length_dropLast, hlen, indexDepth]
      omega
  rintro t x v ⟨I, htaken⟩ _ hI _ hx
  obtain ⟨rfl, hdisk, hh⟩ := exec_file_iff hx
  refine .inl ⟨(), rfl, ?_⟩
  have hdirs : ∀ p, p <+: q.parent → (v.state.disk.dir p).isSome = true := by
    intro p hp
    rw [hdisk, FileOp.exec, Disk.createDirAll_dir]
    exact .inl hp
  -- the file, new or emptied
  refine yields_try sound (fun _ => idle_stable) (idle_dirs_stable index q.parent) (fun _ h => h.1.inv)
    ⟨I.own hh hI rfl, htaken.mono (by rw [hh]; exact List.subset_cons_self ..), hdirs⟩ ?_ ?_
  · intro t I _
    refine ⟨I.1.unanswered, .inr ⟨⟨hsrc, hext, hlen, fun p _ hpq hne => I.2.2 p ?_⟩, hjob⟩⟩
    have hlt := lt_of_le_of_ne hpq.length_le fun he => hne (hpq.eq_of_length he)
    refine List.prefix_of_prefix_length_le hpq (List.dropLast_prefix q) ?_
    rw [Path.parent, List.length_dropLast]
    omega
  rintro t x v ⟨I, htaken, -⟩ _ hI _ hx
  obtain ⟨hd', rfl, D⟩ := Draft.of_create I hI htaken hsrc hx
  refine .inl ⟨hd', rfl, ?_⟩
  -- its bytes
  refine yields_try sound (fun _ => idle_stable) (draft_stable hd' index) (fun _ h => h.inv) D ?_ ?_
  · exact fun t D _ => ⟨D.unanswered, .inr ⟨D.toDrafting, index, rfl, D.taken⟩⟩
  rintro t x v D _ hI _ hx
  obtain ⟨hans, -, hh⟩ := exec_file_iff hx
  refine .inl ⟨_, hans, Yields.pure (filed_and_stable fun _ _ hs h => Wrote.mono hs h)
    ⟨.of_write D hI hx, ?_⟩⟩
  rw [hh]
  exact ⟨hd', x, List.mem_cons_self ..⟩

variable (Y) in
/-- The answer of an upload with its index. -/
def Posted (i : ι) (metadata : CrashMetadata) (fields : List Field) (r : Nat × CrashResponse)
    (h : List (ServerEvent ι)) : Prop :=
  ∃ index, Y.Indexed i metadata fields index h ∧ r = (201, ⟨index.dump.sha256, index.dump.dedup⟩)

omit [DecidableEq ι] in
theorem Posted.mono {metadata : CrashMetadata} {r : Nat × CrashResponse} (hs : h ⊆ h') :
    Y.Posted i metadata fields r h → Y.Posted i metadata fields r h' :=
  Exists.imp fun _ hx => ⟨hx.1.mono hs, hx.2⟩

omit [DecidableEq ι] in
/-- A metric other than that of a request. -/
theorem Idle.observed {metric : Metric} {x : Unit} (I : Y.Idle i s) (ht : Y.Inv t)
    (hne : ∀ status, metric ≠ .request .crashes status)
    (hx : execAs Y.env i (.observe metric) s = some (x, t)) : Y.Idle i t := by
  obtain ⟨-, hh⟩ := record_eq_some.mp hx
  refine I.own hh ht ?_
  rw [tells, opensIndex_eq_none rfl, Option.isSome_none, Bool.or_false]
  unfold answers
  split
  · next heq =>
    obtain ⟨-, hop, -⟩ := Event.mk.inj heq
    simp only [ServerOp.observe.injEq] at hop
    exact absurd hop (hne _)
  · rfl

theorem storeIndex_yields (index : CrashIndex) {source : SourceKey} (hv : source.Valid)
    (hdump : fields.filter Field.isDump = [f]) (hjob : ∃ token headers body, Y.jobs i = .upload token headers body)
    (hs : Y.Idle i s) (hP : Y.Points i f.bytes index.dump s.history)
    (hA : List.Forall₂ (Y.Attached i s.history) (fields.filter Field.isAttachment) index.attachments) :
    (Y.contract i).Yields (fun r t => Y.Filed i t ∧ Y.Posted i index.metadata fields r t.history)
      (fun _ => Y.Idle i) (storeIndex Y.crates Y.app source index.metadata index.dump index.attachments) s := by
  have hM : ∀ h h' : List (ServerEvent ι), h ⊆ h' → (Y.Points i f.bytes index.dump h ∧
      List.Forall₂ (Y.Attached i h) (fields.filter Field.isAttachment) index.attachments) →
      Y.Points i f.bytes index.dump h' ∧
        List.Forall₂ (Y.Attached i h') (fields.filter Field.isAttachment) index.attachments :=
    fun h h' hs hm => ⟨hm.1.mono hs, hm.2.imp fun _ _ ha => ha.mono hs⟩
  unfold storeIndex
  refine yields_call sound (fun _ => idle_stable) (idle_and_stable hM) (fun _ h => h.1.inv) ⟨hs, hP, hA⟩
    (fun t h _ => ⟨h.1.unanswered, trivial⟩) fun t x v h _ hI _ hx => ?_
  have I := h.1.observed hI (by simp) hx
  have hm := hM _ v.history (by rw [(record_eq_some.mp hx).2]; exact List.subset_cons_self ..) h.2
  -- the second metric is left out for a new blob
  refine Yields.bind (fun _ => idle_stable) (Yields.mono (Q := fun _ w =>
    Y.Idle i w ∧ Y.Points i f.bytes index.dump w.history ∧
      List.Forall₂ (Y.Attached i w.history) (fields.filter Field.isAttachment) index.attachments) ?_ ?_
    fun _ _ h => h)
  · unfold observeDedup
    split
    · rw [← bind_pure (call (.observe .dedupHit))]
      refine yields_call sound (fun _ => idle_stable) (idle_and_stable hM) (fun _ h => h.1.inv) ⟨I, hm⟩
        (fun t h _ => ⟨h.1.unanswered, trivial⟩) fun t x v h _ hI _ hx => ?_
      exact Yields.pure (idle_and_stable hM) ⟨h.1.observed hI (by simp) hx,
        hM _ _ (by rw [(record_eq_some.mp hx).2]; exact List.subset_cons_self ..) h.2⟩
    · exact Yields.pure (idle_and_stable hM) ⟨I, hm⟩
  · rintro _ z ⟨I, hm⟩
    refine Yields.andThen (fun _ => idle_stable) (yields_history hM
      (writeIndex_yields hv ⟨_, hm.1.sha256⟩ hjob I (hashes_taken hm.1 hm.2)) I.inv hm) ?_
    rintro _ z ⟨⟨I, hw⟩, hm⟩
    exact Yields.pure (filed_and_stable fun _ _ hs => Posted.mono hs)
      ⟨I, index, ⟨rfl, ⟨f, hdump, hm.1⟩, hm.2, hw⟩, rfl⟩

theorem crashesInner_yields {token : TokenContext} (hjob : Y.jobs i = .upload token headers body) (hs : Y.Idle i s) :
    (Y.contract i).Yields (fun r t => Y.Filed i t ∧ Y.Accepted i headers body r t.history) (fun _ => Y.Idle i)
      (crashesInner Y.crates Y.app token headers body) s := by
  unfold crashesInner
  refine Yields.lift (fun _ => idle_stable) (fun multipart hm => ?_) fun _ _ => hs
  refine Yields.lift (fun _ => idle_stable) (fun first hf => ?_) fun _ _ => hs
  obtain ⟨metadata, fields⟩ := first
  refine Yields.lift (fun _ => idle_stable) (fun source hsrc => ?_) fun _ _ => hs
  obtain ⟨-, -, hvalid, -⟩ := admitSource_ok hsrc
  have hparts : ∀ f ∈ fields, Y.Part f.bytes := by
    intro f hmem
    refine ⟨i, f, ?_, rfl⟩
    rw [hjob]
    simp only [CrashSystem.fields, hm]
    exact readFirst_fields Y.crates hf hmem
  refine yields_call sound (fun _ => idle_stable) idle_stable (fun _ h => h.inv) hs
    (fun t I _ => ⟨I.unanswered, trivial⟩) fun t admitted v I _ hI _ hx => ?_
  have I := I.own (record_eq_some.mp hx).2 hI rfl
  cases admitted with
  | false => exact Yields.throw idle_stable I
  | true =>
    simp only [Bool.not_true, Bool.false_eq_true, if_false]
    split
    · refine yields_call sound (fun _ => idle_stable) idle_stable (fun _ h => h.inv) I
        (fun t I _ => ⟨I.unanswered, trivial⟩) fun t x v I _ hI _ hx => ?_
      exact Yields.throw idle_stable (I.observed hI (by simp) hx)
    · refine Yields.andThen (fun _ => idle_stable) (readParts_yields fields hparts I) ?_
      rintro ⟨dump, as⟩ z ⟨I, D, new, hnew, hA⟩
      cases dump with
      | none => exact Yields.throw idle_stable I
      | some dump =>
        rcases D with ⟨hd, -⟩ | ⟨-, f, p, hdump, hd, hP⟩
        · exact absurd hd (by simp)
        · obtain rfl := Option.some.inj hd
          rw [show as = new by simpa using hnew]
          refine (storeIndex_yields ⟨metadata, dump, new⟩ hvalid hdump ⟨_, _, _, hjob⟩ I hP hA).imp ?_
          rintro r y ⟨I, index, hidx, hr⟩
          exact ⟨I, multipart, metadata, fields, index, hm, hf, hidx, hr⟩

variable (Y) in
/-- What an upload leaves: one that was stored has answered 201 and has written every index it opened, one that
was refused has opened none. -/
structure Ended (i : ι) (headers : Headers) (body : Body) (r : Except CrashError (Nat × CrashResponse))
    (w : ServerState ι) : Prop where
  inv : Y.Inv w
  stored : ∀ x, r = .ok x → Y.Accepted i headers body x w.history ∧ Closed Y.app.storage i w.history
  refused : ∀ e, r = .error e → ¬ Opened Y.app.storage i w.history

theorem ended_stable {r : Except CrashError (Nat × CrashResponse)} :
    (Y.contract i).Stable (Y.Ended i headers body r) :=
  stable_of (fun _ h => h.inv) fun _ _ ht F h => ⟨ht,
    fun x hx => ⟨(h.stored x hx).1.mono F.apart.subset, (h.stored x hx).2.apart F.apart⟩,
    fun e he ho => h.refused e he ((Opened.apart F.apart).mp ho)⟩

/-- **An upload keeps to its contract**, and one that was answered 201 has been stored. -/
theorem crashesHandler_holds {token : TokenContext} (hjob : Y.jobs i = .upload token headers body) (hs : Y.Idle i s) :
    (Y.contract i).Holds (Y.Ended i headers body) (crashesHandler Y.crates Y.app token headers body) s := by
  refine Holds.andThen (crashesInner_yields hjob hs) ?_
  intro r t hr
  have hend : Y.Ended i headers body r t ∧ ¬ Answered i t.history := by
    cases r with
    | ok x =>
      refine ⟨⟨hr.1.inv, fun y hy => ?_, fun e he => (by cases he)⟩, hr.1.unanswered⟩
      obtain rfl := Except.ok.inj hy
      exact ⟨hr.2, hr.1.closed⟩
    | error e => exact ⟨⟨hr.inv, fun x hx => (by cases hx), fun _ _ => hr.unopened⟩, hr.unanswered⟩
  have hstable : (Y.contract i).Stable fun t => Y.Ended i headers body r t ∧ ¬ Answered i t.history :=
    stable_of (fun _ h => h.1.inv) fun s t ht F h =>
      ⟨ended_stable s t (fun _ => ⟨ht, F⟩) h.1, fun ha => h.2 ((Answered.apart F.apart).mp ha)⟩
  refine holds_call sound hstable (fun _ h => h.1.inv) hend (fun t h _ => ⟨h.2, trivial⟩) ?_
  intro t x v h _ hv _ hx
  obtain ⟨-, hh⟩ := record_eq_some.mp hx
  refine Holds.done ended_stable ⟨hv, fun y hy => ?_, fun e he => ?_⟩
  all_goals rw [hh]
  · exact ⟨(h.1.stored y hy).1.mono (List.subset_cons_self ..), (h.1.stored y hy).2.cons rfl⟩
  · rw [opened_cons rfl]
    exact h.1.refused e he

end Contract

end CrashSystem

end Detritus.Server
