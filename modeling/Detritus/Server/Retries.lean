import Detritus.Server.StoredParts

/-! A report that is sent again.

A client that does not learn of an acceptance sends the report again. What the store then
holds is what it held after the first acceptance, however many attempts follow and
whatever becomes of each: the same blobs, one index at one path, and in that index, at
most, the marks that say of a part that it was there already. -/
namespace Detritus.Server
open Files Protocol Process Contract

section Upload
variable {ι : Type} {env : Env} {i : ι} {C : Crates} {state : AppState} {w t v : ServerState ι} {m n : Multipart}

/-! ### An upload that is accepted -/

/-- The report of these parts has been stored since `w`, with this index. -/
structure ReportStored (C : Crates) (env : Env) (state : AppState) (m : Multipart) (index : CrashIndex)
    (w t : ServerState ι) : Prop where
  first : readFirst C m = .ok (index.metadata, m.fields.tail)
  valid : SourceKey.Valid ⟨index.metadata.source.project, index.metadata.source.installId.toString⟩
  pointers : pointers C state.storage (knows state.storage w.state.disk) m.fields.tail (none, []) =
    (some index.dump, index.attachments)
  rest : AtRest env state.storage t
  blobs : blobs state.storage t.state.disk =
    (m.fields.tail.map Field.bytes).foldl (shelve C) (blobs state.storage w.state.disk)
  written : t.state.disk.content (index.path state.storage) = some (C.json.writePretty index.toJson)
  others : ∀ q, state.storage.bySource <+: q → q ≠ index.path state.storage →
    t.state.disk.content q = w.state.disk.content q

/-- A pointer to the dump has the digest of a part. -/
theorem pointers_sha256 (C : Crates) (state : AppState) (known : Sha256 → Bool) (fs : List Field)
    (stored : Option BlobPointer × List AttachmentPointer)
    (hstored : ∀ p ∈ stored.1, ∃ s : Sha256, p.sha256 = s.hex) :
    ∀ p ∈ (pointers C state.storage known fs stored).1, ∃ s : Sha256, p.sha256 = s.hex := by
  induction fs generalizing known stored with
  | nil => exact hstored
  | cons f rest ih =>
    refine ih _ _ fun p hp => ?_
    unfold pointTo at hp
    split at hp
    · exact ⟨C.sha256 f.bytes, by rw [← Option.some.inj hp]; rfl⟩
    · exact hstored p hp

theorem ReportStored.below {m : Multipart} {index : CrashIndex} (h : ReportStored C env state m index w t) :
    state.storage.bySource <+: index.path state.storage := by
  obtain ⟨s, hs⟩ : ∃ s : Sha256, index.dump.sha256 = s.hex := by
    refine pointers_sha256 C state (knows state.storage w.state.disk) m.fields.tail (none, []) nofun
      index.dump ?_
    rw [h.pointers]
    rfl
  rw [CrashIndex.path, hs]
  exact state.storage.bySource_indexPath h.valid _ _

/-- One index has been written since `w`. -/
structure IndexStored (C : Crates) (env : Env) (state : AppState) (path : Path) (index : CrashIndex)
    (w t : ServerState ι) : Prop where
  rest : AtRest env state.storage t
  blobs : blobs state.storage t.state.disk = blobs state.storage w.state.disk
  written : t.state.disk.content path = some (C.json.writePretty index.toJson)
  others : ∀ q, state.storage.bySource <+: q → q ≠ path → t.state.disk.content q = w.state.disk.content q

theorem writeIndex_stores (source : SourceKey) (metadata : CrashMetadata) (dump : BlobPointer)
    (as : List AttachmentPointer) {path : Path}
    (heq : state.storage.indexPath source metadata.timestamp.format dump.sha256 = path)
    (hpath : state.storage.bySource <+: path) (hparent : state.storage.bySource <+: path.parent)
    (hw : AtRest env state.storage w) :
    (lone env i).Yields (fun _ v => IndexStored C env state path ⟨metadata, dump, as⟩ w v) (fun _ _ => False)
      (writeIndex C state source metadata dump as) w := by
  have hbelow : state.storage.crashesDir <+: path := state.storage.crashesDir_bySource.trans hpath
  unfold writeIndex
  rw [heq]
  refine file_lone (fun _ _ => ?_) fun e he => by cases he
  let w₁ := w.after env i (.createDirAll path.parent)
  have hdirs : ∀ s : Sha256, w₁.state.disk.dir (state.storage.blobPath s.hex) =
      w.state.disk.dir (state.storage.blobPath s.hex) := by
    intro s
    refine if_neg fun hpre => ?_
    exact (state.storage.regions_apart).1 ⟨hparent, (state.storage.byHash_blobPath s).trans hpre⟩
  have h₁ : AtRest env state.storage w₁ :=
    hw.later rfl (Nat.le_refl _) (fun s => by rw [hdirs s]) (Nat.le_succ _)
  refine file_lone (fun handle hhandle => ?_) fun e he => by cases he
  obtain rfl : (w₁.state.disk.create path (env.clock w₁.history.length)).1 = handle := Except.ok.inj hhandle
  let w₂ := w₁.after env i (.create path)
  obtain ⟨htidy₂, honly₂⟩ : w₂.state.disk.Tidy state.storage.crashesDir ∧ w₁.state.disk.Only path w₂.state.disk :=
    h₁.tidy.create hbelow
  refine file_lone (fun handle' hhandle' => ?_) fun e he => by cases he
  let bytes := C.json.writePretty (CrashIndex.mk metadata dump as).toJson
  let handle := (w₁.state.disk.create path (env.clock w₁.history.length)).1
  let w₃ := w₂.after env i (.write handle bytes)
  have hhandle₂ : w₂.state.disk.file path = some handle.inode := Disk.create_file
  obtain ⟨htidy₃, honly₃⟩ : w₃.state.disk.Tidy state.storage.crashesDir ∧ w₂.state.disk.Only path w₃.state.disk :=
    htidy₂.write hbelow hhandle₂
  have honly := honly₂.trans honly₃
  refine Yields.solo_pure
    ⟨⟨htidy₃, fun s => ?_, fun n u hn hu => ?_⟩, ?_, ?_, fun q _ hq => honly.content q hq⟩
  · exact (honly.dir _).trans (h₁.dirs s)
  · have htemp : state.storage.tempPath u ≠ path := by
      intro heq
      exact state.storage.bySource_not_tempPath u (heq ▸ hpath)
    have hn : w.history.length + 3 ≤ n := hn
    have hfile : w₃.state.disk.file (state.storage.tempPath u) = if state.storage.tempPath u = path then _ else
        w₁.state.disk.file (state.storage.tempPath u) := Disk.create_write_file (d := w₁.state.disk) bytes _
    rw [show w₃.state.disk.file _ = _ from hfile, if_neg htemp]
    exact hw.temps n u (by omega) hu
  · funext s
    refine honly.content _ ?_
    intro heq
    exact state.storage.bySource_not_blobPath s (heq ▸ hpath)
  · exact Disk.create_write_content (d := w₁.state.disk) bytes

theorem observeDedup_lone (dump : BlobPointer) (hw : AtRest env state.storage w) :
    (lone env i).Yields (fun _ v => Stocked C env state.storage [] w v) (fun _ _ => False) (observeDedup dump) w := by
  unfold observeDedup
  split
  · exact call_lone (by simp) fun _ v hdisk hh _ => Yields.solo_pure (hw.call C hdisk hh)
  · exact Yields.solo_pure (.refl C hw)

theorem storeIndex_stores (source : SourceKey) (metadata : CrashMetadata) (dump : BlobPointer)
    (as : List AttachmentPointer) {path : Path}
    (heq : state.storage.indexPath source metadata.timestamp.format dump.sha256 = path)
    (hpath : state.storage.bySource <+: path) (hparent : state.storage.bySource <+: path.parent)
    (hw : AtRest env state.storage w) :
    (lone env i).Yields (fun x v => x = (201, ⟨dump.sha256, dump.dedup⟩) ∧
        IndexStored C env state path ⟨metadata, dump, as⟩ w v) (fun _ _ => False)
      (storeIndex C state source metadata dump as) w := by
  unfold storeIndex
  refine call_lone (by simp) fun _ w₁ hdisk hh _ => ?_
  have h₁ : Stocked C env state.storage [] w w₁ := hw.call C hdisk hh
  refine Yields.solo_andThen (observeDedup_lone (C := C) dump h₁.rest) fun _ w₂ h₂ => ?_
  have h₁₂ : Stocked C env state.storage [] w w₂ := h₁.trans h₂
  refine Yields.solo_andThen (writeIndex_stores source metadata dump as heq hpath hparent
    h₂.rest) fun _ v hv => ?_
  exact Yields.solo_pure ⟨rfl, hv.rest, hv.blobs.trans h₁₂.blobs, hv.written,
    fun q hq hne => (hv.others q hq hne).trans (h₁₂.indexes q hq)⟩

/-- **What an upload leaves**: a report, if it is accepted; in any case what was there, and perhaps some of its
parts. -/
theorem crashesInner_stores (token : TokenContext) (headers : Headers) (body : Body) (hw : AtRest env state.storage w) :
    (lone env i).Yields
      (fun x v => ∃ m index, openMultipart C headers body = .ok m ∧ x = index.response ∧
        ReportStored C env state m index w v)
      (fun _ v => ∃ parts, (parts = [] ∨ ∃ m, openMultipart C headers body = .ok m ∧
        parts <+: m.fields.tail.map Field.bytes) ∧ Stocked C env state.storage parts w v)
      (crashesInner C state token headers body) w := by
  have hnothing : ∃ parts, (parts = [] ∨ ∃ m, openMultipart C headers body = .ok m ∧
      parts <+: m.fields.tail.map Field.bytes) ∧ Stocked C env state.storage parts w w :=
    ⟨[], .inl rfl, .refl C hw⟩
  unfold crashesInner
  refine lift_lone (fun m hm => ?_) fun _ _ => hnothing
  refine lift_lone (fun first hfirst => ?_) fun _ _ => hnothing
  obtain ⟨metadata, fields⟩ := first
  obtain ⟨f, hfields, -⟩ := readFirst_reads hfirst
  obtain rfl : m.fields.tail = fields := by rw [hfields]; rfl
  refine lift_lone (fun source hsource => ?_) fun _ _ => hnothing
  obtain ⟨-, rfl, hvalid, -⟩ := admitSource_ok hsource
  refine call_lone (by simp) fun admitted w₁ hdisk hh _ => ?_
  have h₁ : Stocked C env state.storage [] w w₁ := hw.call C hdisk hh
  split
  · exact throw_lone ⟨[], .inl rfl, h₁⟩
  split
  · exact call_lone (by simp) fun _ w₂ hdisk₂ hh₂ _ =>
      throw_lone ⟨[], .inl rfl, h₁.trans (h₁.rest.call C hdisk₂ hh₂)⟩
  refine Yields.solo_bind (Yields.mono (readParts_shelves m.failure m.fields.tail (none, []) h₁.rest)
    ?_ ?_)
  · rintro r w₂ ⟨hr, h₂⟩
    have h₁₂ := h₁.trans h₂
    rw [hdisk] at hr
    obtain ⟨dump, as⟩ := r
    cases dump with
    | none => exact throw_lone ⟨_, .inr ⟨m, hm, List.prefix_refl _⟩, h₁₂⟩
    | some dump =>
      obtain ⟨s, hs⟩ : ∃ s : Sha256, dump.sha256 = s.hex := by
        refine pointers_sha256 C state (knows state.storage w.state.disk) m.fields.tail (none, []) nofun
          dump ?_
        rw [← hr]
        rfl
      have hpath := state.storage.bySource_indexPath hvalid metadata.timestamp s
      have hparent := state.storage.bySource_indexPath_parent hvalid metadata.timestamp s
      rw [← hs] at hpath hparent
      refine Yields.mono (storeIndex_stores _ metadata dump as rfl hpath hparent h₂.rest) ?_ fun _ _ h => h.elim
      rintro x v ⟨rfl, hv⟩
      refine ⟨m, ⟨metadata, dump, as⟩, hm, rfl, hfirst, hvalid, hr.symm, hv.rest, ?_, hv.written,
        fun q hq hne => (hv.others q hq hne).trans (h₁₂.indexes q hq)⟩
      rw [hv.blobs, h₁₂.blobs, List.nil_append]
  · rintro e v ⟨parts, hparts, hv⟩
    exact ⟨parts, .inr ⟨m, hm, hparts⟩, h₁.trans hv⟩

/-! ### The marks -/

/-- Every part is marked as one that was there. -/
def marked (r : Option BlobPointer × List AttachmentPointer) : Option BlobPointer × List AttachmentPointer :=
  (r.1.map fun p => {p with dedup := true}, r.2.map fun p => {p with dedup := true})

def CrashIndex.marked (index : CrashIndex) : CrashIndex where
  metadata := index.metadata
  dump := {index.dump with dedup := true}
  attachments := index.attachments.map fun p => {p with dedup := true}

@[simp] theorem CrashIndex.marked_path (P : StoragePaths) (index : CrashIndex) : index.marked.path P = index.path P := rfl

/-- Where all digests are known, all parts are marked, and nothing else is different. -/
theorem pointers_marked (P : StoragePaths) (known known' : Sha256 → Bool) (fs : List Field)
    (r : Option BlobPointer × List AttachmentPointer) (h : ∀ f ∈ fs, known' (C.sha256 f.bytes) = true) :
    pointers C P known' fs (marked r) = marked (pointers C P known fs r) := by
  induction fs generalizing known known' r with
  | nil => rfl
  | cons f rest ih =>
    have hpoint : pointTo C P known' f (marked r) = marked (pointTo C P known f r) := by
      have hpointer : blobPointer C P known' f = {blobPointer C P known f with dedup := true} := by
        rw [blobPointer, h f (.head _), blobPointer]
      unfold pointTo
      split
      · rw [hpointer]
        rfl
      · rw [hpointer, marked, marked, List.map_append]
        rfl
    rw [pointers, pointers, hpoint]
    refine ih _ _ _ fun f hf => ?_
    rw [h f (.tail _ hf), Bool.true_or]

theorem shelve_known {b : Sha256 → Option Bytes} {bytes : Bytes} (h : (b (C.sha256 bytes)).isSome = true) :
    shelve C b bytes = b := by
  obtain ⟨x, hx⟩ := Option.isSome_iff_exists.mp h
  rw [shelve, hx, Option.getD_some, ← hx, Function.update_eq_self]

theorem foldl_shelve_known {b : Sha256 → Option Bytes} (parts : List Bytes)
    (h : ∀ bytes ∈ parts, (b (C.sha256 bytes)).isSome = true) : parts.foldl (shelve C) b = b := by
  induction parts with
  | nil => rfl
  | cons bytes rest ih =>
    rw [List.foldl_cons, shelve_known (h bytes (.head _))]
    exact ih fun bytes hb => h bytes (.tail _ hb)

/-- What has been shelved is there. -/
theorem foldl_shelve_isSome (b : Sha256 → Option Bytes) (parts : List Bytes) {bytes : Bytes} (h : bytes ∈ parts) :
    (parts.foldl (shelve C) b (C.sha256 bytes)).isSome = true := by
  obtain ⟨before, after, rfl⟩ := List.append_of_mem h
  rw [List.foldl_append, List.foldl_cons]
  have hself : shelve C (before.foldl (shelve C) b) bytes (C.sha256 bytes) = some _ := Function.update_self ..
  rw [foldl_shelve_some after hself]
  rfl

theorem readFirst_rechunked (h : Rechunked m n) {metadata : CrashMetadata}
    (hm : readFirst C m = .ok (metadata, m.fields.tail)) : readFirst C n = .ok (metadata, n.fields.tail) := by
  obtain ⟨f, hfields, hname, hwhole, hjson⟩ := readFirst_ok_iff.mp hm
  have hall := h.fields
  rw [hfields] at hall
  obtain ⟨g, gs, ⟨hsame, -⟩, -, heq⟩ := List.forall₂_cons_left_iff.mp hall
  refine readFirst_ok_iff.mpr ⟨g, by rw [heq]; rfl, hsame.name.trans hname, ⟨?_, ?_⟩, ?_⟩
  · rw [hsame.failure, hwhole.failure]
  · rw [hsame.bytes]
    exact hwhole.size
  · rw [hsame.bytes, hjson]

/-! ### Attempts -/

/-- Uploads of the same parts, in whatever chunks and under whatever token, one after the other, with their
answers. -/
inductive Attempts (C : Crates) (env : Env) (state : AppState) (m : Multipart) (w : ServerState ι) :
    List (Except CrashError (Nat × CrashResponse)) → ServerState ι → Prop where
  | none : Attempts C env state m w [] w
  | more {rs : List (Except CrashError (Nat × CrashResponse))} {t v : ServerState ι} {i : ι} {token : TokenContext}
      {headers : Headers} {body : Body} {n : Multipart} {r : Except CrashError (Nat × CrashResponse)}
      (h : Attempts C env state m w rs t) (hn : openMultipart C headers body = .ok n) (hsame : Rechunked m n)
      (hrun : (crashesInner C state token headers body).alone env i t = some (r, v)) :
      Attempts C env state m w (rs ++ [r]) v

/-- The index after some attempts. -/
def CrashIndex.after (index : CrashIndex) (rs : List (Except CrashError (Nat × CrashResponse))) : CrashIndex :=
  if rs.any Except.isOk then index.marked else index

/-- What the store holds of a report that was stored at `t` and sent again. -/
structure StillStored (C : Crates) (env : Env) (state : AppState) (index : CrashIndex)
    (rs : List (Except CrashError (Nat × CrashResponse))) (t v : ServerState ι) : Prop where
  rest : AtRest env state.storage v
  blobs : blobs state.storage v.state.disk = blobs state.storage t.state.disk
  written : v.state.disk.content (index.path state.storage) = some (C.json.writePretty (index.after rs).toJson)
  others : ∀ q, state.storage.bySource <+: q → q ≠ index.path state.storage →
    v.state.disk.content q = t.state.disk.content q

theorem rechunked_tail (h : Rechunked m n) :
    List.Forall₂ (fun f g => f.Same g ∧ g.contentEncoding = f.contentEncoding) m.fields.tail n.fields.tail := by
  cases hm : m.fields with
  | nil =>
    have hall := h.fields
    rw [hm, List.forall₂_nil_left_iff] at hall
    rw [hall]
    exact .nil
  | cons f fs =>
    have hall := h.fields
    rw [hm] at hall
    obtain ⟨g, gs, -, hrest, heq⟩ := List.forall₂_cons_left_iff.mp hall
    rw [heq]
    exact hrest

theorem rechunked_bytes (h : Rechunked m n) : n.fields.tail.map Field.bytes = m.fields.tail.map Field.bytes := by
  have htail := rechunked_tail h
  generalize m.fields.tail = fs at htail ⊢
  generalize n.fields.tail = gs at htail ⊢
  induction htail with
  | nil => rfl
  | cons hf _ ih => rw [List.map_cons, List.map_cons, hf.1.bytes, ih]

/-- One more attempt. -/
theorem StillStored.again {index : CrashIndex} {rs : List (Except CrashError (Nat × CrashResponse))}
    {v' : ServerState ι} {token : TokenContext} {headers : Headers} {body : Body}
    {r : Except CrashError (Nat × CrashResponse)} (hs : ReportStored C env state m index w t)
    (hv : StillStored C env state index rs t v) (hn : openMultipart C headers body = .ok n) (hsame : Rechunked m n)
    (hrun : (crashesInner C state token headers body).alone env i v = some (r, v')) :
    StillStored C env state index (rs ++ [r]) t v' ∧ ∀ y, r = .ok y → y = (201, ⟨index.dump.sha256, true⟩) := by
  -- every part is there, so shelving changes nothing
  have hthere : ∀ bytes ∈ n.fields.tail.map Field.bytes,
      (Server.blobs state.storage v.state.disk (C.sha256 bytes)).isSome = true := by
    intro bytes hb
    rw [rechunked_bytes hsame] at hb
    rw [hv.blobs, hs.blobs]
    exact foldl_shelve_isSome _ _ hb
  have houtcome := yields_alone (crashesInner_stores token headers body hv.rest) hrun
  cases r with
  | error e =>
    obtain ⟨parts, hparts, hstocked⟩ := houtcome
    have htaken : parts ⊆ n.fields.tail.map Field.bytes := by
      rcases hparts with rfl | ⟨n', hn', hparts⟩
      · exact List.nil_subset _
      · obtain rfl := Except.ok.inj (hn.symm.trans hn')
        exact hparts.subset
    refine ⟨⟨hstocked.rest, ?_, ?_, fun q hq hne => (hstocked.indexes q hq).trans (hv.others q hq hne)⟩, nofun⟩
    · rw [hstocked.blobs, foldl_shelve_known parts fun bytes hb => hthere bytes (htaken hb), hv.blobs]
    · rw [hstocked.indexes _ hs.below, hv.written]
      simp [CrashIndex.after, Except.isOk, Except.toBool]
  | ok y =>
    obtain ⟨n', index', hn', rfl, hstored⟩ := houtcome
    obtain rfl := Except.ok.inj (hn.symm.trans hn')
    have hmetadata : index'.metadata = index.metadata := by
      have hfirst := hstored.first.symm.trans (readFirst_rechunked hsame hs.first)
      exact (Prod.mk.inj (Except.ok.inj hfirst)).1
    have hknown : ∀ f ∈ m.fields.tail, knows state.storage v.state.disk (C.sha256 f.bytes) = true := by
      intro f hf
      rw [hv.rest.knows_eq]
      refine hthere _ ?_
      rw [rechunked_bytes hsame]
      exact List.mem_map_of_mem hf
    have hpointers : (some index'.dump, index'.attachments) = marked (some index.dump, index.attachments) := by
      rw [← hs.pointers, ← hstored.pointers, pointers_same _ _ _ (rechunked_tail hsame),
        ← pointers_marked state.storage _ (knows state.storage v.state.disk) m.fields.tail (none, []) hknown]
      rfl
    obtain rfl : index' = index.marked := by
      obtain ⟨hdump, hattachments⟩ := Prod.mk.inj hpointers
      cases index'
      rw [CrashIndex.mk.injEq]
      exact ⟨hmetadata, Option.some.inj hdump, hattachments⟩
    refine ⟨⟨hstored.rest, ?_, ?_, fun q hq hne => (hstored.others q hq hne).trans (hv.others q hq hne)⟩, ?_⟩
    · rw [hstored.blobs, foldl_shelve_known _ hthere, hv.blobs]
    · rw [← CrashIndex.marked_path, hstored.written]
      simp [CrashIndex.after, Except.isOk, Except.toBool]
    · intro y hy
      rw [← Except.ok.inj hy]
      rfl

/-- **However often a report is sent again, it is stored once.** After the attempt that is accepted first the blobs
and the other indexes do not change any more, whatever becomes of the attempts that follow. The one index stays where
it is; an attempt that is accepted marks the parts in it as known. The answers name the same report, marked too. -/
theorem retries_store_once {m : Multipart} {token : TokenContext} {headers : Headers} {body : Body}
    {x : Nat × CrashResponse} {rs : List (Except CrashError (Nat × CrashResponse))} (hw : AtRest env state.storage w)
    (hm : openMultipart C headers body = .ok m)
    (hfirst : (crashesInner C state token headers body).alone env i w = some (.ok x, t))
    (hagain : Attempts C env state m t rs v) :
    ∃ index : CrashIndex, x = index.response ∧ ReportStored C env state m index w t ∧
      StillStored C env state index rs t v ∧ ∀ y, .ok y ∈ rs → y = (201, ⟨x.2.id, true⟩) := by
  obtain ⟨m', index, hm', rfl, hs⟩ := yields_alone (crashesInner_stores token headers body hw) hfirst
  obtain rfl := Except.ok.inj (hm.symm.trans hm')
  refine ⟨index, rfl, hs, ?_⟩
  induction hagain with
  | none =>
    exact ⟨⟨hs.rest, rfl, hs.written, fun _ _ _ => rfl⟩, nofun⟩
  | more _ hn hsame hrun ih =>
    obtain ⟨hv, hanswers⟩ := ih
    obtain ⟨hv', hanswer⟩ := hv.again hs hn hsame hrun
    refine ⟨hv', fun y hy => ?_⟩
    rcases List.mem_append.mp hy with hy | hy
    · exact hanswers y hy
    · exact hanswer y (List.mem_singleton.mp hy).symm

end Upload

open CrashSystem

/-- Two uploads, and their answers. -/
theorem abc_again : ((sendAbc emptyState).bind fun x =>
    (sendAbc x.2).map fun y => (x.1, y.1)) = some (.ok (201, ⟨abcDigest.hex, false⟩),
      .ok (201, ⟨abcDigest.hex, true⟩)) := by
  decide +kernel

theorem retries_store_once_abc : ∃ (t v : ServerState Unit) (index : CrashIndex),
    index.response = (201, ⟨abcDigest.hex, false⟩) ∧
    v.state.disk.content (index.path ⟨["data"]⟩) =
      some (abcCrates.json.writePretty index.marked.toJson) ∧
    blobs ⟨["data"]⟩ v.state.disk = blobs ⟨["data"]⟩ t.state.disk := by
  obtain ⟨⟨r, t⟩, hr, h⟩ := Option.bind_eq_some_iff.mp abc_again
  obtain ⟨⟨r', v⟩, hr', h⟩ := Option.map_eq_some_iff.mp h
  obtain ⟨rfl, rfl⟩ := Prod.mk.inj h
  have hrest : AtRest abcEnv abcApp.storage emptyState :=
    ⟨.of_free nofun fun _ _ => rfl, fun _ => rfl, fun _ _ _ _ => rfl⟩
  have hagain : Attempts abcCrates abcEnv abcApp _ t [_] v :=
    .more .none rfl ⟨List.forall₂_same.mpr fun _ _ => ⟨⟨rfl, rfl, rfl, rfl⟩, rfl⟩, rfl⟩ hr'
  obtain ⟨index, hx, -, hstill, -⟩ := retries_store_once hrest rfl hr hagain
  exact ⟨t, v, index, hx.symm, hstill.written, hstill.blobs⟩

end Detritus.Server
