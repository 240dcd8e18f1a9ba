import Detritus.Protocol.Envelope
import Detritus.Server.CrashStore

/-! The two readers of a crash report.

The endpoint takes the parts of a body as they come and stores each; `read_from` collects
them in memory. The endpoint is the stricter one, on order, repetition and size. What it
has accepted the other reads, too, and reads as what the index says: this holds of its
loop by itself, whatever the disk and the other tasks do meanwhile. -/
namespace Detritus.Server
open Files Protocol Process Discipline

/-! ### What an index says of a report -/

/-- The pointer stands for these bytes. -/
structure BlobPointer.StandsFor (C : Crates) (p : BlobPointer) (bytes : Bytes) : Prop where
  sha256 : p.sha256 = (C.sha256 bytes).hex
  len : p.len = bytes.length

/-- The pointer stands for this attachment. -/
structure AttachmentPointer.StandsFor (C : Crates) (p : AttachmentPointer) (a : CrashAttachment) : Prop where
  key : p.key = a.key
  contentType : p.contentType = a.contentType
  sha256 : p.sha256 = (C.sha256 a.bytes).hex
  len : p.len = a.bytes.length

/-- The index describes this report. -/
structure CrashIndex.Describes (C : Crates) (index : CrashIndex) (e : CrashEnvelope) : Prop where
  metadata : index.metadata = e.metadata
  dump : index.dump.StandsFor C e.dump
  attachments : List.Forall₂ (AttachmentPointer.StandsFor C) index.attachments e.attachments

/-- What has been stored stands for what has been collected. -/
structure Mirrors (C : Crates) (dump : Option BlobPointer) (attachments : List AttachmentPointer)
    (e : EnvelopeParts) : Prop where
  dump : Option.Rel (BlobPointer.StandsFor C) dump e.dump
  attachments : List.Forall₂ (AttachmentPointer.StandsFor C) attachments e.attachments

/-- A part that is stored is one that is collected. -/
theorem Mirrors.place {C : Crates} {dump : Option BlobPointer} {as : List AttachmentPointer} {e : EnvelopeParts}
    {dumped : Bool} {f : Field} {p : BlobPointer} (he : Mirrors C dump as e) (hf : Storable dumped f)
    (hp : p.StandsFor C f.bytes) (hfailure : f.failure = none) :
    ∃ e', EnvelopeParts.add C.json e f = .ok e' ∧ e'.metadata = e.metadata ∧
      Mirrors C (placePart f p (dump, as)).1 (placePart f p (dump, as)).2 e' := by
  unfold placePart
  by_cases hdump : f.isDump = true
  · rw [if_pos hdump]
    exact ⟨_, EnvelopeParts.add_dump C.json e (of_decide_eq_true hdump) hfailure, rfl, .some hp, he.attachments⟩
  · rw [if_neg hdump]
    obtain ⟨name, hname, hattach⟩ := Field.isAttachment_iff.mp (hf.attachment hdump)
    refine ⟨_, EnvelopeParts.add_attach C.json e hname hfailure hattach, rfl, he.dump, ?_⟩
    rw [attachKey, hname]
    exact List.rel_append he.attachments (.cons ⟨rfl, rfl, hp.sha256, hp.len⟩ .nil)

/-! ### The endpoint's loop -/

section Upload
variable {ι : Type} {C : Crates} {state : AppState} {i : ι} {h : List (ServerEvent ι)}
  {failure : Option MultipartError} {metadata : CrashMetadata}

theorem writeChunks_reads {temp : Path} (chunks : List Bytes) {handle : Handle} {written : Bytes} :
    (Discipline.free serverInterface ι).Minds i
      (fun r _ => r.2 = written ++ chunks.flatten ∧ failure = none)
      (writeChunks state temp failure chunks handle written) h := by
  induction chunks generalizing handle written h with
  | nil =>
    unfold writeChunks
    cases failure with
    | some error => exact Minds.throw _
    | none => exact Minds.pure (by simp)
  | cons chunk rest ih =>
    unfold writeChunks
    split
    · exact minds_call trivial fun _ _ => Minds.throw _
    · refine minds_file trivial fun hd _ => ih.mono ?_
      rintro r h' - ⟨hr, hf⟩
      exact ⟨by rw [hr]; simp, hf⟩

theorem writePartToBlob_reads {f : Field} : (Discipline.free serverInterface ι).Minds i
    (fun p _ => p.StandsFor C f.bytes ∧ f.failure = none) (writePartToBlob C state f) h := by
  unfold writePartToBlob
  refine minds_file trivial fun _ _ => ?_
  refine minds_call trivial fun u _ => ?_
  refine minds_file trivial fun hd _ => ?_
  refine (writeChunks_reads f.chunks).bind fun r h' _ hr => ?_
  refine minds_file trivial fun _ _ => ?_
  refine (Minds.of_free (finalizeBlob state _ _)).bind fun _ _ _ _ => ?_
  have hbytes : r.2 = f.bytes := hr.1
  exact Minds.pure ⟨⟨by rw [hbytes], by rw [hbytes]⟩, hr.2⟩

/-- The parts after the metadata: what was stored mirrors what `read_from` collects of them. -/
theorem readParts_reads (fs : List Field) {dump : Option BlobPointer} {as : List AttachmentPointer}
    {e : EnvelopeParts} (he : Mirrors C dump as e) :
    (Discipline.free serverInterface ι).Minds i
      (fun r _ => failure = none ∧ ∃ e', fs.foldlM (EnvelopeParts.add C.json) e = .ok e' ∧
        e'.metadata = e.metadata ∧ Mirrors C r.1 r.2 e')
      (readParts C state failure fs dump as) h := by
  induction fs generalizing dump as e h with
  | nil =>
    unfold readParts
    cases failure with
    | some error => exact Minds.throw _
    | none => exact Minds.pure ⟨rfl, e, rfl, rfl, he⟩
  | cons f rest ih =>
    rw [readParts_cons]
    split
    · exact Minds.throw _
    · next hstored =>
      refine writePartToBlob_reads.bind fun p h' _ hp => ?_
      obtain ⟨e₁, hadd, hmetadata, hmirrors₁⟩ := he.place (refusal_eq_none_iff.mp hstored) hp.1 hp.2
      refine (ih hmirrors₁).mono ?_
      rintro r h'' - ⟨hf, e', hfold, hm, hmirrors⟩
      exact ⟨hf, e', by rw [List.foldlM_cons, hadd]; exact hfold, hm.trans hmetadata, hmirrors⟩

theorem metadataBytes_ok {chunks : List Bytes} {bytes b : Bytes} (h : metadataBytes failure chunks bytes = .ok b) :
    failure = none ∧ b = bytes ++ chunks.flatten := by
  induction chunks generalizing bytes with
  | nil =>
    cases failure with
    | some error => cases h
    | none =>
      obtain rfl := Except.ok.inj h
      exact ⟨rfl, by simp⟩
  | cons chunk rest ih =>
    unfold metadataBytes at h
    split at h
    · cases h
    · obtain ⟨hf, rfl⟩ := ih h
      exact ⟨hf, by simp⟩

theorem readMetadata_ok {f : Field} (h : readMetadata C f = .ok metadata) :
    f.failure = none ∧ C.json.metadata f.bytes = .ok metadata := by
  obtain ⟨b, hb, hm⟩ := of_bind_ok h
  obtain ⟨hf, hbytes⟩ := metadataBytes_ok hb
  obtain rfl : b = f.bytes := hbytes
  cases hj : C.json.metadata f.bytes with
  | error e => rw [hj] at hm; cases hm
  | ok m =>
    rw [hj] at hm
    obtain rfl := Except.ok.inj hm
    exact ⟨hf, rfl⟩

/-- The metadata is what `read_from` collects of the first part. -/
theorem readFirst_reads {m : Multipart} {fields : List Field} (h : readFirst C m = .ok (metadata, fields)) :
    ∃ f, m.fields = f :: fields ∧
      EnvelopeParts.add C.json ⟨none, none, []⟩ f = .ok ⟨some metadata, none, []⟩ := by
  unfold readFirst at h
  cases hm : m.fields with
  | nil =>
    rw [hm] at h
    cases hf : m.failure <;> rw [hf] at h <;> cases h
  | cons f rest =>
    rw [hm] at h
    dsimp only at h
    split at h
    · cases h
    · next hname =>
      cases hr : readMetadata C f with
      | error e => rw [hr] at h; cases h
      | ok metadata' =>
        rw [hr] at h
        obtain ⟨rfl, rfl⟩ := Prod.mk.inj (Except.ok.inj h)
        obtain ⟨hf, hj⟩ := readMetadata_ok hr
        exact ⟨f, rfl, EnvelopeParts.add_metadata C.json _ (not_not.mp hname) hf hj⟩

/-- The index file is created and written, and that is all. -/
def IndexWritten (C : Crates) (state : AppState) (i : ι) (index : CrashIndex) (h : List (ServerEvent ι)) : Prop :=
  let source : SourceKey := ⟨index.metadata.source.project, index.metadata.source.installId.toString⟩
  ∃ (handle handle' : Handle) (before : List (ServerEvent ι)),
    h = ⟨i, .file (.write handle (C.json.writePretty index.toJson)), (.ok handle' : Except IoError Handle)⟩ ::
      ⟨i, .file (.create (state.storage.indexPath source index.metadata.timestamp.format index.dump.sha256)),
        (.ok handle : Except IoError Handle)⟩ :: before

theorem writeIndex_reads {dump : BlobPointer} {as : List AttachmentPointer} :
    (Discipline.free serverInterface ι).Minds i (fun _ h => IndexWritten C state i ⟨metadata, dump, as⟩ h)
      (writeIndex C state ⟨metadata.source.project, metadata.source.installId.toString⟩ metadata dump as) h := by
  unfold writeIndex
  refine minds_file trivial fun _ _ => ?_
  refine minds_file trivial fun handle _ => ?_
  refine minds_file trivial fun handle' _ => ?_
  exact Minds.pure ⟨handle, handle', _, rfl⟩

/-- An upload that is answered well ends with its index, and `read_from` reads what that describes. -/
theorem crashesInner_reads {token : TokenContext} {headers : Headers} {body : Body} :
    (Discipline.free serverInterface ι).Minds i (fun _ h => ∃ m e index,
        openMultipart C headers body = .ok m ∧ CrashEnvelope.readFields C.json m = .ok e ∧
        index.Describes C e ∧ IndexWritten C state i index h)
      (crashesInner C state token headers body) h := by
  unfold crashesInner
  apply minds_lift
  intro m hm
  apply minds_lift
  intro ⟨metadata, fields⟩ hfirst
  apply minds_lift
  intro source hsource
  obtain ⟨hversion, rfl, -, -⟩ := admitSource_ok hsource
  obtain ⟨f, hfields, hadd⟩ := readFirst_reads hfirst
  refine minds_call trivial fun admitted _ => ?_
  split
  · exact Minds.throw _
  · split
    · exact minds_call trivial fun _ _ => Minds.throw _
    · refine (readParts_reads (e := ⟨some metadata, none, []⟩) fields ⟨.none, .nil⟩).bind ?_
      rintro ⟨dump, as⟩ h' - ⟨hfailure, e, hfold, hmetadata, hmirrors⟩
      cases dump with
      | none => exact Minds.throw _
      | some dump =>
        obtain ⟨emetadata, edump, eattachments⟩ := e
        obtain rfl : emetadata = some metadata := hmetadata
        obtain ⟨hdump, hattachments⟩ := hmirrors
        cases hdump with
        | @some _ bytes hdump =>
        have hread : CrashEnvelope.readFields C.json m = .ok ⟨metadata, bytes, eattachments⟩ := by
          unfold CrashEnvelope.readFields
          rw [hfields, List.foldlM_cons, hadd]
          show (do let parts ← fields.foldlM (EnvelopeParts.add C.json) ⟨some metadata, none, []⟩; _) = _
          rw [hfold, hfailure]
          show EnvelopeParts.finish ⟨some metadata, some bytes, eattachments⟩ = _
          simp [EnvelopeParts.finish, hversion]
        refine minds_call trivial fun _ _ => ?_
        refine (Minds.of_free _).bind fun _ h' _ _ => ?_
        refine writeIndex_reads.bind fun _ h' _ hw => Minds.pure ?_
        exact ⟨m, _, _, hm, hread, ⟨rfl, hdump, hattachments⟩, hw⟩

/-- **The two readers agree.** Whatever the world an upload runs in, if it is answered 201 then the
last it did was to write an index, and `read_from` reads the same parts, in whatever chunks they
come, as the report that this index describes. -/
theorem readers_agree {σ : Type} (M : Nat → Machine serverInterface σ) {token : TokenContext} {headers : Headers}
    {body : Body} {s t : Recorded serverInterface ι σ} {response : CrashResponse}
    (h : (crashesInner C state token headers body).run.run (record M i) s = some (.ok (201, response), t)) :
    ∃ m e index new, openMultipart C headers body = .ok m ∧ t.history = new ++ s.history ∧
      IndexWritten C state i index new ∧ index.Describes C e ∧
      ∀ n, m.Same n → CrashEnvelope.readFields C.json n = .ok e := by
  obtain ⟨new, hnew, hq⟩ := Obeys.run (h := []) crashesInner_reads h
  obtain ⟨m, e, index, hm, hread, hdescribes, hw⟩ := hq _ rfl
  rw [List.append_nil] at hw
  exact ⟨m, e, index, new, hm, hnew, hw, hdescribes, fun n hn =>
    (CrashEnvelope.readFields_same C.json hn).trans hread⟩

end Upload

open CrashSystem

/-- The upload of `abc` to a store. -/
def sendAbc (w : ServerState Unit) : Option (Except CrashError (Nat × CrashResponse) × ServerState Unit) :=
  (crashesInner abcCrates abcApp abcToken abcHeaders ⟨[abcBody], false⟩).run.run (record (World.exec abcEnv) ()) w

theorem abc_accepted : (sendAbc emptyState).map Prod.fst = some (.ok (201, ⟨abcDigest.hex, false⟩)) := by decide +kernel

theorem readers_agree_abc : ∃ response t, sendAbc emptyState = some (.ok (201, response), t) ∧ ∃ e,
    CrashEnvelope.readFields abcCrates.json (abcCrates.multipart "X" ⟨[abcBody], false⟩) =
      .ok e := by
  obtain ⟨⟨r, t⟩, ht, hr⟩ := Option.map_eq_some_iff.mp abc_accepted
  obtain rfl : r = _ := hr
  obtain ⟨m, e, index, new, hm, -, -, -, hread⟩ := readers_agree (World.exec abcEnv) ht
  obtain rfl : abcCrates.multipart "X" _ = m := Except.ok.inj hm
  exact ⟨_, t, ht, e, hread _ ⟨List.forall₂_same.mpr fun _ _ => ⟨rfl, rfl, rfl, rfl⟩, rfl⟩⟩

end Detritus.Server
