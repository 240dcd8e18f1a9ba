import Detritus.Server.UploadRun

/-! The grammar of an upload.

The verdict on a body is favourable exactly for bodies of the documented form: the
metadata first, one dump, attachments, each within its limit. Neither it nor the index
depends on the chunks in which the parts come. -/
namespace Detritus.Server
open Files Protocol Process
variable {metadata : CrashMetadata} {f : Field}

/-! ### Parts -/

/-- The dumps among parts. -/
abbrev dumps (fs : List Field) : List Field := fs.filter Field.isDump

theorem attachment_of_isDump (h : f.isDump = true) : attachmentOf f = none := by
  rw [attachmentOf, Field.isAttachment_of_isDump h]
  rfl

/-- What the loop has taken when it is through. -/
theorem parts_taken {max : Nat} {fs : List Field} {taken taken' : Option Bytes × List CrashAttachment}
    (h : fs.foldlM (takePart max) taken = .ok taken') :
    (∀ f ∈ fs, (f.isDump = true ∨ ∃ a, attachmentOf f = some a) ∧ Whole max f) ∧
      taken'.2 = taken.2 ++ fs.filterMap attachmentOf ∧
      taken'.1.toList = taken.1.toList ++ (dumps fs).map Field.bytes := by
  induction fs generalizing taken with
  | nil =>
    obtain rfl := Except.ok.inj h
    simp
  | cons f rest ih =>
    rw [List.foldlM_cons] at h
    obtain ⟨next, htake, hrest⟩ := of_bind_ok h
    obtain ⟨hall, hattachments, hdumps⟩ := ih hrest
    obtain ⟨hwhole, ⟨hdump, hnone, rfl⟩ | ⟨a, ha, rfl⟩⟩ := takePart_ok_iff.mp htake
    · refine ⟨?_, ?_, ?_⟩
      · exact List.forall_mem_cons.mpr ⟨⟨.inl hdump, hwhole⟩, hall⟩
      · rw [hattachments, List.filterMap_cons_none (attachment_of_isDump hdump)]
      · rw [hdumps, hnone, dumps, dumps, List.filter_cons_of_pos hdump]
        rfl
    · refine ⟨?_, ?_, ?_⟩
      · exact List.forall_mem_cons.mpr ⟨⟨.inr ⟨a, ha⟩, hwhole⟩, hall⟩
      · rw [hattachments, List.filterMap_cons_some ha]
        simp
      · rw [hdumps, dumps, dumps, List.filter_cons_of_neg (by simp [isDump_of_attachment ha])]

/-- Parts that are all right are taken, as long as there is no second dump. -/
theorem parts_ok {max : Nat} {fs : List Field} (taken : Option Bytes × List CrashAttachment)
    (hall : ∀ f ∈ fs, (f.isDump = true ∨ ∃ a, attachmentOf f = some a) ∧ Whole max f)
    (hone : taken.1.toList.length + (dumps fs).length ≤ 1) :
    ∃ taken', fs.foldlM (takePart max) taken = .ok taken' := by
  induction fs generalizing taken with
  | nil => exact ⟨taken, rfl⟩
  | cons f rest ih =>
    obtain ⟨⟨hkind, hwhole⟩, hall⟩ := List.forall_mem_cons.mp hall
    have hnext : ∀ next, takePart max taken f = .ok next → next.1.toList.length + (dumps rest).length ≤ 1 →
        ∃ taken', (f :: rest).foldlM (takePart max) taken = .ok taken' := by
      intro next htake hone
      rw [List.foldlM_cons, htake]
      exact ih next hall hone
    rcases hkind with hdump | ⟨a, ha⟩
    · rw [dumps, List.filter_cons_of_pos hdump, List.length_cons] at hone
      have hnone : taken.1 = none := by
        cases htaken : taken.1 with
        | none => rfl
        | some b =>
          rw [htaken] at hone
          simp at hone
      apply hnext _ (takePart_ok_iff.mpr ⟨hwhole, .inl ⟨hdump, hnone, rfl⟩⟩)
      rw [hnone] at hone
      simp at hone ⊢
      exact hone
    · apply hnext _ (takePart_ok_iff.mpr ⟨hwhole, .inr ⟨a, ha, rfl⟩⟩)
      rw [dumps, List.filter_cons_of_neg (by simp [isDump_of_attachment ha])] at hone
      exact hone

/-! ### The metadata -/

/-- Reading the chunks one by one comes to a limit on all of them. -/
theorem metadataBytes_eq (failure : Option MultipartError) (chunks : List Bytes) {bytes : Bytes}
    (h : bytes.length ≤ METADATA_MAX_BYTES) :
    metadataBytes failure chunks bytes = limited METADATA_MAX_BYTES failure (bytes ++ chunks.flatten) := by
  induction chunks generalizing bytes with
  | nil =>
    have hle := Nat.not_lt.mpr h
    cases failure <;> simp [metadataBytes, limited, hle]
  | cons chunk rest ih =>
    unfold metadataBytes
    by_cases hover : METADATA_MAX_BYTES < bytes.length + chunk.length
    · have hlong : METADATA_MAX_BYTES < (bytes ++ (chunk :: rest).flatten).length := by
        simp only [List.length_append, List.flatten_cons]
        omega
      have hlimited : limited METADATA_MAX_BYTES failure (bytes ++ (chunk :: rest).flatten) =
          .error (.payloadTooLarge METADATA_MAX_BYTES) := if_pos hlong
      rw [if_pos hover, hlimited]
    · rw [if_neg hover, ih (by rw [List.length_append]; omega), List.flatten_cons, List.append_assoc]

theorem readMetadata_eq (C : Crates) (f : Field) : readMetadata C f =
    (limited METADATA_MAX_BYTES f.failure f.bytes).bind fun bytes => (C.json.metadata bytes).mapError .json := by
  unfold readMetadata
  rw [metadataBytes_eq f.failure f.chunks (Nat.zero_le _), List.nil_append]
  rfl

theorem readMetadata_ok_iff {C : Crates} :
    readMetadata C f = .ok metadata ↔ Whole METADATA_MAX_BYTES f ∧ C.json.metadata f.bytes = .ok metadata := by
  rw [readMetadata_eq]
  constructor
  · intro h
    obtain ⟨bytes, hbytes, hm⟩ := of_bind_ok h
    obtain ⟨hfailure, hsize, rfl⟩ := limited_ok_iff.mp hbytes
    refine ⟨⟨hfailure, hsize⟩, ?_⟩
    cases hj : C.json.metadata f.bytes with
    | error e => rw [hj] at hm; cases hm
    | ok m =>
      rw [hj] at hm
      rw [Except.ok.inj hm]
  · intro ⟨hwhole, hj⟩
    rw [limited_ok_iff.mpr ⟨hwhole.failure, hwhole.size, rfl⟩]
    show (C.json.metadata f.bytes).mapError CrashError.json = _
    rw [hj]
    rfl

/-- A body begins with its metadata. -/
theorem readFirst_ok_iff {C : Crates} {m : Multipart} {rest : List Field} :
    readFirst C m = .ok (metadata, rest) ↔ ∃ first, m.fields = first :: rest ∧ first.name = some "metadata" ∧
      Whole METADATA_MAX_BYTES first ∧ C.json.metadata first.bytes = .ok metadata := by
  unfold readFirst
  cases m.fields with
  | nil => cases m.failure <;> simp
  | cons f fs =>
    by_cases hname : f.name = some "metadata"
    · simp only [hname, ne_eq, not_true_eq_false, if_false, ← readMetadata_ok_iff]
      cases hread : readMetadata C f with
      | error e => simp [Except.map, hread]
      | ok x => simp [Except.map, hname, hread, and_comm]
    · simp only [hname, ne_eq, not_false_eq_true, if_true]
      constructor
      · intro h
        cases h
      · rintro ⟨first, heq, hfirst, -⟩
        rw [(List.cons.inj heq).1] at hname
        exact absurd hfirst hname

/-- Sources are admitted for the version, the key and the token. -/
theorem admitSource_ok_iff {token : TokenContext} {source : SourceKey} :
    admitSource token metadata = .ok source ↔ metadata.schemaVersion = PROTOCOL_VERSION ∧
      SourceKey.new metadata.source.project metadata.source.installId.toString = .ok source ∧
      token.permits source = true := by
  unfold admitSource
  by_cases hv : metadata.schemaVersion = PROTOCOL_VERSION
  · rw [if_neg (not_not.mpr hv)]
    cases hn : SourceKey.new metadata.source.project metadata.source.installId.toString with
    | error e => simp
    | ok k =>
      dsimp only
      constructor
      · intro h
        split at h
        · next hp =>
          obtain rfl := Except.ok.inj h
          exact ⟨hv, rfl, hp⟩
        · cases h
      · rintro ⟨-, hk, hp⟩
        obtain rfl := Except.ok.inj hk
        rw [if_pos hp]
  · rw [if_pos hv]
    simp [hv]

/-! ### The whole body -/

section Body
variable {C : Crates} {state : AppState} {token : TokenContext} {admitted : SourceKey → Bool} {m n : Multipart}

/-- The form of a body that is accepted: its metadata, and the parts after it. `admitted` is what the
limiter says of a source. -/
structure Grammatical (C : Crates) (state : AppState) (token : TokenContext) (admitted : SourceKey → Bool)
    (m : Multipart) (metadata : CrashMetadata) (rest : List Field) : Prop where
  ended : m.failure = none
  first : ∃ first, m.fields = first :: rest ∧ first.name = some "metadata" ∧
    Whole METADATA_MAX_BYTES first ∧ C.json.metadata first.bytes = .ok metadata
  version : metadata.schemaVersion = PROTOCOL_VERSION
  source : ∃ source, SourceKey.new metadata.source.project metadata.source.installId.toString = .ok source ∧
    token.permits source = true ∧ admitted source = true
  schema : ∀ errorsOf, state.schemaRegistry.schemas metadata.source.project .crashMetadata = some errorsOf →
    errorsOf metadata.toJson = []
  parts : ∀ f ∈ rest, (f.isDump = true ∨ f.isAttachment = true) ∧ Whole state.maxDumpBytes f
  oneDump : (dumps rest).length = 1

/-- The verdict takes each step of the endpoint once. -/
theorem verdict_ok_iff {e : CrashEnvelope} : verdict C state token admitted m = .ok e ↔
    ∃ rest, readFirst C m = .ok (e.metadata, rest) ∧
      (∃ source, admitSource token e.metadata = .ok source ∧ admitted source = true) ∧
      state.schemaRegistry.validate e.metadata.source.project .crashMetadata e.metadata.toJson = .ok () ∧
      rest.foldlM (takePart state.maxDumpBytes) (none, []) = .ok (some e.dump, e.attachments) ∧
      m.failure = none := by
  constructor
  · intro h
    obtain ⟨⟨metadata, rest⟩, hfirst, h⟩ := of_bind_ok h
    obtain ⟨source, hsource, h⟩ := of_bind_ok h
    cases hadmits : admitted source with
    | false => rw [hadmits] at h; cases h
    | true =>
    rw [hadmits] at h
    simp only [Bool.not_true, Bool.false_eq_true, if_false] at h
    cases hvalid : state.schemaRegistry.validate metadata.source.project .crashMetadata metadata.toJson with
    | error error => rw [hvalid] at h; cases h
    | ok _ =>
    rw [hvalid] at h
    obtain ⟨⟨dump, attachments⟩, hfold, h⟩ := of_bind_ok h
    cases hfailure : m.failure with
    | some error => rw [hfailure] at h; cases h
    | none =>
    rw [hfailure] at h
    cases dump with
    | none => cases h
    | some dump =>
    obtain rfl := Except.ok.inj h
    exact ⟨rest, hfirst, ⟨source, hsource, hadmits⟩, hvalid, hfold, rfl⟩
  · rintro ⟨rest, hfirst, ⟨source, hsource, hadmits⟩, hvalid, hfold, hfailure⟩
    unfold verdict
    rw [hfirst, ok_bind]
    dsimp only
    rw [hsource, ok_bind, hadmits, hvalid]
    simp only [Bool.not_true, Bool.false_eq_true, if_false]
    rw [hfold, ok_bind]
    dsimp only
    rw [hfailure]
    rfl

/-- **The verdict is favourable exactly for the grammar.** -/
theorem accepted_iff_grammatical (C : Crates) (state : AppState) (token : TokenContext) (admitted : SourceKey → Bool)
    (m : Multipart) : (∃ e, verdict C state token admitted m = .ok e) ↔
      ∃ metadata rest, Grammatical C state token admitted m metadata rest := by
  constructor
  · rintro ⟨e, he⟩
    obtain ⟨rest, hfirst, ⟨source, hsource, hadmits⟩, hvalid, hfold, hfailure⟩ := verdict_ok_iff.mp he
    obtain ⟨hversion, hnew, hpermits⟩ := admitSource_ok_iff.mp hsource
    obtain ⟨hparts, -, hone⟩ := parts_taken hfold
    refine ⟨e.metadata, rest, hfailure, readFirst_ok_iff.mp hfirst, hversion, ⟨source, hnew, hpermits, hadmits⟩,
      validate_ok_iff.mp hvalid, ?_, ?_⟩
    · intro f hf
      rw [isAttachment_iff]
      exact hparts f hf
    · simpa using (congrArg List.length hone).symm
  · rintro ⟨metadata, rest, hg⟩
    obtain ⟨source, hnew, hpermits, hadmits⟩ := hg.source
    have hall : ∀ f ∈ rest, (f.isDump = true ∨ ∃ a, attachmentOf f = some a) ∧ Whole state.maxDumpBytes f := by
      intro f hf
      rw [← isAttachment_iff]
      exact hg.parts f hf
    obtain ⟨⟨dump, attachments⟩, hfold⟩ := parts_ok (none, []) hall (by simp [hg.oneDump])
    obtain ⟨-, -, hone⟩ := parts_taken hfold
    obtain ⟨d, hd⟩ := List.length_eq_one_iff.mp hg.oneDump
    rw [hd] at hone
    cases dump with
    | none => cases hone
    | some dump =>
      refine ⟨⟨metadata, dump, attachments⟩, verdict_ok_iff.mpr ⟨rest, readFirst_ok_iff.mpr hg.first, ⟨source, ?_, hadmits⟩,
        validate_ok_iff.mpr hg.schema, hfold, hg.ended⟩⟩
      exact admitSource_ok_iff.mpr ⟨hg.version, hnew, hpermits⟩

/-! ### Chunks -/

/-- The same parts in other chunks. -/
structure Rechunked (m n : Multipart) : Prop where
  fields : List.Forall₂ (fun f g => f.Same g ∧ g.contentEncoding = f.contentEncoding) m.fields n.fields
  failure : n.failure = m.failure

/-- How the bytes are cut into chunks makes no difference. -/
theorem takePart_same (max : Nat) (taken : Option Bytes × List CrashAttachment) {f g : Field} (h : f.Same g) :
    takePart max taken g = takePart max taken f := by
  unfold takePart
  rw [h.name, h.contentType, h.bytes, h.failure]

theorem parts_same (max : Nat) (taken : Option Bytes × List CrashAttachment) {fs gs : List Field}
    (h : List.Forall₂ (fun f g => f.Same g ∧ g.contentEncoding = f.contentEncoding) fs gs) :
    gs.foldlM (takePart max) taken = fs.foldlM (takePart max) taken := by
  induction h generalizing taken with
  | nil => rfl
  | cons hf _ ih =>
    rw [List.foldlM_cons, List.foldlM_cons, takePart_same max taken hf.1]
    exact bind_congr ih

theorem pointTo_same (P : StoragePaths) (known : Sha256 → Bool) (r : Option BlobPointer × List AttachmentPointer)
    {f g : Field} (h : f.Same g) (he : g.contentEncoding = f.contentEncoding) :
    pointTo C P known g r = pointTo C P known f r := by
  unfold pointTo blobPointer attachmentPointer attachKey Field.isDump
  rw [h.name, h.contentType, h.bytes, he]

theorem pointers_same (P : StoragePaths) (known : Sha256 → Bool) (r : Option BlobPointer × List AttachmentPointer)
    {fs gs : List Field}
    (h : List.Forall₂ (fun f g => f.Same g ∧ g.contentEncoding = f.contentEncoding) fs gs) :
    pointers C P known gs r = pointers C P known fs r := by
  induction h generalizing known r with
  | nil => rfl
  | cons hf _ ih =>
    rw [pointers, pointers, pointTo_same P known r hf.1 hf.2, hf.1.bytes]
    exact ih ..

/-- Nor does it for the whole body. -/
theorem verdict_rechunked (h : Rechunked m n) :
    verdict C state token admitted n = verdict C state token admitted m := by
  obtain ⟨fs, failure⟩ := m
  obtain ⟨gs, failure'⟩ := n
  obtain ⟨hfields, rfl⟩ := h
  dsimp only at hfields
  cases hfields with
  | nil => rfl
  | @cons f g fs gs hf hrest =>
    have hread : readMetadata C g = readMetadata C f := by
      rw [readMetadata_eq, readMetadata_eq, hf.1.bytes, hf.1.failure]
    unfold verdict readFirst
    dsimp only
    rw [hf.1.name, hread]
    split
    · rfl
    · cases readMetadata C f with
      | error e => rfl
      | ok metadata =>
        show (do let source ← admitSource token metadata; _) = (do let source ← admitSource token metadata; _)
        simp only [parts_same _ _ hrest]

/-! ### Runs -/

/-- What an upload is answered whose index is written. -/
def CrashIndex.response (index : CrashIndex) : Nat × CrashResponse := (201, ⟨index.dump.sha256, index.dump.dedup⟩)

/-- What a run leaves below `by-source`: its index, or nothing. -/
def Leaves (C : Crates) (state : AppState) {ι : Type} (answer : Except CrashError CrashIndex)
    (w t : ServerState ι) : Prop :=
  match answer with
  | .error _ => Calm state w t
  | .ok index =>
    AddsIndex state.storage (index.path state.storage) (C.json.writePretty index.toJson) w.state.disk t.state.disk

/-- **The endpoint accepts exactly its grammar.** For a sequence of parts and a state there is one answer,
whatever the chunks: the upload is accepted if and only if the parts have the form, and then the index says
what they are, the attachments in their order. One that is accepted leaves its index, others leave nothing. -/
theorem accepts_exactly_its_grammar {ι : Type} (C : Crates) (state : AppState) (token : TokenContext) (env : Env) (i : ι)
    (m : Multipart) (w : ServerState ι) :
    ∃ answer : Except CrashError CrashIndex,
      ((∃ index, answer = .ok index) ↔
        ∃ metadata rest, Grammatical C state token (admits env state token w) m metadata rest) ∧
      (∀ index, answer = .ok index → ∃ metadata rest dump,
        Grammatical C state token (admits env state token w) m metadata rest ∧ dumps rest = [dump] ∧
        index.Describes C ⟨metadata, dump.bytes, rest.filterMap attachmentOf⟩) ∧
      ∀ headers body n, openMultipart C headers body = .ok n → Rechunked m n →
        Ready env state.storage (w.history.length + uploadCalls n) w →
        ∃ t, (crashesInner C state token headers body).alone env i w = some (answer.map CrashIndex.response, t) ∧
          Leaves C state answer w t := by
  have hiff := accepted_iff_grammatical C state token (admits env state token w) m
  cases hv : verdict C state token (admits env state token w) m with
  | error e =>
    refine ⟨.error e, ?_, nofun, ?_⟩
    · rw [← hiff, hv]
      simp
    · intro headers body n hn hsame hready
      obtain ⟨r, t, hrun, hout, -, -⟩ := crashesInner_alone (i := i) token hn w hready (Nat.le_refl _)
      rw [verdict_rechunked hsame, hv] at hout
      obtain ⟨rfl, hcalm⟩ := hout
      exact ⟨t, hrun, hcalm⟩
  | ok e =>
    obtain ⟨rest, hfirst, -, -, hfold, -⟩ := verdict_ok_iff.mp hv
    obtain ⟨first, hfields, -⟩ := readFirst_ok_iff.mp hfirst
    have hnothing : Kept C (none, []) (none, []) := ⟨.none, .nil⟩
    have hkept := hnothing.pointers state.storage (knows state.storage w.state.disk) rest hfold
    cases hp : pointers C state.storage (knows state.storage w.state.disk) rest (none, []) with
    | mk dump as =>
    rw [hp] at hkept
    obtain ⟨hdump, hattachments⟩ := hkept
    cases hdump with
    | @some p _ hdump =>
    refine ⟨.ok ⟨e.metadata, p, as⟩, ?_, ?_, ?_⟩
    · rw [← hiff, hv]
      simp
    · intro index hindex
      obtain rfl := Except.ok.inj hindex
      obtain ⟨metadata, rest', hg⟩ := hiff.mp ⟨e, hv⟩
      obtain ⟨d, hd⟩ := List.length_eq_one_iff.mp hg.oneDump
      obtain ⟨hmetadata, rfl⟩ := Prod.mk.inj (Except.ok.inj (hfirst.symm.trans (readFirst_ok_iff.mpr hg.first)))
      obtain ⟨-, htaken, hone⟩ := parts_taken hfold
      rw [hd] at hone
      obtain hone : e.dump = d.bytes := (List.cons.inj hone).1
      refine ⟨metadata, rest, d, hg, hd, hmetadata, hone ▸ hdump, ?_⟩
      rw [← show e.attachments = rest.filterMap attachmentOf from htaken]
      exact hattachments
    · intro headers body n hn hsame hready
      obtain ⟨r, t, hrun, hout, -, -⟩ := crashesInner_alone (i := i) token hn w hready (Nat.le_refl _)
      rw [verdict_rechunked hsame, hv] at hout
      obtain ⟨⟨metadata, dump, attachments⟩, hdescribes, hpointers, rfl, -, hadds⟩ := hout
      have htail : List.Forall₂ (fun f g => f.Same g ∧ g.contentEncoding = f.contentEncoding) rest n.fields.tail := by
        have hall := hsame.fields
        rw [hfields] at hall
        obtain ⟨g, gs, -, hrest, heq⟩ := List.forall₂_cons_left_iff.mp hall
        rw [heq]
        exact hrest
      rw [pointers_same _ _ _ htail, hp] at hpointers
      obtain ⟨hd, rfl⟩ := Prod.mk.inj hpointers
      obtain rfl := Option.some.inj hd
      obtain rfl : metadata = e.metadata := hdescribes.metadata
      exact ⟨t, hrun, hadds⟩

end Body

open CrashSystem

theorem abc_ready : Ready abcEnv abcApp.storage 256 emptyState where
  numbered := nofun
  supply _ _ hn := ⟨_, if_pos hn, rfl⟩

theorem accepts_exactly_its_grammar_abc : ∃ index t, sendAbc emptyState = some (.ok (CrashIndex.response index), t) ∧
    t.state.disk.content (index.path ⟨["data"]⟩) = some (abcCrates.json.writePretty index.toJson) := by
  obtain ⟨answer, -, -, hruns⟩ := accepts_exactly_its_grammar abcCrates abcApp abcToken abcEnv ()
    (abcCrates.multipart "X" ⟨[abcBody], false⟩) emptyState
  obtain ⟨t, ht, hleaves⟩ := hruns abcHeaders ⟨[abcBody], false⟩ _ rfl
    ⟨List.forall₂_same.mpr fun _ _ => ⟨⟨rfl, rfl, rfl, rfl⟩, rfl⟩, rfl⟩
    ⟨abc_ready.numbered, fun n h hn => abc_ready.supply n h (Nat.lt_of_lt_of_le hn (by decide))⟩
  have ht : sendAbc emptyState = some (answer.map CrashIndex.response, t) := ht
  cases answer with
  | error e =>
    have h := abc_accepted
    rw [ht] at h
    cases h
  | ok index => exact ⟨index, t, ht, hleaves.content⟩

end Detritus.Server
