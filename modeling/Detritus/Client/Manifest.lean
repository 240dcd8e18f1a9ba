import Detritus.Client.Entry

/-! What is read of an entry that was captured.

The manifests of an entry name its files, and reading gives under each name the file that
was written last. So what was captured is read back where files of one name do not differ
(`read_back_iff`). A manifest states the size of the file that is read for it, with one
exception: the size of the upload configuration is taken from its compact text and the
file holds the pretty one (`sizes_true_iff`). -/
namespace Detritus.Client
open Files Protocol Process
variable {m : AttachmentManifest}

/-! ### Reading by manifest -/

section Manifests
variable {content : Path → Option Bytes} {entry : Path}

/-- What is read for a manifest whose file is there. -/
def attachmentFor (content : Path → Option Bytes) (entry : Path) (m : AttachmentManifest) : CrashAttachment :=
  ⟨m.key, m.contentType, (m.filename.bind fun filename => content (entry.join filename)).getD []⟩

theorem attachmentsAt_present {ms : List AttachmentManifest}
    (h : ∀ m ∈ ms, ∃ filename bytes, m.filename = some filename ∧ content (entry.join filename) = some bytes) :
    attachmentsAt content entry ms = .ok (ms.map (attachmentFor content entry)) := by
  induction ms with
  | nil => rfl
  | cons m rest ih =>
    obtain ⟨filename, bytes, hname, hbytes⟩ := h m (.head _)
    have hread : readAt content (entry.join filename) = .ok bytes := by
      rw [readAt, hbytes]
      rfl
    have hfor : attachmentFor content entry m = ⟨m.key, m.contentType, bytes⟩ := by
      rw [attachmentFor, hname, Option.bind_some, hbytes]
      rfl
    unfold attachmentsAt
    rw [hname]
    dsimp only
    rw [hread, ih fun m hm => h m (.tail _ hm), List.map_cons, hfor]
    rfl

end Manifests

/-! ### The files of an entry by name -/

section Captured
variable {C : Crates} {config : PanicHookConfig} {capture : Capture} {before content : Path → Option Bytes} {now : Time}
  {dump : Bytes} {entry : Path} {name : String}

variable (C config) in
/-- The metadata of the entry. -/
def Capture.storedMetadata (capture : Capture) (before : Path → Option Bytes) (now : Time) : CrashMetadata :=
  capture.metadata C config now (contextManifests before 0 config.contextFiles)

theorem files_reverse : (capture.files C config before now dump).reverse =
    [("sdk-config.json", C.json.writePretty (StoredUploadConfig.fromConfig config).toJson), ("dump.bin", dump),
      ("metadata.json", C.json.writePretty (capture.storedMetadata C config before now).toJson)] ++
      (contextCopies before 0 config.contextFiles).reverse := by
  rw [Capture.files, List.reverse_append]
  rfl

/-- The files that a capture writes itself are there. -/
theorem own_files {bytes : Bytes}
    (h : (name, bytes) ∈ ownFiles C config (capture.storedMetadata C config before now) dump) :
    (capture.files C config before now dump).reverse.lookup name = some bytes := by
  rw [files_reverse]
  rcases List.mem_cons.mp h with h | h
  · rw [(Prod.mk.inj h).1, (Prod.mk.inj h).2]
    rfl
  · rcases List.mem_cons.mp h with h | h
    · rw [(Prod.mk.inj h).1, (Prod.mk.inj h).2]
      rfl
    · have h := List.mem_singleton.mp h
      rw [(Prod.mk.inj h).1, (Prod.mk.inj h).2]
      rfl

/-- Under the name of a context file some file is there. -/
theorem lookup_of_copy {a : Bytes} (ha : (name, a) ∈ contextCopies before 0 config.contextFiles) :
    ∃ b, (capture.files C config before now dump).reverse.lookup name = some b ∧
      (name, b) ∈ capture.files C config before now dump := by
  have hmem : (name, a) ∈ (capture.files C config before now dump).reverse :=
    List.mem_reverse.mpr (List.mem_append_left _ ha)
  cases hlookup : (capture.files C config before now dump).reverse.lookup name with
  | none => exact absurd (List.lookup_eq_none_iff.mp hlookup _ hmem) (by simp)
  | some b =>
    obtain ⟨l, l', hl, -⟩ := List.lookup_eq_some_iff.mp hlookup
    refine ⟨b, rfl, ?_⟩
    rw [← List.mem_reverse, hl]
    exact List.mem_append_right _ (.head _)

/-- No file of the entry takes the place of a context file with other bytes. -/
def Agreeing (C : Crates) (config : PanicHookConfig) (capture : Capture) (before : Path → Option Bytes) (now : Time)
    (dump : Bytes) : Prop :=
  ∀ name a b, (name, a) ∈ contextCopies before 0 config.contextFiles →
    (name, b) ∈ capture.files C config before now dump → a = b

theorem agreeing_iff : Agreeing C config capture before now dump ↔
    ∀ name a, (name, a) ∈ contextCopies before 0 config.contextFiles →
      (capture.files C config before now dump).reverse.lookup name = some a := by
  constructor
  · intro h name a ha
    obtain ⟨b, hlookup, hb⟩ := lookup_of_copy ha
    rw [hlookup, h name a b ha hb]
  · intro h name a b ha hb
    have hname := h name a ha
    rcases List.mem_append.mp hb with hb | hb
    · exact Option.some.inj (hname.symm.trans (h name b hb))
    · exact Option.some.inj (hname.symm.trans (own_files hb))

/-! ### Reading a captured entry -/

theorem contextCopies_eq (before : Path → Option Bytes) (index : Nat) (files : List String) :
    contextCopies before index files = (files.zipIdx index).map fun f =>
      (contextName f.2 (components f.1), bytesAt before (components f.1)) := by
  induction files generalizing index with
  | nil => rfl
  | cons text rest ih => rw [contextCopies, ih, List.zipIdx_cons, List.map_cons]

theorem contextManifests_eq (before : Path → Option Bytes) (index : Nat) (files : List String) :
    contextManifests before index files = (files.zipIdx index).map fun f =>
      contextManifest f.2 (components f.1) (bytesAt before (components f.1)) := by
  induction files generalizing index with
  | nil => rfl
  | cons text rest ih => rw [contextManifests, ih, List.zipIdx_cons, List.map_cons]

theorem mem_contextCopies {files : List String} {f : String × Bytes} : f ∈ contextCopies before 0 files ↔
    ∃ (index : Nat) (text : String), files[index]? = some text ∧
      (contextName index (components text), bytesAt before (components text)) = f := by
  rw [contextCopies_eq, List.mem_map]
  constructor
  · rintro ⟨⟨text, index⟩, hmem, rfl⟩
    exact ⟨index, text, List.mem_zipIdx_iff_getElem?.mp hmem, rfl⟩
  · rintro ⟨index, text, hget, rfl⟩
    exact ⟨(text, index), List.mem_zipIdx_iff_getElem?.mpr hget, rfl⟩

theorem mem_contextManifests {files : List String} : m ∈ contextManifests before 0 files ↔
    ∃ (index : Nat) (text : String), files[index]? = some text ∧
      contextManifest index (components text) (bytesAt before (components text)) = m := by
  rw [contextManifests_eq, List.mem_map]
  constructor
  · rintro ⟨⟨text, index⟩, hmem, rfl⟩
    exact ⟨index, text, List.mem_zipIdx_iff_getElem?.mp hmem, rfl⟩
  · rintro ⟨index, text, hget, rfl⟩
    exact ⟨(text, index), List.mem_zipIdx_iff_getElem?.mpr hget, rfl⟩

theorem mem_storedMetadata :
    m ∈ (capture.storedMetadata C config before now).attachments ↔
      (∃ info, capture = .crash info) ∧ m = sdkConfigManifest C config ∨
        m ∈ contextManifests before 0 config.contextFiles := by
  cases capture with
  | crash info =>
    show m ∈ sdkConfigManifest C config :: contextManifests before 0 config.contextFiles ↔ _
    simp
  | minidump d =>
    show m ∈ contextManifests before 0 config.contextFiles ↔ _
    simp

section Reading
variable (hcontent : content = stored entry (capture.files C config before now dump) before)
include hcontent

/-- The file that is there under the name of a file of the entry. -/
theorem content_join {bytes : Bytes} (hname : Component name)
    (h : (capture.files C config before now dump).reverse.lookup name = some bytes) :
    content (entry.join name) = some bytes := by
  rw [hcontent, hname.join, stored_apply, h]
  rfl

theorem metadata_there : content (entry.join "metadata.json") =
    some (C.json.writePretty (capture.storedMetadata C config before now).toJson) :=
  content_join hcontent component_names.1 (own_files (.head _))

theorem dump_there : content (entry.join "dump.bin") = some dump :=
  content_join hcontent component_names.2.1 (own_files (List.mem_cons_of_mem _ (.head _)))

theorem sdkConfig_there : content (entry.join "sdk-config.json") =
    some (C.json.writePretty (StoredUploadConfig.fromConfig config).toJson) :=
  content_join hcontent component_names.2.2
    (own_files (List.mem_cons_of_mem _ (List.mem_cons_of_mem _ (.head _))))

/-- Every manifest names a file that is there. -/
theorem manifest_there (h : m ∈ (capture.storedMetadata C config before now).attachments) :
    ∃ filename bytes, m.filename = some filename ∧ content (entry.join filename) = some bytes := by
  rcases mem_storedMetadata.mp h with ⟨-, rfl⟩ | h
  · exact ⟨_, _, rfl, sdkConfig_there hcontent⟩
  · obtain ⟨index, text, hget, rfl⟩ := mem_contextManifests.mp h
    have hcopy : (_, bytesAt before (components text)) ∈ contextCopies before 0 config.contextFiles :=
      mem_contextCopies.mpr ⟨index, text, hget, rfl⟩
    obtain ⟨bytes, hlookup, -⟩ := lookup_of_copy hcopy
    exact ⟨_, bytes, rfl, content_join hcontent (contextName_component index text) hlookup⟩

/-- What is read of a captured entry. -/
theorem envelopeAt_captured {m : CrashMetadata}
    (hm : C.json.metadata (C.json.writePretty (capture.storedMetadata C config before now).toJson) = .ok m)
    (hattachments : m.attachments = (capture.storedMetadata C config before now).attachments) :
    envelopeAt C content entry = .ok ⟨m, dump, m.attachments.map (attachmentFor content entry)⟩ := by
  unfold envelopeAt readAt
  rw [metadata_there hcontent, dump_there hcontent]
  show (C.json.metadata _).mapError _ >>= _ = _
  rw [hm]
  show attachmentsAt content entry m.attachments >>= _ = _
  rw [attachmentsAt_present fun m' hm' => manifest_there hcontent (hattachments ▸ hm')]
  rfl

/-- An envelope that is read has the metadata that the text gives. -/
theorem metadata_of_envelopeAt {e : CrashEnvelope} (h : envelopeAt C content entry = .ok e) :
    C.json.metadata (C.json.writePretty (capture.storedMetadata C config before now).toJson) = .ok e.metadata := by
  unfold envelopeAt readAt at h
  rw [metadata_there hcontent, dump_there hcontent] at h
  have h : ((C.json.metadata _).mapError _ >>= _) = _ := h
  cases hm : C.json.metadata (C.json.writePretty (capture.storedMetadata C config before now).toJson) with
  | error e =>
    rw [hm] at h
    cases h
  | ok m =>
    rw [hm] at h
    have h : (attachmentsAt content entry m.attachments >>= _) = _ := h
    cases ha : attachmentsAt content entry m.attachments with
    | error e =>
      rw [ha] at h
      cases h
    | ok attachments =>
      rw [ha] at h
      rw [← Except.ok.inj h]

/-- The bytes that are read for a context file are its own, where files of one name agree. -/
theorem attachmentFor_context (hagree : Agreeing C config capture before now dump) {index : Nat} {text : String}
    (hget : config.contextFiles[index]? = some text) :
    attachmentFor content entry (contextManifest index (components text) (bytesAt before (components text))) =
      ⟨"context-" ++ toString index, "application/json", bytesAt before (components text)⟩ := by
  have hlookup := agreeing_iff.mp hagree _ _ (mem_contextCopies.mpr ⟨index, text, hget, rfl⟩)
  have hthere := content_join hcontent (contextName_component index text) hlookup
  rw [attachmentFor, contextManifest, Option.bind_some, hthere]
  rfl

end Reading

end Captured

/-! ### What was captured is read back -/

section RoundTrip
variable {C : Crates} {config : PanicHookConfig} {capture : Capture} {before : Path → Option Bytes}
  {metadata : CrashMetadata} {dump : Bytes} {e : CrashEnvelope} {entry : Path}

/-- An envelope with what was captured. -/
structure Faithful (config : PanicHookConfig) (before : Path → Option Bytes) (metadata : CrashMetadata) (dump : Bytes)
    (e : CrashEnvelope) : Prop where
  metadata : e.metadata = metadata
  dump : e.dump = dump
  /-- There is one attachment for each context file, with its bytes. -/
  context : ∀ (index : Nat) (text : String), config.contextFiles[index]? = some text →
    (∃ a ∈ e.attachments, a.key = "context-" ++ toString index) ∧
      ∀ a ∈ e.attachments, a.key = "context-" ++ toString index → before (components text) = some a.bytes

theorem contextKey_inj {m n : Nat} (h : "context-" ++ toString m = "context-" ++ toString n) : m = n := by
  have h := congrArg String.toList h
  rw [String.toList_append, String.toList_append] at h
  have hdigits := List.append_cancel_left h
  rw [Nat.toString_eq_repr, Nat.toString_eq_repr, Nat.toList_repr, Nat.toList_repr] at hdigits
  rw [← Nat.ofDigitChars_ten_toDigits (n := m), hdigits, Nat.ofDigitChars_ten_toDigits]

theorem contextKey_ne (n : Nat) : "sdk-config" ≠ "context-" ++ toString n := by
  intro h
  have h := congrArg String.toList h
  rw [String.toList_append] at h
  exact absurd (congrArg List.head? h) (by simp)

/-- What a fault-free read of a captured entry gives. -/
def ReadsAs {ι : Type} (C : Crates) (i : ι) (entry : Path) (u : ClientState ι) (e : CrashEnvelope) : Prop :=
  ∀ env : Env, (∀ n, env.faults n = none) → Gives env i (readEnvelope C entry) u (.ok e)

theorem readsAs_iff {ι : Type} {i : ι} {u : ClientState ι} (env : Env) :
    ReadsAs C i entry u e ↔ envelopeAt C u.state.disk.content entry = .ok e := by
  constructor
  · intro h
    obtain ⟨v, hv, -⟩ := h {env with faults := fun _ => none} fun _ => rfl
    have hgives : Gives {env with faults := fun _ => none} i (readEnvelope C entry) u
        (envelopeAt C u.state.disk.content entry) := gives_readEnvelope C (fun _ => rfl) entry
    obtain ⟨v', hv', -⟩ := hgives
    exact congrArg Prod.fst (Option.some.inj (hv'.symm.trans hv))
  · intro h env' hfaults
    rw [← h]
    exact gives_readEnvelope C hfaults entry

/-- The condition is met where every file that is read is the one that was captured. -/
theorem agreeing_of_faithful {now : Time} {content : Path → Option Bytes}
    (hcontent : content = stored entry (capture.files C config before now dump) before)
    (hread : envelopeAt C content entry = .ok e)
    (he : Faithful config before (capture.storedMetadata C config before now) dump e) :
    Agreeing C config capture before now dump := by
  have hm := metadata_of_envelopeAt hcontent hread
  have hsame := envelopeAt_captured hcontent hm (congrArg CrashMetadata.attachments he.metadata)
  have hattachments : e.attachments = e.metadata.attachments.map (attachmentFor content entry) :=
    congrArg CrashEnvelope.attachments (Except.ok.inj (hread.symm.trans hsame))
  refine agreeing_iff.mpr fun name a ha => ?_
  obtain ⟨index, text, hget, heq⟩ := mem_contextCopies.mp ha
  obtain ⟨hname, hbytes⟩ := Prod.mk.inj heq
  let m := contextManifest index (components text) (bytesAt before (components text))
  have hmem : m ∈ (capture.storedMetadata C config before now).attachments :=
    mem_storedMetadata.mpr (.inr (mem_contextManifests.mpr ⟨index, text, hget, rfl⟩))
  have hin : attachmentFor content entry m ∈ e.attachments := by
    rw [hattachments, he.metadata]
    exact List.mem_map_of_mem hmem
  have hown : before (components text) = some (attachmentFor content entry m).bytes :=
    (he.context index text hget).2 _ hin rfl
  obtain ⟨b, hlookup, -⟩ := lookup_of_copy ha
  have hthere : content (entry.join name) = some b := by
    rw [← hname] at hlookup ⊢
    exact content_join hcontent (contextName_component index text) hlookup
  have hb : (attachmentFor content entry m).bytes = b := by
    show ((some (contextName index (components text))).bind fun f => content (entry.join f)).getD [] = b
    rw [hname, Option.bind_some, hthere]
    rfl
  rw [hlookup, ← hbytes, bytesAt, hown, hb]
  rfl

theorem faithful_of_agreeing {now : Time} {content : Path → Option Bytes}
    (hcontent : content = stored entry (capture.files C config before now dump) before)
    (hreadable : ∀ f ∈ config.contextFiles, (before (components f)).isSome = true)
    (hagree : Agreeing C config capture before now dump) :
    Faithful config before (capture.storedMetadata C config before now) dump
      ⟨capture.storedMetadata C config before now, dump,
        (capture.storedMetadata C config before now).attachments.map (attachmentFor content entry)⟩ := by
  refine ⟨rfl, rfl, fun index text hget => ?_⟩
  obtain ⟨bytes, hbytes⟩ := Option.isSome_iff_exists.mp (hreadable text (List.mem_of_getElem? hget))
  constructor
  · have hmem : contextManifest index (components text) (bytesAt before (components text)) ∈
        (capture.storedMetadata C config before now).attachments :=
      mem_storedMetadata.mpr (.inr (mem_contextManifests.mpr ⟨index, text, hget, rfl⟩))
    exact ⟨_, List.mem_map_of_mem hmem, rfl⟩
  · intro a ha hkey
    obtain ⟨m, hm, rfl⟩ := List.mem_map.mp ha
    have hkey : m.key = _ := hkey
    rcases mem_storedMetadata.mp hm with ⟨-, rfl⟩ | hm
    · exact absurd hkey (contextKey_ne index)
    · obtain ⟨index', text', hget', rfl⟩ := mem_contextManifests.mp hm
      obtain rfl : index' = index := contextKey_inj hkey
      obtain rfl : text' = text := Option.some.inj (hget'.symm.trans hget)
      rw [attachmentFor_context hcontent hagree hget, hbytes, bytesAt, hbytes]
      rfl

section Runs
variable {ι : Type} {env : Env} {i : ι} {w u : ClientState ι}

/-- **What was captured is read back exactly if the text of the metadata is and no file of
the entry takes the place of a context file with other bytes.** -/
theorem read_back_iff (hw : Prepared config env w)
    (h : (capture.write C config).alone env i w = some (.ok (), u)) : ∃ uuid dump,
      env.uuid w.history.length = some uuid ∧ capture.dump env w.history.length = .ok dump ∧
        let metadata := capture.storedMetadata C config w.state.disk.content (capture.moment env w.history.length)
        ((∃ e, ReadsAs C i (config.entry uuid) u e ∧ Faithful config w.state.disk.content metadata dump e) ↔
          C.json.metadata (C.json.writePretty metadata.toJson) = .ok metadata ∧
            Agreeing C config capture w.state.disk.content (capture.moment env w.history.length) dump) := by
  obtain ⟨uuid, dump, huuid, hdump, hcontent⟩ := capture_ok hw h
  refine ⟨uuid, dump, huuid, hdump, ?_, ?_⟩
  · rintro ⟨e, hread, he⟩
    have hread := (readsAs_iff env).mp hread
    have hm := metadata_of_envelopeAt hcontent hread
    rw [he.metadata] at hm
    exact ⟨hm, agreeing_of_faithful hcontent hread he⟩
  · rintro ⟨hm, hagree⟩
    exact ⟨_, (readsAs_iff env).mpr (envelopeAt_captured hcontent hm rfl),
      faithful_of_agreeing hcontent hw.readable hagree⟩

theorem ok_of_toOption {r : Except ShipError CrashEnvelope} (h : r.toOption = some e) : r = .ok e := by
  cases r with
  | error _ => cases h
  | ok _ => exact congrArg Except.ok (Option.some.inj h)

/-! Two context files of one name, in different directories. -/

def sampleFile (name : String) (bytes : Bytes) (d : Disk) : Disk :=
  ((d.create (components name) 0).2.write (d.create (components name) 0).1 bytes 0).2

def sampleState (d : Disk) : ClientState Unit := ⟨⟨d, fun _ => none⟩, []⟩

def sampleConfig (contextFiles : List String) : PanicHookConfig where
  endpoint := ⟨"http://localhost/"⟩
  source := ⟨"app", "linux", "1", .repeated 0⟩
  spoolDir := ["spool"]
  kind := .minidump
  build := ⟨"", "dev", ""⟩
  context := .null
  contextFiles := contextFiles
  sentRetentionDays := 30

/-- Every text of metadata is read as the one given. -/
def sampleCrates (metadata : CrashMetadata) : Crates where
  json := ⟨JsonText.print .compact 0, JsonText.print .pretty 0, JsonText.read, fun _ => .ok metadata⟩
  uploadConfig _ := .error ⟨""⟩
  utc _ := ⟨.newYear, 0, 0, 0, 0⟩
  parseUrl _ := none
  urlPath _ := ""
  joinUrl _ _ := none
  compress _ bytes := .ok bytes

def sampleMetadata (attachments : List AttachmentManifest) : CrashMetadata :=
  ⟨1, (sampleConfig []).source, ⟨.newYear, 0, 0, 0, 0⟩, .minidump, ⟨"", "dev", ""⟩, none,
    .null, attachments⟩

theorem sample_prepared : Prepared (sampleConfig ["/a/state.json"]) quietEnv
    (sampleState (sampleFile "/a/state.json" [1] .empty)) where
  numbered := Disk.Numbered.create_write nofun
  free := by
    intro uuid huuid p hp
    rw [PanicHookConfig.entry_eq] at hp
    have hspool : ["spool"] <+: p := (List.prefix_append ..).trans hp
    have hne : p ≠ components "/a/state.json" := by
      intro heq
      rw [heq] at hspool
      exact absurd hspool (by decide)
    show Function.update (fun _ => none) (components "/a/state.json") (some 0) p = none
    exact Function.update_of_ne hne _ _
  readable := by decide +kernel

def stateCrates : Crates := sampleCrates (sampleMetadata [⟨"context-0", some "state.json", "application/json", 1⟩])

def stateBefore : ClientState Unit := sampleState (sampleFile "/a/state.json" [1] .empty)

theorem state_captured : ∃ u, ((Capture.minidump [7]).write stateCrates (sampleConfig ["/a/state.json"])).alone
    quietEnv () stateBefore = some (.ok (), u) := by
  have h : (((Capture.minidump [7]).write stateCrates (sampleConfig ["/a/state.json"])).alone quietEnv ()
      stateBefore).map Prod.fst = some (.ok ()) := by decide +kernel
  obtain ⟨⟨r, u⟩, hrun, hr⟩ := Option.map_eq_some_iff.mp h
  exact ⟨u, hr ▸ hrun⟩

theorem state_metadata (now : Time) :
    (Capture.minidump [7]).storedMetadata stateCrates (sampleConfig ["/a/state.json"]) stateBefore.state.disk.content now =
      sampleMetadata [⟨"context-0", some "state.json", "application/json", 1⟩] := by
  have h : contextManifests stateBefore.state.disk.content 0 ["/a/state.json"] =
      [⟨"context-0", some "state.json", "application/json", 1⟩] := by decide +kernel
  rw [← h]
  rfl

theorem state_agreeing (now : Time) : Agreeing stateCrates (sampleConfig ["/a/state.json"]) (.minidump [7])
    stateBefore.state.disk.content now [7] := by
  refine agreeing_iff.mpr fun name a ha => ?_
  have hcopies : contextCopies stateBefore.state.disk.content 0 ["/a/state.json"] = [("state.json", [1])] := by
    decide +kernel
  have ha : (name, a) ∈ contextCopies stateBefore.state.disk.content 0 ["/a/state.json"] := ha
  rw [hcopies, List.mem_singleton] at ha
  rw [files_reverse, (Prod.mk.inj ha).1, (Prod.mk.inj ha).2]
  show List.lookup "state.json" (_ ++ (contextCopies stateBefore.state.disk.content 0 ["/a/state.json"]).reverse) = _
  rw [hcopies]
  rfl

theorem read_back_iff_state : ∃ u uuid e,
    ((Capture.minidump [7]).write stateCrates (sampleConfig ["/a/state.json"])).alone quietEnv () stateBefore =
      some (.ok (), u) ∧
    ReadsAs stateCrates () ((sampleConfig ["/a/state.json"]).entry uuid) u e ∧ e.dump = [7] := by
  obtain ⟨u, hrun⟩ := state_captured
  obtain ⟨uuid, dump, -, hdump, hiff⟩ := read_back_iff sample_prepared hrun
  obtain rfl : [7] = dump := Except.ok.inj hdump
  obtain ⟨e, hread, he⟩ := hiff.mpr ⟨congrArg Except.ok (state_metadata _).symm, state_agreeing _⟩
  exact ⟨u, uuid, e, hrun, hread, he.dump⟩

def twoBefore : ClientState Unit :=
  sampleState (sampleFile "/b/state.json" [2, 2] (sampleFile "/a/state.json" [1] .empty))

def twoCrates : Crates := sampleCrates (sampleMetadata
  [⟨"context-0", some "state.json", "application/json", 1⟩, ⟨"context-1", some "state.json", "application/json", 2⟩])

/-- For the first file the bytes of the second are read. -/
theorem sameName_lost : ∃ u uuid e,
    ((Capture.minidump [7]).write twoCrates (sampleConfig ["/a/state.json", "/b/state.json"])).alone quietEnv ()
      twoBefore = some (.ok (), u) ∧
    quietEnv.uuid 0 = some uuid ∧
    ReadsAs twoCrates () ((sampleConfig ["/a/state.json", "/b/state.json"]).entry uuid) u e ∧
    (e.attachments.map fun a => (a.key, a.bytes)) = [("context-0", [2, 2]), ("context-1", [2, 2])] ∧
    twoBefore.state.disk.content (components "/a/state.json") = some [1] := by
  have hrun : (((Capture.minidump [7]).write twoCrates (sampleConfig ["/a/state.json", "/b/state.json"])).alone
      quietEnv () twoBefore).bind (fun x => (quietEnv.uuid 0).bind fun uuid =>
        (envelopeAt twoCrates x.2.state.disk.content
          ((sampleConfig ["/a/state.json", "/b/state.json"]).entry uuid)).toOption.map fun e =>
            (x.1, e.attachments.map fun a => (a.key, a.bytes))) =
      some (.ok (), [("context-0", [2, 2]), ("context-1", [2, 2])]) := by decide +kernel
  obtain ⟨⟨r, u⟩, hcapture, hrun⟩ := Option.bind_eq_some_iff.mp hrun
  obtain ⟨uuid, huuid, hrun⟩ := Option.bind_eq_some_iff.mp hrun
  obtain ⟨e, he, heq⟩ := Option.map_eq_some_iff.mp hrun
  obtain ⟨hr, hattachments⟩ := Prod.mk.inj heq
  exact ⟨u, uuid, e, hr ▸ hcapture, huuid, (readsAs_iff quietEnv).mpr (ok_of_toOption he), hattachments,
    by decide +kernel⟩

end Runs

end RoundTrip

/-! ### Stated sizes -/

section Sizes
variable {C : Crates} {config : PanicHookConfig} {capture : Capture} {before content : Path → Option Bytes} {now : Time}
  {dump : Bytes} {entry : Path} {e : CrashEnvelope}

/-- A document is written in the layouts of `serde_json`. -/
structure LaidOut (json : SerdeJson) (v : Json) : Prop where
  write : json.write v = JsonText.print .compact 0 v
  writePretty : json.writePretty v = JsonText.print .pretty 0 v

/-- Three line ends, two indentations and two spaces make the difference. -/
theorem pretty_length (c : StoredUploadConfig) : (JsonText.print .pretty 0 c.toJson).length =
    (JsonText.print .compact 0 c.toJson).length + 9 := by
  simp [StoredUploadConfig.toJson, Json.nat, JsonText.print, JsonText.printMembers, JsonText.Style.line,
    JsonText.Style.colon]
  omega

/-- The names under which the context files are stored. -/
def contextNames (config : PanicHookConfig) : List String :=
  config.contextFiles.zipIdx.map fun f => contextName f.2 (components f.1)

/-- Each manifest is followed by an attachment of its key and size. -/
def SizesTrue (e : CrashEnvelope) : Prop :=
  e.metadata.attachments.Forall₂ (fun m a => a.key = m.key ∧ m.len = .ofNat a.bytes.length) e.attachments

theorem agreeing_of_nodup
    (h : (contextNames config ++ ["metadata.json", "dump.bin", "sdk-config.json"]).Nodup) :
    Agreeing C config capture before now dump := by
  intro name a b ha hb
  have hfiles : (capture.files C config before now dump).map Prod.fst =
      contextNames config ++ ["metadata.json", "dump.bin", "sdk-config.json"] := by
    rw [Capture.files, List.map_append, contextCopies_eq, List.map_map]
    rfl
  rw [← hfiles] at h
  exact congrArg Prod.snd (List.inj_on_of_nodup_map h (List.mem_append_left _ ha) hb rfl)

/-- The size of the upload configuration is not the one that is stated. -/
theorem sdkConfig_size (hcontent : content = stored entry (capture.files C config before now dump) before)
    (hlaid : LaidOut C.json (StoredUploadConfig.fromConfig config).toJson) :
    (sdkConfigManifest C config).len ≠
      .ofNat (attachmentFor content entry (sdkConfigManifest C config)).bytes.length := by
  intro h
  have hbytes : (attachmentFor content entry (sdkConfigManifest C config)).bytes =
      JsonText.print .pretty 0 (StoredUploadConfig.fromConfig config).toJson := by
    show ((some "sdk-config.json").bind fun f => content (entry.join f)).getD [] = _
    rw [Option.bind_some, sdkConfig_there hcontent, hlaid.writePretty]
    rfl
  have h : UInt64.ofNat (C.json.write (StoredUploadConfig.fromConfig config).toJson).length = _ := h
  rw [hbytes, pretty_length, hlaid.write] at h
  have h := congrArg UInt64.toNat h
  rw [UInt64.toNat_ofNat', UInt64.toNat_ofNat'] at h
  omega

/-- The sizes of context files are true. -/
theorem context_size (hcontent : content = stored entry (capture.files C config before now dump) before)
    (hagree : Agreeing C config capture before now dump) (hm : m ∈ contextManifests before 0 config.contextFiles) :
    m.len = .ofNat (attachmentFor content entry m).bytes.length := by
  obtain ⟨index, text, hget, rfl⟩ := mem_contextManifests.mp hm
  rw [attachmentFor_context hcontent hagree hget]
  rfl

variable {ι : Type} {env : Env} {i : ι} {w u : ClientState ι}

/-- **The sizes that the manifests of a capture state are true of a minidump and, unless its
metadata cannot be read at all, of no other.** -/
theorem sizes_true_iff (hw : Prepared config env w)
    (hnames : (contextNames config ++ ["metadata.json", "dump.bin", "sdk-config.json"]).Nodup)
    (hlaid : LaidOut C.json (StoredUploadConfig.fromConfig config).toJson)
    (hkeeps : ∀ m, C.json.metadata (C.json.writePretty (capture.storedMetadata C config w.state.disk.content
      (capture.moment env w.history.length)).toJson) = .ok m →
        m.attachments = (capture.storedMetadata C config w.state.disk.content
          (capture.moment env w.history.length)).attachments)
    (h : (capture.write C config).alone env i w = some (.ok (), u)) : ∃ uuid,
      env.uuid w.history.length = some uuid ∧
        ((∀ e, ReadsAs C i (config.entry uuid) u e → SizesTrue e) ↔
          (∃ dump, capture = .minidump dump) ∨
            ∀ m, C.json.metadata (C.json.writePretty (capture.storedMetadata C config w.state.disk.content
              (capture.moment env w.history.length)).toJson) ≠ .ok m) := by
  obtain ⟨uuid, dump, huuid, -, hcontent⟩ := capture_ok hw h
  have hagree : Agreeing C config capture w.state.disk.content (capture.moment env w.history.length) dump :=
    agreeing_of_nodup hnames
  refine ⟨uuid, huuid, fun hall => ?_, fun hcond e hread => ?_⟩
  · by_contra hnot
    rw [not_or, not_forall] at hnot
    obtain ⟨hcrash, m, hm⟩ := hnot
    have hm := not_not.mp hm
    have hread := envelopeAt_captured hcontent hm (hkeeps m hm)
    have hsizes := hall _ ((readsAs_iff env).mpr hread)
    cases capture with
    | minidump d => exact hcrash ⟨d, rfl⟩
    | crash info =>
      have hmem : sdkConfigManifest C config ∈ m.attachments := by
        rw [hkeeps m hm]
        exact List.mem_cons_self ..
      have hsize := List.forall₂_same.mp (List.forall₂_map_right_iff.mp hsizes) _ hmem
      exact sdkConfig_size hcontent hlaid hsize.2
  · have hread := (readsAs_iff env).mp hread
    have hm := metadata_of_envelopeAt hcontent hread
    obtain ⟨d, rfl⟩ := hcond.resolve_right fun hnone => hnone _ hm
    have heq := envelopeAt_captured hcontent hm (hkeeps _ hm)
    have hattachments := congrArg CrashEnvelope.attachments (Except.ok.inj (hread.symm.trans heq))
    rw [SizesTrue, hattachments]
    refine List.forall₂_map_right_iff.mpr (List.forall₂_same.mpr fun m hmem => ⟨rfl, ?_⟩)
    rw [hkeeps _ hm] at hmem
    exact context_size hcontent hagree hmem

theorem sizes_true_iff_state : ∃ u uuid,
    ((Capture.minidump [7]).write stateCrates (sampleConfig ["/a/state.json"])).alone quietEnv () stateBefore =
      some (.ok (), u) ∧
    ∀ e, ReadsAs stateCrates () ((sampleConfig ["/a/state.json"]).entry uuid) u e → SizesTrue e := by
  obtain ⟨u, hrun⟩ := state_captured
  have hkeeps : ∀ m, stateCrates.json.metadata (stateCrates.json.writePretty ((Capture.minidump [7]).storedMetadata
      stateCrates (sampleConfig ["/a/state.json"]) stateBefore.state.disk.content 0).toJson) = .ok m →
        m.attachments = ((Capture.minidump [7]).storedMetadata stateCrates (sampleConfig ["/a/state.json"])
          stateBefore.state.disk.content 0).attachments := by
    intro m hm
    rw [state_metadata, ← Except.ok.inj hm]
  obtain ⟨uuid, -, hiff⟩ := sizes_true_iff sample_prepared (by decide +kernel) ⟨rfl, rfl⟩ hkeeps hrun
  exact ⟨u, uuid, hrun, hiff.mpr (.inl ⟨_, rfl⟩)⟩

def boom : PanicHookInfo := ⟨some "boom", none⟩

def crashCrates : Crates := sampleCrates ((Capture.crash boom).storedMetadata (sampleCrates (sampleMetadata []))
  (sampleConfig []) (fun _ => none) 0)

/-- The upload configuration of a panic is nine bytes longer than its manifest says. -/
theorem boom_size_wrong : ∃ u uuid e,
    ((Capture.crash boom).write crashCrates (sampleConfig [])).alone quietEnv () (sampleState .empty) =
      some (.ok (), u) ∧
    quietEnv.uuid 0 = some uuid ∧ ReadsAs crashCrates () ((sampleConfig []).entry uuid) u e ∧
    (e.metadata.attachments.map fun m => (m.key, m.len)) = [("sdk-config", 57)] ∧
    (e.attachments.map fun a => (a.key, a.bytes.length)) = [("sdk-config", 66)] := by
  have hrun : (((Capture.crash boom).write crashCrates (sampleConfig [])).alone quietEnv () (sampleState .empty)).bind
      (fun x => (quietEnv.uuid 0).bind fun uuid =>
        (envelopeAt crashCrates x.2.state.disk.content ((sampleConfig []).entry uuid)).toOption.map fun e =>
          (x.1, (e.metadata.attachments.map fun m => (m.key, m.len)),
            e.attachments.map fun a => (a.key, a.bytes.length))) =
      some (.ok (), [("sdk-config", 57)], [("sdk-config", 66)]) := by decide +kernel
  obtain ⟨⟨r, u⟩, hcapture, hrun⟩ := Option.bind_eq_some_iff.mp hrun
  obtain ⟨uuid, huuid, hrun⟩ := Option.bind_eq_some_iff.mp hrun
  obtain ⟨e, he, heq⟩ := Option.map_eq_some_iff.mp hrun
  obtain ⟨hr, hrest⟩ := Prod.mk.inj heq
  obtain ⟨hmanifests, hattachments⟩ := Prod.mk.inj hrest
  exact ⟨u, uuid, e, hr ▸ hcapture, huuid, (readsAs_iff quietEnv).mpr (ok_of_toOption he), hmanifests, hattachments⟩

end Sizes

end Detritus.Client
