import Detritus.Server.Grammar

/-! The reports a store holds.

An index is named by the source, the time in the metadata and the digest of the dump. An
upload with the name of an earlier one takes its place. So after any number of uploads,
each of them accepted, all are on record exactly if those with one name say the same. -/
namespace Detritus.Server
open Files Protocol Process
variable {e f : CrashEnvelope}

/-! ### What is sent and what is on record -/

/-- An upload as it is sent. -/
structure UploadRequest where
  token : TokenContext
  headers : Headers
  body : Body

/-- The report in it. -/
def UploadRequest.Sends (C : Crates) (q : UploadRequest) (e : CrashEnvelope) : Prop :=
  ∃ m, openMultipart C q.headers q.body = .ok m ∧ CrashEnvelope.readFields C.json m = .ok e

theorem UploadRequest.Sends.unique {C : Crates} {q : UploadRequest} (he : q.Sends C e) (hf : q.Sends C f) : e = f := by
  obtain ⟨m, hm, he⟩ := he
  obtain ⟨n, hn, hf⟩ := hf
  obtain rfl := Except.ok.inj (hm.symm.trans hn)
  exact Except.ok.inj (he.symm.trans hf)

/-- Where the indexes of a source are. -/
def StoragePaths.sourceDir (P : StoragePaths) (source : SourceId) : Path :=
  (P.bySource.join source.project).join source.installId.toString

/-- A document that records the metadata and the digests of a report. -/
structure Records (C : Crates) (doc : Json) (e : CrashEnvelope) : Prop where
  metadata : doc.member "metadata" = some e.metadata.toJson
  dump : (doc.member "dump").bind (Json.member "sha256") = some (.string (C.sha256 e.dump).hex)
  attachments : ∃ items, doc.member "attachments" = some (.array items) ∧
    items.map (Json.member "sha256") = e.attachments.map fun a => some (.string (C.sha256 a.bytes).hex)

/-- A file in the directory of its source records a report. -/
def OnRecord (C : Crates) (P : StoragePaths) (d : Disk) (e : CrashEnvelope) : Prop :=
  ∃ p doc, P.sourceDir e.metadata.source <+: p ∧ d.content p = some (C.json.writePretty doc) ∧ Records C doc e

/-- Two reports whose indexes have one name. -/
structure SameName (C : Crates) (e f : CrashEnvelope) : Prop where
  project : f.metadata.source.project = e.metadata.source.project
  installId : f.metadata.source.installId = e.metadata.source.installId
  time : f.metadata.timestamp.format = e.metadata.timestamp.format
  dump : C.sha256 f.dump = C.sha256 e.dump

/-- Two reports with the same metadata and attachments. -/
structure SameReport (C : Crates) (e f : CrashEnvelope) : Prop where
  metadata : f.metadata.toJson = e.metadata.toJson
  attachments : f.attachments.map (fun a => C.sha256 a.bytes) = e.attachments.map fun a => C.sha256 a.bytes

/-- Uploads one after the other, each answered 201. -/
inductive AllAccepted {ι : Type} (C : Crates) (state : AppState) (env : Env) (i : ι) :
    List UploadRequest → ServerState ι → ServerState ι → Prop
  | nil (w : ServerState ι) : AllAccepted C state env i [] w w
  | cons {q : UploadRequest} {qs : List UploadRequest} {w v t : ServerState ι} {response : CrashResponse}
    (run : (crashesInner C state q.token q.headers q.body).alone env i w = some (.ok (201, response), v))
    (rest : AllAccepted C state env i qs v t) : AllAccepted C state env i (q :: qs) w t

/-- What an upload may take. -/
def UploadRequest.calls (C : Crates) (q : UploadRequest) : Nat :=
  match openMultipart C q.headers q.body with
  | .ok m => uploadCalls m
  | .error _ => 0

/-! ### Indexes as documents -/

section Documents
variable {C : Crates} {doc : Json}

theorem hashes_of_describes {as : List AttachmentPointer} {bs : List CrashAttachment}
    (h : List.Forall₂ (AttachmentPointer.StandsFor C) as bs) :
    as.map (·.sha256) = bs.map fun a => (C.sha256 a.bytes).hex := by
  induction h with
  | nil => rfl
  | cons ha _ ih => rw [List.map_cons, List.map_cons, ih, ha.sha256]

theorem hashJson_injective : Function.Injective fun d : Sha256 => some (Json.string d.hex) := by
  intro d d' heq
  exact Sha256.hex_injective (Json.string.inj (Option.some.inj heq))

/-- The document of an index records the reports that are like the one it describes. -/
theorem CrashIndex.Describes.records_iff {index : CrashIndex} (h : index.Describes C f) :
    Records C index.toJson e ↔ SameReport C e f ∧ C.sha256 f.dump = C.sha256 e.dump := by
  have hmetadata : index.toJson.member "metadata" = some f.metadata.toJson := h.metadata ▸ rfl
  have hdump : (index.toJson.member "dump").bind (Json.member "sha256") = some (.string (C.sha256 f.dump).hex) :=
    h.dump.sha256 ▸ rfl
  have hitems : index.toJson.member "attachments" = some (.array (index.attachments.map (·.toJson))) := rfl
  have hhashes : (index.attachments.map (·.toJson)).map (Json.member "sha256") =
      (f.attachments.map fun a => C.sha256 a.bytes).map fun d => some (.string d.hex) := by
    have hall := congrArg (List.map fun s => some (Json.string s)) (hashes_of_describes h.attachments)
    rw [List.map_map] at hall ⊢
    rw [List.map_map] at hall ⊢
    exact hall
  constructor
  · intro ⟨hm, hd, items, hi, ha⟩
    rw [hmetadata] at hm
    rw [hdump] at hd
    obtain rfl := Json.array.inj (Option.some.inj (hitems.symm.trans hi))
    rw [hhashes] at ha
    refine ⟨⟨Option.some.inj hm, hashJson_injective.list_map ?_⟩, hashJson_injective hd⟩
    rw [ha, List.map_map]
    rfl
  · intro ⟨⟨hm, ha⟩, hd⟩
    refine ⟨hm ▸ hmetadata, hd ▸ hdump, _, hitems, ?_⟩
    rw [hhashes, ha, List.map_map]
    rfl

/-- What the metadata says as JSON determines the name of the index. -/
theorem SameReport.sameName (h : SameReport C e f) (hd : C.sha256 f.dump = C.sha256 e.dump) : SameName C e f := by
  have hsource : f.metadata.source.toJson = e.metadata.source.toJson :=
    Option.some.inj (congrArg (Json.member "source") h.metadata)
  have htime : Json.string f.metadata.timestamp.rfc3339 = .string e.metadata.timestamp.rfc3339 :=
    Option.some.inj (congrArg (Json.member "timestamp") h.metadata)
  have hproject : Json.string f.metadata.source.project = .string e.metadata.source.project :=
    Option.some.inj (congrArg (Json.member "project") hsource)
  have hid : Json.string f.metadata.source.installId.toString = .string e.metadata.source.installId.toString :=
    Option.some.inj (congrArg (Json.member "install_id") hsource)
  exact ⟨Json.string.inj hproject, Uuid.toString_injective (Json.string.inj hid),
    DateTime.format_of_rfc3339 (Json.string.inj htime), hd⟩

theorem Records.isObject {e : CrashEnvelope} (h : Records C doc e) : ∃ members, doc = .object members := by
  have hm := h.metadata
  cases doc with
  | object members => exact ⟨members, rfl⟩
  | _ => cases hm

/-- A text of an object is the text of no other. -/
theorem Records.doc_eq (hj : PrettyLawful C.json) {members : List (String × Json)} {e : CrashEnvelope}
    (hr : Records C doc e) (h : C.json.writePretty (.object members) = C.json.writePretty doc) :
    doc = .object members := by
  obtain ⟨members', rfl⟩ := hr.isObject
  exact congrArg Json.object (hj.separate _ _ (h ▸ List.prefix_refl _))

/-- Reports that one document records are the same. -/
theorem Records.sameReport (he : Records C doc e) (hf : Records C doc f) : SameReport C e f := by
  obtain ⟨items, hitems, hhashes⟩ := he.attachments
  obtain ⟨items', hitems', hhashes'⟩ := hf.attachments
  obtain rfl := Json.array.inj (Option.some.inj (hitems.symm.trans hitems'))
  refine ⟨Option.some.inj (hf.metadata.symm.trans he.metadata), hashJson_injective.list_map ?_⟩
  rw [List.map_map, List.map_map]
  exact hhashes'.symm.trans hhashes

end Documents

/-! ### A sequence of uploads -/

section Sequence
variable {ι : Type} {C : Crates} {state : AppState} {env : Env} {i : ι} {P : StoragePaths}

/-- An upload that was accepted, its index and the report in it. -/
structure Entry where
  request : UploadRequest
  index : CrashIndex
  report : CrashEnvelope

variable {xs : List Entry} {x : Entry} {d : Disk}

structure Entry.Sound (C : Crates) (x : Entry) : Prop where
  sends : x.request.Sends C x.report
  describes : x.index.Describes C x.report
  valid : SourceKey.Valid ⟨x.report.metadata.source.project, x.report.metadata.source.installId.toString⟩

/-- What the last upload for a path has left there. -/
def latest (C : Crates) (P : StoragePaths) (xs : List Entry) (p : Path) : Option Bytes :=
  (xs.reverse.find? fun x => x.index.path P = p).map fun x => C.json.writePretty x.index.toJson

/-- No two paths below `by-source` lead to one file. -/
def Unshared (P : StoragePaths) (d : Disk) : Prop :=
  ∀ p q n, P.bySource <+: p → P.bySource <+: q → d.file p = some n → d.file q = some n → p = q

theorem AddsIndex.unshared {path : Path} {bytes : Bytes} {d e : Disk} (h : AddsIndex P path bytes d e)
    (hu : Unshared P d) : Unshared P e := by
  -- the inode of the index is that of no other path
  have hother : ∀ p n, P.bySource <+: path → P.bySource <+: p → p ≠ path → e.file p = some n → e.file path ≠ some n := by
    intro p n hpath hp hne hpn hn
    rw [h.files p hp hne] at hpn
    rcases h.own n hn with hold | hnew
    · exact hne (hu p path n hp hpath hpn hold)
    · exact hnew p hp hpn
  intro p q n hp hq hpn hqn
  by_cases hpp : p = path
  · subst hpp
    by_contra hne
    exact hother q n hp hq (Ne.symm hne) hqn hpn
  · by_cases hqp : q = path
    · subst hqp
      exact absurd hqn (hother p n hq hp hpp hpn)
    · rw [h.files p hp hpp] at hpn
      rw [h.files q hq hqp] at hqn
      exact hu p q n hp hq hpn hqn

theorem takePart_reads (metadata : Option CrashMetadata) {max : Nat} {f : Field}
    {taken taken' : Option Bytes × List CrashAttachment} (h : takePart max taken f = .ok taken') :
    EnvelopeParts.add C.json ⟨metadata, taken.1, taken.2⟩ f = .ok ⟨metadata, taken'.1, taken'.2⟩ := by
  obtain ⟨hwhole, ⟨hdump, -, rfl⟩ | ⟨a, ha, rfl⟩⟩ := takePart_ok_iff.mp h
  · exact EnvelopeParts.add_dump C.json _ (by simpa [Field.isDump] using hdump) hwhole.failure
  · obtain ⟨name, hname, hattach⟩ := attachmentOf_name ha
    obtain rfl := attachmentOf_eq ha
    rw [EnvelopeParts.add_attach C.json _ hname hwhole.failure hattach, attachKey, hname]
    rfl

theorem parts_read (metadata : Option CrashMetadata) {max : Nat} {fs : List Field}
    {taken taken' : Option Bytes × List CrashAttachment} (h : fs.foldlM (takePart max) taken = .ok taken') :
    fs.foldlM (EnvelopeParts.add C.json) ⟨metadata, taken.1, taken.2⟩ = .ok ⟨metadata, taken'.1, taken'.2⟩ := by
  induction fs generalizing taken with
  | nil =>
    obtain rfl := Except.ok.inj h
    rfl
  | cons f fs ih =>
    rw [List.foldlM_cons] at h ⊢
    obtain ⟨next, htake, hrest⟩ := of_bind_ok h
    rw [takePart_reads metadata htake]
    exact ih hrest

/-- The report that the verdict finds is the one that `read_from` reads. -/
theorem verdict_reads {token : TokenContext} {admitted : SourceKey → Bool} {m : Multipart} {e : CrashEnvelope}
    (h : verdict C state token admitted m = .ok e) : CrashEnvelope.readFields C.json m = .ok e := by
  obtain ⟨rest, hfirst, ⟨source, hsource, -⟩, -, hfold, hfailure⟩ := verdict_ok_iff.mp h
  obtain ⟨first, hfields, hadd⟩ := readFirst_reads hfirst
  unfold CrashEnvelope.readFields
  rw [hfields, List.foldlM_cons, hadd]
  show (do let parts ← rest.foldlM (EnvelopeParts.add C.json) ⟨some e.metadata, none, []⟩; _) = _
  rw [parts_read (some e.metadata) hfold, hfailure]
  show EnvelopeParts.finish ⟨some e.metadata, some e.dump, e.attachments⟩ = _
  simp [EnvelopeParts.finish, (admitSource_ok hsource).1]

/-- One upload that is answered 201. -/
theorem accepted_entry {q : UploadRequest} {w v : ServerState ι} {x : Nat × CrashResponse} {N : Nat}
    (hrun : (crashesInner C state q.token q.headers q.body).alone env i w = some (.ok x, v))
    (hw : Ready env state.storage N w) (hN : w.history.length + q.calls C ≤ N) :
    ∃ index report, Entry.Sound C ⟨q, index, report⟩ ∧ Ready env state.storage N v ∧
      v.history.length ≤ w.history.length + q.calls C ∧ state.storage.bySource <+: index.path state.storage ∧
      AddsIndex state.storage (index.path state.storage) (C.json.writePretty index.toJson) w.state.disk v.state.disk := by
  unfold UploadRequest.calls at hN ⊢
  cases hm : openMultipart C q.headers q.body with
  | error error =>
    unfold crashesInner at hrun
    rw [hm, alone_lift_error] at hrun
    cases hrun
  | ok m =>
    rw [hm] at hN
    obtain ⟨r, t, hrun', hout, hready, -⟩ := crashesInner_alone (i := i) q.token hm w hw hN
    obtain ⟨hr, rfl⟩ := result_eq (hrun'.symm.trans hrun)
    cases hv : verdict C state q.token (admits env state q.token w) m with
    | error error =>
      rw [hv] at hout
      cases hout.1.symm.trans hr
    | ok e =>
      rw [hv] at hout
      obtain ⟨index, hdescribes, -, -, hpath, hadds⟩ := hout
      obtain ⟨rest, -, ⟨source, hsource, -⟩, -⟩ := verdict_ok_iff.mp hv
      obtain ⟨-, rfl, hvalid, -⟩ := admitSource_ok hsource
      obtain ⟨hready, hcalls⟩ := hready ⟨x, hr⟩
      exact ⟨index, e, ⟨⟨m, hm, verdict_reads hv⟩, hdescribes, hvalid⟩, hready, hcalls, hpath, hadds⟩

/-- **After uploads that were all accepted**, a path holds the index of the last upload for it. -/
theorem AllAccepted.entries {qs : List UploadRequest} {w t : ServerState ι} {N : Nat}
    (h : AllAccepted C state env i qs w t) (hw : Ready env state.storage N w)
    (hN : w.history.length + (qs.map (·.calls C)).sum ≤ N) (hu : Unshared state.storage w.state.disk) :
    ∃ xs : List Entry, qs = xs.map Entry.request ∧ (∀ x ∈ xs, x.Sound C) ∧
      ∀ p, state.storage.bySource <+: p →
        t.state.disk.content p = (latest C state.storage xs p).or (w.state.disk.content p) := by
  induction h with
  | nil w =>
    refine ⟨[], rfl, by simp, fun p _ => ?_⟩
    rw [latest, List.reverse_nil, List.find?_nil, Option.map_none, Option.none_or]
  | @cons q qs w v t response hrun _ ih =>
    rw [List.map_cons, List.sum_cons] at hN
    obtain ⟨index, report, hsound, hv, hcalls, hpath, hadds⟩ := accepted_entry hrun hw (by omega)
    obtain ⟨xs, rfl, hxs, hcontent⟩ := ih hv (by omega) (hadds.unshared hu)
    refine ⟨⟨q, index, report⟩ :: xs, rfl, List.forall_mem_cons.mpr ⟨hsound, hxs⟩, fun p hp => ?_⟩
    rw [hcontent p hp, latest, latest, List.reverse_cons, List.find?_append, List.find?_singleton]
    by_cases hne : p = index.path state.storage
    · rw [hne, hadds.content]
      cases xs.reverse.find? fun x => x.index.path state.storage = index.path state.storage <;> simp
    · have hkept : v.state.disk.content p = w.state.disk.content p :=
        hadds.others p hp hne fun n hn hpn => hne (hu p _ n hp hpath hpn hn)
      rw [hkept, if_neg (by simpa using Ne.symm hne)]
      cases xs.reverse.find? fun x => x.index.path state.storage = p <;> simp

theorem AllAccepted.entries_of_empty {qs : List UploadRequest} {w t : ServerState ι}
    (h : AllAccepted C state env i qs w t)
    (hw : Ready env state.storage (w.history.length + (qs.map (·.calls C)).sum) w)
    (hempty : ∀ p, state.storage.bySource <+: p → w.state.disk.file p = none) :
    ∃ xs : List Entry, qs = xs.map Entry.request ∧ (∀ x ∈ xs, x.Sound C) ∧
      ∀ p, state.storage.bySource <+: p → t.state.disk.content p = latest C state.storage xs p := by
  have hu : Unshared state.storage w.state.disk := by
    intro p q n hp _ hpn
    rw [hempty p hp] at hpn
    cases hpn
  obtain ⟨xs, hqs, hxs, hd⟩ := h.entries hw (Nat.le_refl _) hu
  refine ⟨xs, hqs, hxs, fun p hp => ?_⟩
  rw [hd p hp, Disk.content, hempty p hp, Option.map_none, Option.or_none]

theorem Entry.Sound.path_eq (h : x.Sound C) : x.index.path P = P.indexPath
    ⟨x.report.metadata.source.project, x.report.metadata.source.installId.toString⟩
      x.report.metadata.timestamp.format (C.sha256 x.report.dump).hex := by
  rw [CrashIndex.path, h.describes.metadata, h.describes.dump.sha256]

/-- Indexes have one path exactly if they have one name. -/
theorem Entry.Sound.path_eq_iff {x y : Entry} (hx : x.Sound C) (hy : y.Sound C) :
    y.index.path P = x.index.path P ↔ SameName C x.report y.report := by
  rw [hx.path_eq, hy.path_eq]
  constructor
  · intro h
    obtain ⟨hsource, htime, hdump⟩ := P.indexPath_injective hy.valid hx.valid h
    obtain ⟨hproject, hid⟩ := SourceKey.mk.inj hsource
    exact ⟨hproject, Uuid.toString_injective hid, htime, hdump⟩
  · intro h
    rw [h.project, h.installId, h.time, h.dump]

theorem Entry.Sound.sourceDir_path (h : x.Sound C) : P.sourceDir x.report.metadata.source <+: x.index.path P := by
  rw [h.path_eq, P.indexPath_eq h.valid, StoragePaths.sourceDir, h.valid.project.join, h.valid.sourceId.join,
    P.bySource_eq]
  simp

theorem Entry.Sound.bySource_sourceDir (h : x.Sound C) : P.bySource <+: P.sourceDir x.report.metadata.source := by
  rw [StoragePaths.sourceDir, h.valid.project.join, h.valid.sourceId.join]
  simp

/-- The last upload for a path, where there is one. -/
theorem latest_some {p : Path} {bytes : Bytes} (h : latest C P xs p = some bytes) :
    ∃ x ∈ xs, x.index.path P = p ∧ bytes = C.json.writePretty x.index.toJson := by
  obtain ⟨x, hx, rfl⟩ := Option.map_eq_some_iff.mp h
  exact ⟨x, List.mem_reverse.mp (List.mem_of_find?_eq_some hx), by simpa using List.find?_some hx, rfl⟩

theorem latest_of_mem (P : StoragePaths) (h : x ∈ xs) :
    ∃ y ∈ xs, y.index.path P = x.index.path P ∧
      latest C P xs (x.index.path P) = some (C.json.writePretty y.index.toJson) := by
  cases hl : latest C P xs (x.index.path P) with
  | none =>
    have hnone := List.find?_eq_none.mp (Option.map_eq_none_iff.mp hl) x (List.mem_reverse.mpr h)
    simp at hnone
  | some bytes =>
    obtain ⟨y, hy, hpath, rfl⟩ := latest_some hl
    exact ⟨y, hy, hpath, rfl⟩

/-- A report is on record at the path of its index, if at all. -/
theorem OnRecord.at_path (hj : PrettyLawful C.json) (hxs : ∀ x ∈ xs, x.Sound C)
    (hd : ∀ p, P.bySource <+: p → d.content p = latest C P xs p) (hx : x.Sound C) (h : OnRecord C P d x.report) :
    ∃ doc, d.content (x.index.path P) = some (C.json.writePretty doc) ∧ Records C doc x.report := by
  obtain ⟨p, doc, hp, hcontent, hrecords⟩ := h
  have hlatest := hd p (hx.bySource_sourceDir.trans hp)
  rw [hcontent] at hlatest
  obtain ⟨y, hy, rfl, hbytes⟩ := latest_some hlatest.symm
  obtain rfl := hrecords.doc_eq hj hbytes.symm
  obtain ⟨hsame, hdump⟩ := (hxs y hy).describes.records_iff.mp hrecords
  rw [(hx.path_eq_iff (hxs y hy)).mpr (hsame.sameName hdump)] at hcontent
  exact ⟨_, hcontent, hrecords⟩

/-- Uploads that are all on record say the same where they have one name. -/
theorem sameReport_of_onRecord (hj : PrettyLawful C.json) {x y : Entry} (hxs : ∀ x ∈ xs, x.Sound C)
    (hd : ∀ p, P.bySource <+: p → d.content p = latest C P xs p) (hx : x.Sound C) (hy : y.Sound C)
    (hrx : OnRecord C P d x.report) (hry : OnRecord C P d y.report) (hname : SameName C x.report y.report) :
    SameReport C x.report y.report := by
  obtain ⟨doc, hdoc, hrecords⟩ := hrx.at_path hj hxs hd hx
  obtain ⟨doc', hdoc', hrecords'⟩ := hry.at_path hj hxs hd hy
  rw [(hx.path_eq_iff hy).mpr hname, hdoc] at hdoc'
  obtain ⟨members, rfl⟩ := hrecords.isObject
  obtain rfl := hrecords'.doc_eq hj (Option.some.inj hdoc')
  exact hrecords.sameReport hrecords'

/-- An upload is on record if those with its name say the same. -/
theorem onRecord_of_sameReport (hxs : ∀ x ∈ xs, x.Sound C)
    (hd : ∀ p, P.bySource <+: p → d.content p = latest C P xs p) (hx : x ∈ xs)
    (h : ∀ y ∈ xs, SameName C x.report y.report → SameReport C x.report y.report) : OnRecord C P d x.report := by
  have hsx := hxs x hx
  obtain ⟨y, hy, hpath, hlatest⟩ := latest_of_mem P hx
  have hname := (hsx.path_eq_iff (hxs y hy)).mp hpath
  rw [← hd _ (hsx.bySource_sourceDir.trans hsx.sourceDir_path)] at hlatest
  exact ⟨_, _, hsx.sourceDir_path, hlatest, (hxs y hy).describes.records_iff.mpr ⟨h y hy hname, hname.dump⟩⟩

/-- All uploads are on record. -/
def AllOnRecord (C : Crates) (P : StoragePaths) (qs : List UploadRequest) (d : Disk) : Prop :=
  ∀ q ∈ qs, ∃ e, q.Sends C e ∧ OnRecord C P d e

/-- Uploads with one name say the same. -/
def NamesApart (C : Crates) (qs : List UploadRequest) : Prop :=
  ∀ q ∈ qs, ∀ q' ∈ qs, ∀ e e', q.Sends C e → q'.Sends C e' → SameName C e e' → SameReport C e e'

section Empty
variable {qs : List UploadRequest} {w t : ServerState ι}
  (hw : Ready env state.storage (w.history.length + (qs.map (·.calls C)).sum) w)
  (hempty : ∀ p, state.storage.bySource <+: p → w.state.disk.file p = none)
  (h : AllAccepted C state env i qs w t)
include hw hempty h

theorem namesApart_of_onRecord (hj : PrettyLawful C.json) (hall : AllOnRecord C state.storage qs t.state.disk) :
    NamesApart C qs := by
  obtain ⟨xs, rfl, hxs, hd⟩ := h.entries_of_empty hw hempty
  intro q hq q' hq' e e' he he' hname
  obtain ⟨x, hx, rfl⟩ := List.mem_map.mp hq
  obtain ⟨y, hy, rfl⟩ := List.mem_map.mp hq'
  obtain ⟨f, hf, hrx⟩ := hall _ hq
  obtain ⟨f', hf', hry⟩ := hall _ hq'
  obtain rfl := he.unique (hxs x hx).sends
  obtain rfl := he'.unique (hxs y hy).sends
  obtain rfl := hf.unique he
  obtain rfl := hf'.unique he'
  exact sameReport_of_onRecord hj hxs hd (hxs x hx) (hxs y hy) hrx hry hname

theorem onRecord_of_namesApart (hall : NamesApart C qs) : AllOnRecord C state.storage qs t.state.disk := by
  obtain ⟨xs, rfl, hxs, hd⟩ := h.entries_of_empty hw hempty
  intro q hq
  obtain ⟨x, hx, rfl⟩ := List.mem_map.mp hq
  refine ⟨x.report, (hxs x hx).sends, onRecord_of_sameReport hxs hd hx fun y hy hname => ?_⟩
  exact hall _ hq _ (List.mem_map_of_mem hy) _ _ (hxs x hx).sends (hxs y hy).sends hname

/-- **No accepted report is overwritten exactly if reports with one name say the same.** -/
theorem reports_kept_iff (hj : PrettyLawful C.json) :
    AllOnRecord C state.storage qs t.state.disk ↔ NamesApart C qs :=
  ⟨namesApart_of_onRecord hw hempty h hj, onRecord_of_namesApart hw hempty h⟩

end Empty

/-- Uploads one after the other, as long as they are answered 201. -/
def acceptAll (C : Crates) (state : AppState) (env : Env) (i : ι) :
    List UploadRequest → ServerState ι → Option (ServerState ι)
  | [], w => some w
  | q :: qs, w => match (crashesInner C state q.token q.headers q.body).alone env i w with
    | some (.ok (201, _), v) => acceptAll C state env i qs v
    | _ => none

theorem allAccepted_of_acceptAll {qs : List UploadRequest} {w t : ServerState ι}
    (h : acceptAll C state env i qs w = some t) : AllAccepted C state env i qs w t := by
  induction qs generalizing w with
  | nil =>
    obtain rfl := Option.some.inj h
    exact .nil _
  | cons q qs ih =>
    unfold acceptAll at h
    split at h
    · next hrun => exact .cons hrun (ih h)
    · cases h

end Sequence

/-! ### Two reports with one name -/

open CrashSystem

/-- A second report of the same moment, with a text. -/
def againMetadata : CrashMetadata := {abcMetadata with panicText := some "again"}

def againBody : Bytes := bodyOf againMetadata

def uploadOf (body : Bytes) : UploadRequest := ⟨abcToken, abcHeaders, ⟨[body], false⟩⟩

def againParts (m : CrashMetadata) : Multipart :=
  ⟨[⟨some "metadata", none, none, [JsonText.print .compact 0 m.toJson], none⟩, abcField], none⟩

/-- The texts and the parts of these two uploads only. -/
def againCrates : Crates where
  sha256 := abcCrates.sha256
  json := {abcCrates.json with
    metadata := fun b => .ok (if b = JsonText.print .compact 0 againMetadata.toJson then againMetadata
      else abcMetadata)}
  parseBoundary _ := some "X"
  multipart _ body := if body.chunks = [againBody] then againParts againMetadata else againParts abcMetadata

theorem again_prettyLawful : PrettyLawful againCrates.json := ⟨abc_prettyLawful.read, abc_prettyLawful.separate⟩

theorem again_metadata : againCrates.json.metadata (JsonText.print .compact 0 againMetadata.toJson) = .ok againMetadata :=
  congrArg Except.ok (if_pos rfl)

theorem abc_metadata : againCrates.json.metadata (JsonText.print .compact 0 abcMetadata.toJson) =
    .ok abcMetadata := congrArg Except.ok (if_neg (by decide +kernel))

theorem againParts_read {m : CrashMetadata} (hv : m.schemaVersion = PROTOCOL_VERSION)
    (h : againCrates.json.metadata (JsonText.print .compact 0 m.toJson) = .ok m) :
    CrashEnvelope.readFields againCrates.json (againParts m) = .ok ⟨m, abcField.bytes, []⟩ := by
  have hbytes : againCrates.json.metadata (Field.bytes ⟨some "metadata", none, none,
      [JsonText.print .compact 0 m.toJson], none⟩) = .ok m := by
    rw [Field.bytes, List.flatten_cons, List.flatten_nil, List.append_nil, h]
  unfold CrashEnvelope.readFields againParts
  dsimp only
  rw [List.foldlM_cons, EnvelopeParts.add_metadata _ _ rfl rfl hbytes]
  show EnvelopeParts.finish ⟨some m, some _, []⟩ = _
  simp [EnvelopeParts.finish, hv]

theorem multipart_eq (body : Body) : againCrates.multipart "X" body =
    if body.chunks = [againBody] then againParts againMetadata else againParts abcMetadata := rfl

theorem uploadOf_parts (body : Bytes) : openMultipart againCrates (uploadOf body).headers (uploadOf body).body =
    .ok (againCrates.multipart "X" ⟨[body], false⟩) := rfl

theorem again_sends : (uploadOf againBody).Sends againCrates ⟨againMetadata, abcField.bytes, []⟩ := by
  refine ⟨againParts againMetadata, ?_, againParts_read rfl again_metadata⟩
  rw [uploadOf_parts, multipart_eq, if_pos rfl]

theorem abc_sends : (uploadOf abcBody).Sends againCrates
    ⟨abcMetadata, abcField.bytes, []⟩ := by
  refine ⟨againParts abcMetadata, ?_, againParts_read rfl abc_metadata⟩
  rw [uploadOf_parts, multipart_eq, if_neg (by decide +kernel)]

theorem uploadOf_calls (body : Bytes) : (uploadOf body).calls againCrates = 28 := by
  unfold UploadRequest.calls
  rw [uploadOf_parts, multipart_eq]
  split_ifs <;> rfl

theorem again_ready (b b' : Bytes) : Ready abcEnv abcApp.storage
    (emptyState.history.length + ([uploadOf b, uploadOf b'].map (·.calls againCrates)).sum) emptyState := by
  refine ⟨abc_ready.numbered, fun n hl hn => abc_ready.supply n hl ?_⟩
  rw [List.map_cons, List.map_cons, uploadOf_calls, uploadOf_calls] at hn
  exact Nat.lt_of_lt_of_le hn (by decide)

theorem emptyState_free (p : Path) (_ : abcApp.storage.bySource <+: p) : emptyState.state.disk.file p = none := rfl

theorem again_accepted : (acceptAll againCrates abcApp abcEnv ()
    [uploadOf abcBody, uploadOf againBody] emptyState).isSome = true := by decide +kernel

theorem twice_accepted : (acceptAll againCrates abcApp abcEnv ()
    [uploadOf abcBody, uploadOf abcBody] emptyState).isSome = true := by decide +kernel

/-- The second report takes the place of the first. -/
theorem again_overwrites : ∃ t, AllAccepted againCrates abcApp abcEnv ()
      [uploadOf abcBody, uploadOf againBody] emptyState t ∧
    ¬ AllOnRecord againCrates abcApp.storage [uploadOf abcBody, uploadOf againBody] t.state.disk := by
  obtain ⟨t, ht⟩ := Option.isSome_iff_exists.mp again_accepted
  have haccepted := allAccepted_of_acceptAll ht
  refine ⟨t, haccepted, fun hall => ?_⟩
  have hapart := namesApart_of_onRecord (again_ready _ _) emptyState_free haccepted again_prettyLawful hall
  have hsame := hapart _ (by simp) _ (by simp) _ _ abc_sends again_sends ⟨rfl, rfl, rfl, rfl⟩
  have htext : some (Json.string "again") = some .null := congrArg (Json.member "panic_text") hsame.metadata
  cases htext

theorem reports_kept_iff_twice : ∃ t, AllAccepted againCrates abcApp abcEnv ()
      [uploadOf abcBody, uploadOf abcBody] emptyState t ∧
    AllOnRecord againCrates abcApp.storage [uploadOf abcBody, uploadOf abcBody] t.state.disk := by
  obtain ⟨t, ht⟩ := Option.isSome_iff_exists.mp twice_accepted
  have haccepted := allAccepted_of_acceptAll ht
  refine ⟨t, haccepted, (reports_kept_iff (again_ready _ _) emptyState_free haccepted again_prettyLawful).mpr ?_⟩
  intro q hq q' hq' e e' he he' _
  have hq : q = uploadOf abcBody := by simpa using hq
  have hq' : q' = uploadOf abcBody := by simpa using hq'
  rw [hq] at he
  rw [hq'] at he'
  rw [he.unique he']
  exact ⟨rfl, rfl⟩

end Detritus.Server
