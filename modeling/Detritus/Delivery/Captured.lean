import Mathlib.Data.List.Sigma
import Detritus.Client.Interrupted
import Detritus.Delivery.Blocked

/-! From a panic to the receiver.

A capture leaves an entry whose parts have plain names and the content type of JSON, so
that the shipper makes a request of it that the endpoint can read. Whether the endpoint
takes it is then a matter of sizes: the parts have the limit that the receiver sets, the
metadata one of its own, and the body as a whole another. -/
namespace Detritus.Delivery
open Files Protocol Process Client
open Server hiding Crates Env Response World attempt call execAs file

/-! ### Texts in documents -/

section Text
open JsonText

theorem escape_length_pos (b : UInt8) : 1 ≤ (escape b).length := by
  unfold escape
  split
  · simp
  · split
    · simp
    · split <;> simp

theorem utf8_length_le_quote (s : String) : (utf8 s).length ≤ (quote s).length := by
  have hescape : ∀ bytes : Bytes, bytes.length ≤ (bytes.flatMap escape).length := by
    intro bytes
    induction bytes with
    | nil => exact Nat.le_refl _
    | cons b rest ih =>
      rw [List.flatMap_cons, List.length_append, List.length_cons]
      have := escape_length_pos b
      omega
  rw [quote, List.length_append, List.length_cons]
  have := hescape (utf8 s)
  omega

theorem print_infix_members {style : Style} {depth : Nat} {members : List (String × Json)} {k : String} {v : Json}
    (h : (k, v) ∈ members) : print style (depth + 1) v <:+: printMembers style depth members := by
  induction members with
  | nil => cases h
  | cons m rest ih =>
    obtain ⟨k', v'⟩ := m
    rw [printMembers]
    rcases List.mem_cons.mp h with heq | hrest
    · rw [← (Prod.mk.inj heq).2]
      exact List.infix_append ..
    · exact (ih hrest).trans (List.suffix_append ..).isInfix

/-- A value is written in the object that it is in. -/
theorem print_infix_object {style : Style} {depth : Nat} {members : List (String × Json)} {k : String} {v : Json}
    (h : (k, v) ∈ members) : print style (depth + 1) v <:+: print style depth (.object members) := by
  cases members with
  | nil => cases h
  | cons m rest =>
    obtain ⟨k', v'⟩ := m
    rw [print]
    rcases List.mem_cons.mp h with heq | hrest
    · rw [← (Prod.mk.inj heq).2]
      exact List.infix_append ..
    · exact (print_infix_members hrest).trans (List.suffix_append ..).isInfix

theorem panicText_infix {m : CrashMetadata} {text : String} (h : m.panicText = some text) :
    quote text <:+: print .compact 0 m.toJson := by
  have hinfix : print .compact 1 (Protocol.optional m.panicText) <:+: print .compact 0 m.toJson :=
    print_infix_object (k := "panic_text") (by simp)
  rw [h] at hinfix
  exact hinfix

end Text

/-! ### Captured entries -/

section Entry
variable {ι : Type} {C : Crates} {hook : PanicHookConfig} {capture : Capture} {env : Env} {i : ι}
  {w u : ClientState ι} {entry : Path} {uuid : Uuid}

theorem fill_writing {r : Except IoError Unit} {n : Nat} (hn : w.history.length = n + 2) (hw : w.state.disk.Tidy entry)
    (h : (capture.fill C hook entry).alone env i w = some (r, u)) :
    ∃ names, Writing entry names w.state.disk u.state.disk := by
  rcases fill_some hn h with ⟨e, -, hu⟩ | ⟨dump, v, -, hv, h⟩
  · rw [hu]
    exact ⟨[], .refl hw⟩
  · obtain ⟨r', x, hcopy, h⟩ := bind_some h
    have hwriting := copyContextFiles_writing (hv ▸ hw) hcopy
    rw [hv] at hwriting
    cases r' with
    | error e => exact ⟨_, h.2 ▸ hwriting⟩
    | ok ms => exact ⟨_, hwriting.trans (writeEntry_writing hwriting.tidy h)⟩

/-- What a capture changes beside the files of its entry. -/
theorem captured_disk (hw : Prepared hook env w) (h : (capture.write C hook).alone env i w = some (.ok (), u))
    (huuid : env.uuid w.history.length = some uuid) : u.state.disk.Numbered ∧
      (∀ q, ¬ hook.entry uuid <+: q → u.state.disk.content q = w.state.disk.content q) ∧
      ∀ q, (u.state.disk.dir q).isSome = true ↔ q <+: hook.entry uuid ∨ (w.state.disk.dir q).isSome = true := by
  rw [Capture.write_eq] at h
  obtain ⟨uuid', huuid', h⟩ := newUuid_some h
  obtain rfl := Option.some.inj (huuid.symm.trans huuid')
  rcases file_some h with ⟨_, hdir, h⟩ | ⟨e, -, hr, -⟩
  · obtain ⟨htidy, hcontent⟩ := entry_made (i := i) hw huuid (v := called i w .newUuid uuid) rfl hdir
    obtain ⟨names, hwriting⟩ := fill_writing rfl htidy h
    refine ⟨hwriting.tidy.numbered, fun q hq => (hwriting.within.content q hq).trans (congrFun hcontent q), fun q => ?_⟩
    rw [hwriting.within.dir, after_disk, (execFile_ok hdir).2.2]
    exact Disk.createDirAll_dir ..
  · cases hr

theorem entry_pending (hook : PanicHookConfig) (uuid : Uuid) :
    hook.entry uuid = pendingAt hook.spoolDir uuid.toString := congrFun (hook.entry_pendingAt rfl) uuid

theorem pendingAt_below_iff {spool : Path} {x y : String} : pendingAt spool x <+: pendingAt spool y ↔ x = y :=
  ⟨fun h => pendingAt_below (h.trans (List.prefix_append _ [])), fun h => h ▸ List.prefix_refl _⟩

/-- The path of an entry is not that of one of its files. -/
theorem stored_self (entry : Path) (files : List (String × Bytes)) (content : Path → Option Bytes) :
    stored entry files content entry = content entry := by
  induction files generalizing content with
  | nil => rfl
  | cons f rest ih =>
    refine (ih _).trans (Function.update_of_ne (fun heq => ?_) ..)
    have hlength := congrArg List.length heq
    simp at hlength

section Captured
variable (hw : Prepared hook env w) (h : (capture.write C hook).alone env i w = some (.ok (), u))
  (huuid : env.uuid w.history.length = some uuid)
include hw h huuid

/-- The entry is there, beside those that were there. -/
theorem captured_pending (x : String) : ((view hook.spoolDir u.state.disk).pending x).isSome = true ↔
    x = uuid.toString ∨ ((view hook.spoolDir w.state.disk).pending x).isSome = true := by
  have hview : ∀ d : Disk, ((view hook.spoolDir d).pending x).isSome = (d.dir (pendingAt hook.spoolDir x)).isSome :=
    fun d => entryAt_isSome
  rw [hview, hview, (captured_disk hw h huuid).2.2, entry_pending]
  exact or_congr_left pendingAt_below_iff

theorem captured_content : ∃ dump, capture.dump env w.history.length = .ok dump ∧
    u.state.disk.content = stored (hook.entry uuid)
      (capture.files C hook w.state.disk.content (capture.moment env w.history.length) dump) w.state.disk.content := by
  obtain ⟨uuid', dump, huuid', hdump, hcontent⟩ := capture_ok hw h
  obtain rfl := Option.some.inj (huuid'.symm.trans huuid)
  exact ⟨dump, hdump, hcontent⟩

theorem captured_workable (hfree : u.state.holder (lockPath hook.spoolDir) = none)
    (hproper : Proper hook.spoolDir w.state.disk) : Workable hook.spoolDir u := by
  obtain ⟨hnumbered, hcontent, -⟩ := captured_disk hw h huuid
  rw [entry_pending] at hcontent
  refine ⟨hfree, hnumbered, fun x => ?_, fun x hx => ?_⟩
  · rw [hcontent _ fun hbelow => not_pendingAt_below (hbelow.trans (List.prefix_append _ [])), hproper.sent]
  · by_cases hx' : x = uuid.toString
    · obtain ⟨dump, -, hstored⟩ := captured_content hw h huuid
      refine ⟨hx' ▸ uuid_component uuid, ?_⟩
      rw [hx', ← entry_pending, hstored, stored_self, Disk.content, hw.free uuid huuid _ (List.prefix_refl _)]
      rfl
    · have hthere := ((captured_pending hw h huuid x).mp (entryAt_isSome.trans hx)).resolve_left hx'
      obtain ⟨hcomponent, hnone⟩ := hproper.pending x (entryAt_isSome.symm.trans hthere)
      exact ⟨hcomponent, (hcontent _ fun hbelow => hx' (pendingAt_below_iff.mp hbelow).symm).trans hnone⟩

variable {m : CrashMetadata}
  (hm : m = capture.storedMetadata C hook w.state.disk.content (capture.moment env w.history.length))
  (hspooled : C.json.metadata (C.json.writePretty m.toJson) = .ok m)
include hm hspooled

/-- What was captured is read. -/
theorem captured_read : ∃ dump, capture.dump env w.history.length = .ok dump ∧
    envelopeAt C u.state.disk.content (hook.entry uuid) =
      .ok ⟨m, dump, m.attachments.map (attachmentFor u.state.disk.content (hook.entry uuid))⟩ := by
  obtain ⟨dump, hdump, hcontent⟩ := captured_content hw h huuid
  subst hm
  exact ⟨dump, hdump, envelopeAt_captured hcontent hspooled rfl⟩

/-- The files of an entry lie in it. -/
theorem captured_local : Local C u.state.disk.content (hook.entry uuid) := by
  obtain ⟨dump, -, hcontent⟩ := captured_content hw h huuid
  intro bytes metadata hbytes hmetadata a ha name hname
  subst hm
  obtain rfl := Option.some.inj ((metadata_there hcontent).symm.trans hbytes)
  obtain rfl := Except.ok.inj (hspooled.symm.trans hmetadata)
  suffices hcomponent : Component name by
    rw [hcomponent.join]
    exact List.prefix_append ..
  rcases mem_storedMetadata.mp ha with ⟨-, rfl⟩ | ha
  · exact Option.some.inj hname ▸ component_names.2.2
  · obtain ⟨index, text, -, rfl⟩ := mem_contextManifests.mp ha
    exact Option.some.inj hname ▸ contextName_component index text

end Captured

/-! ### Names and types of the parts -/

theorem contextKey_plain (n : Nat) : PlainName ("context-" ++ toString n) ∧ Visible ("context-" ++ toString n) := by
  have hdigit : ∀ c ∈ (toString n).toList, c.isDigit = true := by
    intro c hc
    rw [Nat.toString_eq_repr, Nat.toList_repr] at hc
    exact Nat.isDigit_of_mem_toDigits (by decide) (by decide) hc
  refine ⟨⟨?_, ?_, ?_, ?_⟩, fun c hc => ?_⟩
  rotate_right
  · rw [String.toList_append, List.mem_append] at hc
    rcases hc with hc | hc
    · exact (by decide : Visible "context-") c hc
    · have hc := hdigit c hc
      simp only [Char.isDigit, Bool.and_eq_true, decide_eq_true_eq] at hc
      refine ⟨le_trans (by decide) hc.1, ?_⟩
      rintro rfl
      exact absurd hc.2 (by decide)
  all_goals
    rw [String.toList_append, List.mem_append, not_or]
    exact ⟨by decide, fun hmem => absurd (hdigit _ hmem) (by decide)⟩

theorem sdkConfig_plain : PlainName "sdk-config" ∧ Visible "sdk-config" :=
  ⟨⟨by decide, by decide, by decide, by decide⟩, by decide⟩

theorem contextManifests_keys (before : Path → Option Bytes) (files : List String) :
    (contextManifests before 0 files).Pairwise fun a b => a.key ≠ b.key := by
  rw [contextManifests_eq, List.pairwise_map]
  exact (List.pairwise_map.mp (List.nodup_zipIdx_map_snd files)).imp fun hne hkey => hne (contextKey_inj hkey)

variable {before : Path → Option Bytes} {now : Time}

/-- The keys of an entry tell its parts apart. -/
theorem storedMetadata_keys :
    (capture.storedMetadata C hook before now).attachments.Pairwise fun a b => a.key ≠ b.key := by
  have hkeys := contextManifests_keys before hook.contextFiles
  cases capture with
  | minidump dump => exact hkeys
  | crash info =>
    refine List.pairwise_cons.mpr ⟨fun m hm => ?_, hkeys⟩
    obtain ⟨index, text, -, rfl⟩ := mem_contextManifests.mp hm
    exact contextKey_ne index

theorem storedMetadata_plain {m : AttachmentManifest} (hm : m ∈ (capture.storedMetadata C hook before now).attachments) :
    (PlainName m.key ∧ Visible m.key) ∧ m.contentType = "application/json" := by
  rcases mem_storedMetadata.mp hm with ⟨-, rfl⟩ | hm
  · exact ⟨sdkConfig_plain, rfl⟩
  · obtain ⟨index, text, -, rfl⟩ := mem_contextManifests.mp hm
    exact ⟨contextKey_plain index, rfl⟩

end Entry


/-! ### Requests for captured entries -/

section Requests
variable {κ ι : Type} {site : Site κ} {mime : Mime} {C : Crates} {hook : PanicHookConfig}
  {capture : Capture} {config : ShipConfig} {env : Env} {i : ι} {w u v : ClientState ι}
  {uuid : Uuid} {m : CrashMetadata} {e : CrashEnvelope} {endpoint : Url} {token : String}
  {request : HttpRequest} {s : ServerState Unit}

/-- Plain keys and types survive the framing, and so do parts in which the boundary does not occur. -/
theorem sound_of_plain (hkeeps : C.json.Keeps e.metadata) (hversion : e.metadata.schemaVersion = PROTOCOL_VERSION)
    (hkeys : e.attachments.Pairwise fun a b => a.key ≠ b.key)
    (hplain : ∀ a ∈ e.attachments,
      (PlainName a.key ∧ Visible a.key) ∧ mime.normal a.contentType = some a.contentType)
    (hclear : ∀ p ∈ sentParts C config e, ¬ delimiter DEFAULT_BOUNDARY <:+: p) : Sound C mime config e := by
  have hkeys' : e.attachments.Pairwise fun a b => config.compresses b = true → a.key ≠ b.key :=
    hkeys.imp fun {_ _} hne => fun _ => hne
  refine ⟨hkeeps, hkeys', fun sent encodings hcompress => ?_⟩
  have htruthful := compressEnvelope_truthful hkeys' hcompress
  rw [sentParts, hcompress] at hclear
  have hnamed : ∀ a ∈ sent.attachments, PlainName a.key ∧ Visible a.key := by
    intro a ha
    obtain ⟨b, hb, hkey⟩ := List.mem_map.mp (htruthful.keys ▸ List.mem_map_of_mem (f := CrashAttachment.key) ha)
    exact hkey ▸ (hplain b hb).1
  refine ⟨⟨?_, fun a ha => (hnamed a ha).1, fun a ha => ?_, hclear _ (.head _), fun a ha => ?_⟩,
    fun a ha => (hnamed a ha).2⟩
  · rw [compressEnvelope_metadata hcompress, hversion]
  · obtain ⟨b, hb, htype⟩ :=
      List.mem_map.mp (htruthful.contentTypes ▸ List.mem_map_of_mem (f := CrashAttachment.contentType) ha)
    exact htype ▸ (hplain b hb).2
  · exact hclear _ (.tail _ (List.mem_map_of_mem ha))

/-- Metadata that comes through: it is read back from the spool and at the endpoint, and the text
of the panic is written out in it. -/
structure Survives (C : Crates) (m : CrashMetadata) : Prop where
  spooled : C.json.metadata (C.json.writePretty m.toJson) = .ok m
  sent : C.json.Keeps m
  text : ∀ text, m.panicText = some text → JsonText.quote text <:+: C.json.write m.toJson

theorem Survives.length_le (h : Survives C m) {text : String} (htext : m.panicText = some text) :
    (utf8 text).length ≤ (C.json.write m.toJson).length :=
  (utf8_length_le_quote text).trans (h.text text htext).length_le

/-- No part that is sent for an entry contains the boundary. -/
def Unmarked (C : Crates) (config : ShipConfig) (content : Path → Option Bytes) (entry : Path) : Prop :=
  ∀ e, envelopeAt C content entry = .ok e →
    ∀ p ∈ sentParts C config e, ¬ delimiter DEFAULT_BOUNDARY <:+: p

section Captured
variable (hmime : mime.normal "application/json" = some "application/json") (hw : Prepared hook env w)
  (hcapture : (capture.write C hook).alone env i w = some (.ok (), u))
  (huuid : env.uuid w.history.length = some uuid)
  (hm : m = capture.storedMetadata C hook w.state.disk.content (capture.moment env w.history.length))
  (hsurvives : Survives C m) (hunmarked : Unmarked C config u.state.disk.content (hook.entry uuid))
include hmime hw hcapture huuid hm hsurvives hunmarked

/-- **What a capture leaves can be sent.** -/
theorem captured_sound : ∃ e, envelopeAt C u.state.disk.content (hook.entry uuid) = .ok e ∧ e.metadata = m ∧
    Sound C mime config e := by
  obtain ⟨dump, -, hread⟩ := captured_read hw hcapture huuid hm hsurvives.spooled
  refine ⟨_, hread, rfl, sound_of_plain hsurvives.sent ?_ ?_ ?_ (hunmarked _ hread)⟩
  · subst hm
    cases capture <;> rfl
  · subst hm
    exact List.pairwise_map.mpr storedMetadata_keys
  · intro a ha
    obtain ⟨manifest, hmanifest, rfl⟩ := List.mem_map.mp ha
    subst hm
    obtain ⟨hplain, htype⟩ := storedMetadata_plain hmanifest
    refine ⟨hplain, ?_⟩
    show mime.normal manifest.contentType = some manifest.contentType
    rw [htype, hmime]

end Captured

/-- A receiver that is there for a source: it knows the token and permits the source, its limiter
has room and it has no schema for the project. -/
structure Receives (site : Site κ) (token : String) (source : SourceId) (s : ServerState Unit) : Prop where
  admitted : ∃ context key,
    site.authenticate token = some context ∧
    SourceKey.new source.project source.installId.toString = .ok key ∧ context.permits key = true ∧
    admits site.env site.app context s key = true
  schema : site.app.schemaRegistry.schemas source.project .crashMetadata = none

/-- For a source that is received, only the sizes of a report count. -/
theorem acceptable_iff_sizes (hlink : Linked C site mime) {context : TokenContext} {key : SourceKey}
    {sent : CrashEnvelope} {encodings : EnvelopeEncodings}
    (hcompress : compressEnvelope C.compress config e = .ok (sent, encodings))
    (hkey : SourceKey.new e.metadata.source.project e.metadata.source.installId.toString = .ok key)
    (hpermits : context.permits key = true) {admitted : SourceKey → Bool} (hadmits : admitted key = true)
    (hschema : site.app.schemaRegistry.schemas e.metadata.source.project .crashMetadata = none) :
    Acceptable site.crates site.app context admitted sent ↔
      (C.json.write e.metadata.toJson).length ≤ METADATA_MAX_BYTES ∧
        ∀ p ∈ sentParts C config e, p.length ≤ site.app.maxDumpBytes := by
  have hmetadata := compressEnvelope_metadata hcompress
  rw [sentParts, hcompress, List.forall_mem_cons, List.forall_mem_map, ← hmetadata, ← hlink.json]
  constructor
  · intro ha
    exact ⟨ha.metadata, ha.dump, ha.attachments⟩
  · rintro ⟨hsize, hdump, hattachments⟩
    refine ⟨⟨key, hmetadata ▸ hkey, hpermits, hadmits⟩, hsize, fun errorsOf herrors => ?_, hdump, hattachments⟩
    rw [hmetadata, hschema] at herrors
    cases herrors

/-- **What was captured is created exactly if it is small enough.** The entry is read, and a
receiver that is there for its source answers the request for it with 201 if and only if the
body, the metadata and every part are within their limits. -/
theorem captured_created_iff (hlink : Linked C site mime) (hurl : site.url = crashUrl C endpoint)
    (hmime : mime.normal "application/json" = some "application/json") (hw : Prepared hook env w)
    (hcapture : (capture.write C hook).alone env i w = some (.ok (), u))
    (huuid : env.uuid w.history.length = some uuid)
    (hm : m = capture.storedMetadata C hook w.state.disk.content (capture.moment env w.history.length))
    (hsurvives : Survives C m) (hunmarked : Unmarked C config u.state.disk.content (hook.entry uuid))
    (hrequest : requestAt C u.state.disk.content endpoint token config (hook.entry uuid) = .ok request)
    (hreceives : Receives site token hook.source s)
    (hrest : AtRest site.env site.app.storage s)
    (hsupplied : Supplied site (site.calls (.ok request)) s) :
    ∃ e status t, envelopeAt C u.state.disk.content (hook.entry uuid) = .ok e ∧ e.metadata = m ∧
      site.peer request s = some (.ok ⟨status, none⟩, t) ∧
      (status = 201 ↔ request.body.length ≤ BODY_LIMIT ∧
        (C.json.write m.toJson).length ≤ METADATA_MAX_BYTES ∧
        ∀ p ∈ sentParts C config e, p.length ≤ site.app.maxDumpBytes) ∧
      (status ≠ 201 → 400 ≤ status) := by
  obtain ⟨e, hread, rfl, hsound⟩ := captured_sound hmime hw hcapture huuid hm hsurvives hunmarked
  rw [requestAt, hread] at hrequest
  obtain ⟨sent, encodings, hcompress, heq⟩ := requestFor_ok hrequest
  have hurl : request.url = site.url := by rw [heq, hurl]
  obtain ⟨context, key, hcontext, hkey, hpermits, hadmits⟩ := hreceives.admitted
  have hsource : e.metadata.source = hook.source := by
    rw [hm]
    cases capture <;> rfl
  rw [← hsource] at hkey
  by_cases hbody : request.body.length ≤ BODY_LIMIT
  · obtain ⟨status, t, hpeer, hiff, herror⟩ := peer_created hlink hsound.keeps hcompress
      (hsound.framed sent encodings hcompress) hrequest (ready_of_supplied hrest hsupplied) hurl hbody hcontext
    refine ⟨e, status, t, hread, rfl, hpeer, ?_, herror⟩
    rw [hiff, acceptable_iff_sizes hlink hcompress hkey hpermits hadmits (hsource ▸ hreceives.schema)]
    exact (and_iff_right hbody).symm
  · refine ⟨e, 413, s, hread, rfl, site.peer_tooLarge hurl (Nat.lt_of_not_le hbody), ?_, by simp⟩
    exact ⟨fun h => absurd h (by decide), fun h => absurd h.1 hbody⟩

end Requests

/-! A minidump that is created. -/

theorem empty_prepared : Prepared (sampleConfig []) quietEnv (sampleState .empty) :=
  ⟨nofun, fun _ _ _ _ => rfl, nofun⟩

theorem empty_uuid : quietEnv.uuid (sampleState .empty).history.length = some (Uuid.repeated 0) := rfl

theorem seven_receives : Receives localSite "t" (sampleConfig []).source emptyState where
  admitted := by
    refine ⟨⟨"token", "app", "app/", "hash"⟩, ⟨"app", (sampleConfig []).source.installId.toString⟩, rfl, ?_, ?_, ?_⟩
    all_goals decide +kernel
  schema := rfl

theorem seven_survives : Survives strictCrates (sampleMetadata []) := ⟨rfl, sevenReport_keeps, nofun⟩

theorem seven_captured : ∃ u, ((Capture.minidump [7]).write strictCrates (sampleConfig [])).alone
    quietEnv () (sampleState .empty) = some (.ok (), u) := by
  have h : (((Capture.minidump [7]).write strictCrates (sampleConfig [])).alone
      quietEnv () (sampleState .empty)).map Prod.fst = some (.ok ()) := by decide +kernel
  obtain ⟨⟨r, u⟩, hrun, hr⟩ := Option.map_eq_some_iff.mp h
  exact ⟨u, hr ▸ hrun⟩

theorem captured_created_iff_seven : ∃ u t,
    ((Capture.minidump [7]).write strictCrates (sampleConfig [])).alone quietEnv ()
      (sampleState .empty) = some (.ok (), u) ∧
    localSite.peer sevenRequest emptyState = some (.ok ⟨201, none⟩, t) := by
  obtain ⟨u, hcapture⟩ := seven_captured
  obtain ⟨dump, hdump, hread⟩ := captured_read empty_prepared hcapture empty_uuid rfl seven_survives.spooled
  obtain rfl : [7] = dump := Except.ok.inj hdump
  have hread : _ = Except.ok sevenReport := hread
  have hunmarked : Unmarked strictCrates .default u.state.disk.content
      ((sampleConfig []).entry (Uuid.repeated 0)) := by
    intro e he
    obtain rfl := Except.ok.inj (hread.symm.trans he)
    decide +kernel
  have hrequest : requestAt strictCrates u.state.disk.content ⟨"http://localhost/"⟩ "t" .default
      ((sampleConfig []).entry (Uuid.repeated 0)) = .ok sevenRequest := by
    rw [requestAt, hread]
    exact seven_requested
  have hsupplied : Supplied localSite (localSite.calls (.ok sevenRequest)) emptyState := by
    intro n hn
    have hcalls := seven_calls
    have hlength : emptyState.history.length = 0 := rfl
    rw [hlength, Site.calls] at hn
    exact ⟨_, if_pos (by omega)⟩
  obtain ⟨e, status, t, hread', -, hpeer, hiff, -⟩ := captured_created_iff localSite_linked rfl rfl empty_prepared hcapture
    empty_uuid rfl seven_survives hunmarked hrequest seven_receives emptyState_atRest hsupplied
  obtain rfl := Except.ok.inj (hread.symm.trans hread')
  obtain rfl := hiff.mpr ⟨by decide +kernel, by decide +kernel, by decide +kernel⟩
  exact ⟨u, t, hcapture, hpeer⟩

end Detritus.Delivery
