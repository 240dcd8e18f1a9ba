import Detritus.Files.Region
import Detritus.Server.CrashStore
import Detritus.Server.LogExport
import Detritus.Server.Service

/-! What the requests of tenants leave in storage.

Whatever is stored for a project was accepted by its schemas, and whatever a request
changes lies where its token allows, in any interleaving of requests and writers. -/
namespace Detritus.Server
open Files Protocol Process

namespace Service
variable {κ : Type} (Y : Service κ) {errorsOf : Json → List String} {project : String}

/-- Storage without a file of any source. -/
structure Vacant (d : Disk) : Prop where
  numbered : d.Numbered
  owned : ∀ p, Owned Y.app.storage p → d.file p = none

section Reached
variable [DecidableEq κ] {G : Path → Prop} {d : Disk} {buckets : Buckets} {c : Config Y.pool}

omit [DecidableEq κ] in
theorem vetted_initial (hd : d.Numbered) (hG : ∀ p, G p → d.file p = none) :
    Vetted Y.app.storage Y.remit G (initial d buckets) where
  disk := by
    refine ⟨hd, ?_, ?_, ?_⟩
    · intro p q n hp hn
      cases (hG p hp).symm.trans hn
    · rintro n p ⟨i, hd, -, hm | hm⟩ <;> exact absurd hm List.not_mem_nil
    · intro p bytes hp hb
      obtain ⟨n, hn, -⟩ := Option.map_eq_some_iff.mp hb
      cases (hG p hp).symm.trans hn
  channels := by
    refine ⟨?_, ?_, ?_, ?_, ?_⟩
    · exact fun _ _ h => by cases h
    · exact fun _ _ _ h => by cases h
    · exact fun _ _ _ h => absurd h List.not_mem_nil
    · exact fun _ _ _ h => absurd h List.not_mem_nil
    · exact fun _ _ _ h => absurd h List.not_mem_nil

theorem reach_vetted (hG : ∀ p, G p → Owned Y.app.storage p) (hd : d.Numbered) (hfree : ∀ p, G p → d.file p = none)
    (h : (Y.pool.start (initial d buckets)).Reach (fun _ _ _ => True) c) :
    Vetted Y.app.storage Y.remit G c.world := by
  refine (Y.reach_reaches h).1.invariant (Vetted Y.app.storage Y.remit G) ?_ ?_ (Y.vetted_initial hd hfree)
  · intro i op w x w' hm hx hV
    exact hV.step hG Y.remit_checked hm hx
  · exact fun _ _ _ hs => by cases hs

end Reached

/-! ### Schemas -/

/-- What is left of a file whose content an upload put there: the text of an index of which `errorsOf` finds no
fault in the metadata. A shorter index that is written where a longer one was leaves the end of that. -/
def FaultlessIndex (errorsOf : Json → List String) (bytes : Bytes) : Prop :=
  ∃ index : CrashIndex, errorsOf index.metadata.toJson = [] ∧ Y.crates.json.writePretty index.toJson <+: bytes ∧
    ∀ members, bytes = Y.crates.json.writePretty (.object members) → Json.object members = index.toJson

/-- The text of records, each of an entry of some request of which `errorsOf` finds no fault in the attributes. -/
def FaultlessRecords (errorsOf : Json → List String) (bytes : Bytes) : Prop :=
  ∃ stored : List (ResourceLogs × LogRecord), bytes = stored.flatMap (fun x => Y.encode (logRecordJson x.2)) ∧
    ∀ x ∈ stored, (∃ j, x.1 ∈ (Y.requests j).payload.entries) ∧ x.2 ∈ x.1.records ∧
      errorsOf (resourceLogsToValidationValue x.1) = []

theorem errors_of_validate {r : SchemaRegistry} {kind : SchemaKind} {payload : Json}
    (hs : r.schemas project kind = some errorsOf) (hv : r.validate project kind payload = .ok ()) :
    errorsOf payload = [] := by
  unfold SchemaRegistry.validate at hv
  rw [hs] at hv
  dsimp only at hv
  split at hv
  · next he => exact List.isEmpty_iff.mp he
  · cases hv

theorem faultlessIndex_of_accepted (hj : PrettyLawful Y.crates.json) {source : SourceKey} {index bytes : Bytes}
    (hs : Y.app.schemaRegistry.schemas source.project .crashMetadata = some errorsOf)
    (hi : Y.AcceptedIndex source index) (hp : index <+: bytes) : Y.FaultlessIndex errorsOf bytes := by
  obtain ⟨x, rfl, haccepted⟩ := hi
  refine ⟨x, errors_of_validate hs haccepted, hp, fun members hm => ?_⟩
  rw [hm] at hp
  exact congrArg Json.object (hj.separate _ _ hp).symm

theorem faultlessRecords_of_accepted {source : SourceKey} {lines : List Json}
    (hs : Y.app.schemaRegistry.schemas source.project .logAttributes = some errorsOf)
    (hlines : ∀ line ∈ lines, ∃ i, Y.remit.line i source line) :
    Y.FaultlessRecords errorsOf (lines.flatMap Y.encode) := by
  induction lines with
  | nil => exact ⟨[], rfl, by simp⟩
  | cons line rest ih =>
    obtain ⟨stored, hbytes, hstored⟩ := ih fun l hl => hlines l (.tail _ hl)
    obtain ⟨_, j, entry, record, -, rfl, hrecord⟩ := hlines line (.head _)
    refine ⟨(entry, record) :: stored, ?_, List.forall_mem_cons.mpr ⟨⟨⟨j, hrecord.sent⟩, hrecord.listed, ?_⟩, hstored⟩⟩
    · rw [List.flatMap_cons, List.flatMap_cons, hbytes]
    · exact errors_of_validate hs hrecord.accepted

omit Y in
/-- The directory of a project is that of a source's project. -/
theorem project_of_index {P : StoragePaths} {source : SourceKey} {p : Path} (hv : source.Valid)
    (hi : IsIndex P source p) (hp : P.bySource ++ [project] <+: p) : source.project = project := by
  obtain ⟨t, d, hi⟩ := hi
  rw [hi, P.indexPath_eq hv, P.bySource_eq, List.append_assoc, List.prefix_append_right_inj] at hp
  simp only [List.cons_append, List.nil_append, List.cons_prefix_cons, List.nil_prefix, true_and, and_true] at hp
  exact hp.symm

omit Y in
theorem project_of_log {P : StoragePaths} {source : SourceKey} {p : Path} (hv : source.Valid)
    (hl : IsLog P source p) (hp : P.logsDir ++ [project] <+: p) : source.project = project := by
  obtain ⟨date, hl⟩ := hl
  rw [hl, P.logFile_eq hv, P.logsDir_eq, List.append_assoc, List.prefix_append_right_inj] at hp
  simp only [List.cons_append, List.nil_append, List.cons_prefix_cons, List.nil_prefix, true_and, and_true] at hp
  exact hp.symm

omit Y in
theorem index_not_logsDir {P : StoragePaths} {source : SourceKey} {p : Path} (hv : source.Valid)
    (hi : IsIndex P source p) : ¬ P.logsDir <+: p := by
  obtain ⟨t, d, hi⟩ := hi
  rw [hi]
  exact fun hl => P.regions_apart.2.2 ⟨hl, P.bySource_indexPath hv t d⟩

omit Y in
theorem log_not_bySource {P : StoragePaths} {source : SourceKey} {p : Path} (hv : source.Valid)
    (hl : IsLog P source p) : ¬ P.bySource <+: p := by
  obtain ⟨date, hl⟩ := hl
  rw [hl]
  exact fun hs => P.regions_apart.2.2 ⟨P.logsDir_logFile hv date, hs⟩

/-- **Whatever is stored for a project with a schema, the schema has accepted.** -/
theorem stored_accepted [DecidableEq κ] (hj : PrettyLawful Y.crates.json) {d : Disk} {buckets : Buckets} (hd : Y.Vacant d)
    {c : Config Y.pool} (h : (Y.pool.start (initial d buckets)).Reach (fun _ _ _ => True) c) (project : String)
    (errorsOf : Json → List String) :
    (Y.app.schemaRegistry.schemas project .crashMetadata = some errorsOf →
      ∀ p bytes, Y.app.storage.bySource ++ [project] <+: p → c.world.state.disk.content p = some bytes →
        bytes = [] ∨ Y.FaultlessIndex errorsOf bytes) ∧
    (Y.app.schemaRegistry.schemas project .logAttributes = some errorsOf →
      ∀ p bytes, Y.app.storage.logsDir ++ [project] <+: p → c.world.state.disk.content p = some bytes →
        Y.FaultlessRecords errorsOf bytes) := by
  have V := Y.reach_vetted (fun _ hp => hp) hd.numbered hd.owned h
  refine ⟨fun hs p bytes hp hb => ?_, fun hs p bytes hp hb => ?_⟩
  · have hroot : Y.app.storage.bySource <+: p := (List.prefix_append ..).trans hp
    obtain ⟨source, hv, ⟨hi, hempty | ⟨i, index, hindex, hpart⟩⟩ | ⟨hl, -⟩⟩ := V.disk.content p bytes (.inl hroot) hb
    · exact .inl hempty
    · obtain rfl := project_of_index hv hi hp
      exact .inr (Y.faultlessIndex_of_accepted hj hs hindex hpart)
    · exact absurd hroot (log_not_bySource hv hl)
  · have hroot : Y.app.storage.logsDir <+: p := (List.prefix_append ..).trans hp
    obtain ⟨source, hv, ⟨hi, -⟩ | ⟨hl, lines, rfl, hlines⟩⟩ := V.disk.content p bytes (.inr hroot) hb
    · exact absurd hroot (index_not_logsDir hv hi)
    · obtain rfl := project_of_log hv hl hp
      exact Y.faultlessRecords_of_accepted hs hlines

/-! An upload and a log request of one project, with schemas for both. -/

/-- A schema that asks for a member. -/
def requires (key : String) (doc : Json) : List String :=
  if (doc.member key).isSome then [] else ["\"" ++ key ++ "\" is a required property"]

def sampleRegistry : SchemaRegistry where
  schemas project kind := if project = "app" then match kind with
    | .crashMetadata => some (requires "panic_text")
    | .logAttributes => some (requires "resource")
  else none

def sampleToken : TokenContext := ⟨"token", "app", "app/", "hash"⟩

def sampleDate : NaiveDate := .afterNewYear

def sampleService : Service Bool where
  crates := CrashSystem.abcCrates
  app := ⟨⟨["data"]⟩, 1024, .default, sampleRegistry⟩
  auth := ⟨⟨[sampleToken]⟩, fun _ presented => presented = "secret"⟩
  utcDate _ := sampleDate
  env := CrashSystem.abcEnv
  requests j := ⟨some (some ("Bearer " ++ "secret")), if j then
      .crash CrashSystem.abcHeaders ⟨[CrashSystem.abcBody], false⟩
    else .logs (some (some "1")) [sampleEntry "app" "a" "first"]⟩

def sampleDisk : Disk := sampleService.app.storage.prepare 0 .empty

def sampleStart : Config sampleService.pool := sampleService.pool.start (initial sampleDisk fun _ => none)

theorem sampleDisk_file (p : Path) : sampleDisk.file p = none := rfl

theorem sampleDisk_numbered : sampleDisk.Numbered := by
  intro p n h
  rw [sampleDisk_file] at h
  cases h

def sampleLog : Path := sampleService.app.storage.logFile ⟨"app", "a"⟩ sampleDate

/-- The upload, the log request, and then the writer up to its first line. -/
def sampleMoves : List (Move (ServiceTask Bool)) :=
  List.replicate 17 (.run (.request true)) ++ List.replicate 7 (.run (.request false)) ++
    List.replicate 6 (.run (.writer 0))

def sampleStored (c : Config sampleService.pool) : Bool :=
  (c.world.state.disk.content CrashSystem.abcIndexPath).any (fun bytes => !bytes.isEmpty) &&
    (c.world.state.disk.content sampleLog).any fun bytes => !bytes.isEmpty

theorem sample_stored :
    (sampleStart.runs (fun _ _ _ => true) (sampleMoves ++ [.run (.writer 0)])).any sampleStored = true := by
  decide +kernel

theorem stored_accepted_sample : ∃ c index records, sampleStart.Reach (fun _ _ _ => True) c ∧
    c.world.state.disk.content CrashSystem.abcIndexPath = some index ∧
    c.world.state.disk.content sampleLog = some records ∧ records ≠ [] ∧
    sampleService.FaultlessIndex (requires "panic_text") index ∧
    sampleService.FaultlessRecords (requires "resource") records := by
  obtain ⟨c, hreach, hc⟩ := Config.runs_any (fun _ _ _ _ => trivial) _ _ sample_stored
  simp only [sampleStored, Bool.and_eq_true, Option.any_eq_true, Bool.not_eq_true', List.isEmpty_eq_false_iff] at hc
  obtain ⟨⟨index, hindex, hne⟩, records, hrecords, hne'⟩ := hc
  have hvacant : sampleService.Vacant sampleDisk := ⟨sampleDisk_numbered, fun p _ => sampleDisk_file p⟩
  have hj := CrashSystem.abc_prettyLawful
  refine ⟨c, index, records, hreach, hindex, hrecords, hne', ?_, ?_⟩
  · have hroot : sampleService.app.storage.bySource ++ ["app"] <+: CrashSystem.abcIndexPath := by decide +kernel
    exact ((sampleService.stored_accepted hj hvacant hreach "app" _).1 rfl _ _ hroot hindex).resolve_left hne
  · have hroot : sampleService.app.storage.logsDir ++ ["app"] <+: sampleLog := by decide +kernel
    exact (sampleService.stored_accepted hj hvacant hreach "app" _).2 rfl _ _ hroot hrecords

/-! ### Tenants -/

omit Y in
/-- Where the files of a token's requests lie: in `tmp`, at the path of a digest, or at a path of a source
that the token permits. -/
def Reserved (P : StoragePaths) (token : TokenContext) (p : Path) : Prop :=
  (∃ name, p = P.dataDir ++ ["tmp", name]) ∨
  (∃ d : Sha256, p = P.dataDir ++ ["crashes", "by-hash", StoragePaths.shard d, d.hex ++ ".bin"]) ∨
  ∃ sid, Component sid ∧ token.sourcePrefix.toList <+: (token.project ++ "/" ++ sid).toList ∧
    ((∃ date : NaiveDate, p = P.dataDir ++ ["logs", token.project, sid, date.toString ++ ".ndjson"]) ∨
    ∃ (t : DateTime) (d : Sha256), p = P.dataDir ++
      ["crashes", "by-source", token.project, sid, t.format ++ "-" ++ d.hex ++ ".json"])

omit Y in
/-- The path goes down from the directory, and never up. -/
def Within (dir p : Path) : Prop := ∃ below, below ≠ [] ∧ p = dir ++ below ∧ ∀ s ∈ below, Component s ∧ s ≠ ".."

/-- The task works for the request: it is the request, or the writer of a channel that the request was handed. -/
def Serves (j : κ) : ServiceTask κ → List (ServiceEvent κ) → Prop
  | .request j', _ => j' = j
  | .writer k, h => ∃ source, (⟨.request j, .senderFor source, k⟩ : ServiceEvent κ) ∈ h
  | .shutdown, _ => False

omit Y in
theorem up_ne_append {s t : String} (ht : 3 ≤ t.toList.length) : s ++ t ≠ ".." := by
  intro h
  have hl : (s ++ t).toList.length = 2 := by rw [h]; rfl
  rw [String.toList_append, List.length_append] at hl
  omega

section Paths
variable {P : StoragePaths} {token : TokenContext} {source : SourceKey} {p : Path}

omit Y in
theorem reserved_temp (hp : IsTemp P p) : Reserved P token p ∧ Within P.dataDir p := by
  obtain ⟨u, hu⟩ := hp
  rw [P.tempPath_eq] at hu
  refine ⟨.inl ⟨_, hu⟩, _, by simp, hu, ?_⟩
  simp only [List.forall_mem_cons, List.not_mem_nil, false_implies, implies_true, and_true]
  refine ⟨⟨⟨by decide, by decide, by decide⟩, by decide⟩, .of_append u.toString_slash (by decide) (by decide), ?_⟩
  exact up_ne_append (by decide)

omit Y in
theorem reserved_blob (hp : IsBlob P p) : Reserved P token p ∧ Within P.dataDir p := by
  obtain ⟨d, hd⟩ := hp
  rw [P.blobPath_eq] at hd
  refine ⟨.inr (.inl ⟨d, hd⟩), _, by simp, hd, ?_⟩
  simp only [List.forall_mem_cons, List.not_mem_nil, false_implies, implies_true, and_true]
  refine ⟨⟨⟨by decide, by decide, by decide⟩, by decide⟩, ⟨⟨by decide, by decide, by decide⟩, by decide⟩,
    ⟨StoragePaths.shard_component d, StoragePaths.shard_up d⟩, StoragePaths.blob_component d, up_ne_append (by decide)⟩

omit Y in
theorem reserved_log (hv : source.Valid) (ht : token.permits source = true) (hp : IsLog P source p) :
    Reserved P token p ∧ Within P.dataDir p := by
  obtain ⟨date, hl⟩ := hp
  obtain ⟨hproject, hstart⟩ := TokenContext.permits_iff.mp ht
  rw [P.logFile_eq hv] at hl
  refine ⟨.inr (.inr ⟨source.sourceId, hv.sourceId, ?_, .inl ⟨date, ?_⟩⟩), _, by simp, hl, ?_⟩
  · rw [← hproject]
    exact hstart
  · rw [← hproject]
    exact hl
  · simp only [List.forall_mem_cons, List.not_mem_nil, false_implies, implies_true, and_true]
    exact ⟨⟨⟨by decide, by decide, by decide⟩, by decide⟩, ⟨hv.project, hv.project_up⟩, ⟨hv.sourceId, hv.sourceId_up⟩,
      .of_append date.toString_slash (by decide) (by decide), up_ne_append (by decide)⟩

omit Y in
theorem reserved_index (hv : source.Valid) (ht : token.permits source = true) (hp : IsIndex P source p) :
    Reserved P token p ∧ Within P.dataDir p := by
  obtain ⟨t, d, hi⟩ := hp
  obtain ⟨hproject, hstart⟩ := TokenContext.permits_iff.mp ht
  rw [P.indexPath_eq hv] at hi
  refine ⟨.inr (.inr ⟨source.sourceId, hv.sourceId, ?_, .inr ⟨t, d, ?_⟩⟩), _, by simp, hi, ?_⟩
  · rw [← hproject]
    exact hstart
  · rw [← hproject]
    exact hi
  · have hs : '/' ∉ (t.format ++ "-" ++ d.hex).toList := by simp [t.format_slash, d.hex_slash]
    simp only [List.forall_mem_cons, List.not_mem_nil, false_implies, implies_true, and_true]
    exact ⟨⟨⟨by decide, by decide, by decide⟩, by decide⟩, ⟨⟨by decide, by decide, by decide⟩, by decide⟩,
      ⟨hv.project, hv.project_up⟩, ⟨hv.sourceId, hv.sourceId_up⟩, .of_append hs (by decide) (by decide),
      up_ne_append (by decide)⟩

end Paths

section Changes
variable {Y} {j : κ} {token : TokenContext} {i : ServiceTask κ} {h : List (ServiceEvent κ)} {ws : Writers}

/-- What a task that serves a request acts for, the token of the request permits. -/
theorem Serves.permits (C : Channels Y.remit ws h)
    (hmay : ∀ e ∈ h, Reaches Y.app.storage Y.remit e.task e.op h) (hj : Y.Granted j token) (hi : Serves j i h)
    {source : SourceKey} (hs : Y.Acts i source h) : source.Valid ∧ token.permits source = true := by
  have hrequest : Y.Acts (.request j) source h → source.Valid ∧ token.permits source = true := by
    rintro ⟨token', hj', hv, hp⟩
    obtain rfl := Except.ok.inj (hj'.symm.trans hj)
    exact ⟨hv, hp⟩
  cases i with
  | request j' =>
    obtain rfl : j' = j := hi
    exact hrequest hs
  | writer k =>
    obtain ⟨source', hsender⟩ := hi
    -- the channel has one source, which the request named
    obtain rfl := Option.some.inj ((C.accepted _ k source hs).symm.trans (C.senders _ source' k hsender))
    exact hrequest (hmay _ hsender)
  | shutdown => exact hi.elim

/-- Whatever such a task has opened lies where the token allows. -/
theorem Serves.opened (C : Channels Y.remit ws h)
    (hmay : ∀ e ∈ h, Reaches Y.app.storage Y.remit e.task e.op h) (hj : Y.Granted j token) (hi : Serves j i h)
    {n : Nat} {p : Path} (ho : OpenedAt i n p h) :
    Reserved Y.app.storage token p ∧ Within Y.app.storage.dataDir p := by
  obtain ⟨hd, -, hm | hm⟩ := ho
  · rcases hmay _ hm with ht | ⟨source, hs, hp⟩
    · exact reserved_temp ht
    · obtain ⟨hv, hpermits⟩ := hi.permits C hmay hj hs
      exact reserved_index hv hpermits hp
  · obtain ⟨source, hs, hp⟩ := hmay _ hm
    obtain ⟨hv, hpermits⟩ := hi.permits C hmay hj hs
    exact reserved_log hv hpermits hp

/-- The path is that of the file, or another name of it. -/
def Names (d : Disk) (i : ServiceTask κ) (h : List (ServiceEvent κ)) (p q : Path) : Prop :=
  q = p ∨ ∃ n, d.file q = some n ∧ (d.file p = some n ∨ OpenedAt i n p h)

theorem changes_reserved {w : ServiceState κ} {v : World} {n : Nat} (hw : w.state.disk.Numbered)
    (C : Channels Y.remit w.state.writers w.history)
    (hmay : ∀ e ∈ w.history, Reaches Y.app.storage Y.remit e.task e.op w.history) (hj : Y.Granted j token)
    (hi : Serves j i w.history) {op : ServerOp} {x : op.Answer} (hm : Reaches Y.app.storage Y.remit i op w.history)
    (hx : World.exec Y.env n op w.state = some (x, v)) {q : Path} (hq : v.disk.content q ≠ w.state.disk.content q) :
    ∃ p, Reserved Y.app.storage token p ∧ Within Y.app.storage.dataDir p ∧ Names w.state.disk i w.history p q := by
  by_cases hfile : ∃ fop, op = .file fop
  swap
  · rw [World.exec_disk (fun o ho => hfile ⟨o, ho⟩) hx] at hq
    exact absurd rfl hq
  obtain ⟨fop, rfl⟩ := hfile
  obtain ⟨-, rfl⟩ := World.exec_file.mp hx
  cases fop with
  | create p =>
    have hp : Reserved Y.app.storage token p ∧ Within Y.app.storage.dataDir p := by
      rcases hm with ht | ⟨source, hs, hp⟩
      · exact reserved_temp ht
      · obtain ⟨hv, hpermits⟩ := hi.permits C hmay hj hs
        exact reserved_index hv hpermits hp
    refine ⟨p, hp.1, hp.2, (Disk.create_changes hw hq).imp_right fun ⟨n, hn, hpn⟩ => ⟨n, hn, .inl hpn⟩⟩
  | openAppend p =>
    obtain ⟨source, hs, hp⟩ := hm
    obtain ⟨hv, hpermits⟩ := hi.permits C hmay hj hs
    obtain ⟨hr, hwithin⟩ := reserved_log hv hpermits hp
    exact ⟨p, hr, hwithin, .inl (Disk.openAppend_changes hw hq)⟩
  | write hd bytes =>
    obtain ⟨p, ho, -⟩ := hm
    obtain ⟨hr, hwithin⟩ := hi.opened C hmay hj ho
    exact ⟨p, hr, hwithin, .inr ⟨hd.inode, Disk.write_changes hq, .inr ho⟩⟩
  | hardLink src dst =>
    obtain ⟨hr, hwithin⟩ := reserved_blob hm.2
    exact ⟨dst, hr, hwithin, .inl (Disk.hardLink_changes hq)⟩
  | removeFile p =>
    obtain ⟨hr, hwithin⟩ := reserved_temp hm
    exact ⟨p, hr, hwithin, .inl (Disk.removeFile_changes hq)⟩
  | removeDirAll p | renameDir src dst | metadata p | readDir p => exact hm.elim
  | createDirAll p | sync hd | read p | tryExists p => exact absurd rfl hq

end Changes

omit Y in
/-- The paths of different sources are different. -/
theorem sources_apart (P : StoragePaths) {s t : SourceKey} (hs : s.Valid) (ht : t.Valid) (hne : s ≠ t) :
    (∀ date date', P.logFile s date ≠ P.logFile t date') ∧
    (∀ (x y : DateTime) (d e : Sha256), P.indexPath s x.format d.hex ≠ P.indexPath t y.format e.hex) ∧
    (∀ date (x : DateTime) (d : Sha256), P.logFile s date ≠ P.indexPath t x.format d.hex ∧
      P.indexPath s x.format d.hex ≠ P.logFile t date) := by
  refine ⟨fun _ _ h => hne (P.logFile_injective hs ht h).1, fun _ _ _ _ h => hne (P.indexPath_injective hs ht h).1, ?_⟩
  intro date x d
  refine ⟨fun h => ?_, fun h => ?_⟩
  · exact index_not_log ht hs ⟨x, d, rfl⟩ ⟨date, h.symm⟩
  · exact index_not_log hs ht ⟨x, d, rfl⟩ ⟨date, h⟩

/-- **Tenants are isolated**: whatever changes while a request is served lies where its token allows, and no file
is one of two sources. -/
theorem tenants_isolated [DecidableEq κ] {d : Disk} (hd : d.Numbered) {buckets : Buckets} {c : Config Y.pool}
    (h : (Y.pool.start (initial d buckets)).Reach (fun _ _ _ => True) c) {j : κ} {presented : String}
    {token : TokenContext}
    (hheader : (Y.requests j).authorization = some (some ("Bearer " ++ presented)))
    (htoken : Y.auth.tokenStore.authenticate Y.auth.verifyPassword presented = some token) :
    (∀ i c' q, Serves j i c.world.history → c.move (fun _ _ _ => true) (.run i) = some c' →
      c'.world.state.disk.content q ≠ c.world.state.disk.content q →
      ∃ p, Reserved Y.app.storage token p ∧ Within Y.app.storage.dataDir p ∧
        Names c.world.state.disk i c.world.history p q) ∧
    (∀ project id project' id' s t, SourceKey.new project id = .ok s → SourceKey.new project' id' = .ok t → s ≠ t →
      (∀ date date', Y.app.storage.logFile s date ≠ Y.app.storage.logFile t date') ∧
      (∀ (x y : DateTime) (d e : Sha256),
        Y.app.storage.indexPath s x.format d.hex ≠ Y.app.storage.indexPath t y.format e.hex) ∧
      (∀ date (x : DateTime) (d : Sha256), Y.app.storage.logFile s date ≠ Y.app.storage.indexPath t x.format d.hex ∧
        Y.app.storage.indexPath s x.format d.hex ≠ Y.app.storage.logFile t date)) := by
  refine ⟨fun i c' q hi hmove hq => ?_, fun _ _ _ _ s t hs ht hne => ?_⟩
  · have hj : Y.Granted j token := by
      unfold Granted authorize
      rw [hheader]
      simp only [bearer_append, htoken]
    obtain ⟨hr, hkept⟩ := Y.reach_reaches h
    have V := Y.reach_vetted (G := fun _ => False) (fun _ => False.elim) hd (fun _ => False.elim) h
    have hmay := Discipline.events_may (P := Y.pool) (M := World.exec Y.env) (D := confinement Y.app.storage Y.remit) rfl
      (fun _ _ => rfl) hr rfl
    unfold Config.move at hmove
    dsimp only at hmove
    split at hmove
    · next op next hthread =>
      obtain ⟨⟨x, w'⟩, hx, rfl⟩ := Option.map_eq_some_iff.mp hmove
      obtain ⟨hexec, -⟩ := record_eq_some.mp hx
      exact changes_reserved V.disk.below V.channels hmay hj hi (hkept i _ hthread).1 hexec hq
    · obtain rfl := Option.some.inj hmove
      exact absurd rfl hq
    · cases hmove
  · exact sources_apart Y.app.storage (SourceKey.new_ok hs).2 (SourceKey.new_ok ht).2 hne

def sampleAppends (c : Config sampleService.pool) : Bool :=
  (c.move (fun _ _ _ => true) (.run (.writer 0))).any (fun c' =>
    c'.world.state.disk.content sampleLog ≠ c.world.state.disk.content sampleLog) &&
    c.world.history.any fun e => match e with
      | ⟨.request false, .senderFor _, k⟩ => k = 0
      | _ => false

theorem sample_appends : (sampleStart.runs (fun _ _ _ => true) sampleMoves).any sampleAppends = true := by
  decide +kernel

theorem tenants_isolated_sample : ∃ c c' p, sampleStart.Reach (fun _ _ _ => True) c ∧
    c.move (fun _ _ _ => true) (.run (.writer 0)) = some c' ∧
    c'.world.state.disk.content sampleLog ≠ c.world.state.disk.content sampleLog ∧
    Reserved sampleService.app.storage sampleToken p ∧ Within sampleService.app.storage.dataDir p ∧
    Names c.world.state.disk (.writer 0) c.world.history p sampleLog := by
  obtain ⟨c, hreach, hc⟩ := Config.runs_any (fun _ _ _ _ => trivial) _ _ sample_appends
  simp only [sampleAppends, Bool.and_eq_true, Option.any_eq_true, List.any_eq_true, decide_eq_true_eq] at hc
  obtain ⟨⟨c', hmove, hchange⟩, e, he, hsender⟩ := hc
  have hserves : Serves false (.writer 0) c.world.history := by
    split at hsender
    · obtain rfl := of_decide_eq_true hsender
      exact ⟨_, he⟩
    · cases hsender
  obtain ⟨p, hp⟩ := (sampleService.tenants_isolated (j := false) sampleDisk_numbered hreach rfl rfl).1 _ c' sampleLog
    hserves hmove hchange
  exact ⟨c, c', p, hreach, hmove, hchange, hp⟩

end Service

end Detritus.Server
