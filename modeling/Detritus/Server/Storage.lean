import Detritus.Protocol.Text

/-! Where things are stored.

Everything lies below the data directory: uploads in progress under `tmp`, crash
bytes under `crashes/by-hash` by their digest, crash indexes under
`crashes/by-source` and log files under `logs` by their source. The two names of a
source come from a client, so they are checked to be single path components before
they are joined. -/
namespace Detritus.Server
open Files Protocol

/-- Why nothing was stored: a name that is no component, or the file system. -/
inductive StorageError where
  | invalidComponent (name value : String)
  | io (error : IoError)
  deriving DecidableEq

/-- A name that would leave its directory, or name none, is refused. -/
def validateComponent (name value : String) : Except StorageError Unit :=
  if value = "" ∨ value = "." ∨ value = ".." ∨ '/' ∈ value.toList ∨ '\\' ∈ value.toList then
    .error (.invalidComponent name value)
  else .ok ()

/-- The two names a source is stored under. -/
structure SourceKey where
  project : String
  sourceId : String
  deriving DecidableEq

namespace SourceKey

/-- Both names are checked, the project first. -/
def new (project sourceId : String) : Except StorageError SourceKey := do
  validateComponent "project" project
  validateComponent "source_id" sourceId
  return ⟨project, sourceId⟩

/-- What the prefix of a token is compared with. -/
def canonical (s : SourceKey) : String := s.project ++ "/" ++ s.sourceId

/-- Both names are components that stay below the directory they are joined to. -/
structure Valid (s : SourceKey) : Prop where
  project : Component s.project
  sourceId : Component s.sourceId
  project_up : s.project ≠ ".."
  sourceId_up : s.sourceId ≠ ".."

end SourceKey

/-- What is let through is one component, and not the way up. -/
theorem validateComponent_ok {name value : String} (h : validateComponent name value = .ok ()) :
    Component value ∧ value ≠ ".." := by
  unfold validateComponent at h
  split at h
  · exact absurd h (by simp)
  · next hv =>
    push Not at hv
    exact ⟨⟨hv.1, hv.2.1, hv.2.2.2.1⟩, hv.2.2.1⟩

/-- A source key that was made has been checked, and is made of what was given. -/
theorem SourceKey.new_ok {project sourceId : String} {s : SourceKey} (h : new project sourceId = .ok s) :
    s = ⟨project, sourceId⟩ ∧ s.Valid := by
  unfold new at h
  cases hp : validateComponent "project" project with
  | error e => rw [hp] at h; exact absurd h (by rintro ⟨⟩)
  | ok _ =>
    cases hs : validateComponent "source_id" sourceId with
    | error e => rw [hp, hs] at h; exact absurd h (by rintro ⟨⟩)
    | ok _ =>
      rw [hp, hs] at h
      obtain rfl := Except.ok.inj h
      obtain ⟨cp, up⟩ := validateComponent_ok hp
      obtain ⟨cs, us⟩ := validateComponent_ok hs
      exact ⟨rfl, cp, cs, up, us⟩

/-- The data directory and what lies where in it. -/
structure StoragePaths where
  dataDir : Path

namespace StoragePaths
variable (P : StoragePaths) {source : SourceKey}

/-- Uploads in progress. -/
def tmpDir : Path := P.dataDir.join "tmp"

/-- The name an upload's bytes are written under. -/
def tempPath (id : Uuid) : Path := P.tmpDir.join (id.toString ++ ".tmp")

/-- The tree of the log files. -/
def logsDir : Path := P.dataDir.join "logs"

/-- The tree of the blobs. -/
def byHash : Path := (P.dataDir.join "crashes").join "by-hash"

/-- The tree of the crash indexes. -/
def bySource : Path := (P.dataDir.join "crashes").join "by-source"

/-- One file of lines for each source and day. -/
def logFile (source : SourceKey) (date : NaiveDate) : Path :=
  ((P.logsDir.join source.project).join source.sourceId).join (date.toString ++ ".ndjson")

/-- Blobs are spread over directories by the first two digits of their digest. -/
def blobPath (sha256 : String) : Path :=
  (P.byHash.join (String.ofList (sha256.toList.take 2))).join (sha256 ++ ".bin")

/-- An index is named by the time of the crash and the digest of its dump. -/
def indexPath (source : SourceKey) (timestamp sha256 : String) : Path :=
  ((P.bySource.join source.project).join source.sourceId).join (timestamp ++ "-" ++ sha256 ++ ".json")

/-- The path that an index records. -/
def relativeToDataDir (path : Path) : Path := (Path.stripPrefix P.dataDir path).getD path

/-- The directories a server starts with. -/
def prepare (now : Time) (d : Disk) : Disk :=
  (((d.createDirAll P.logsDir now).createDirAll P.byHash now).createDirAll P.bySource now).createDirAll
    P.tmpDir now

/-! ### The components of each path -/

theorem tmpDir_eq : P.tmpDir = P.dataDir ++ ["tmp"] :=
  Component.join ⟨by decide, by decide, by decide⟩ _

theorem logsDir_eq : P.logsDir = P.dataDir ++ ["logs"] :=
  Component.join ⟨by decide, by decide, by decide⟩ _

theorem byHash_eq : P.byHash = P.dataDir ++ ["crashes", "by-hash"] := by
  rw [byHash, Component.join ⟨by decide, by decide, by decide⟩, Component.join ⟨by decide, by decide, by decide⟩,
    List.append_assoc]
  rfl

theorem bySource_eq : P.bySource = P.dataDir ++ ["crashes", "by-source"] := by
  rw [bySource, Component.join ⟨by decide, by decide, by decide⟩,
    Component.join ⟨by decide, by decide, by decide⟩, List.append_assoc]
  rfl

theorem tempPath_eq (id : Uuid) : P.tempPath id = P.dataDir ++ ["tmp", id.toString ++ ".tmp"] := by
  have hc : Component (id.toString ++ ".tmp") := .of_append id.toString_slash (by decide) (by decide)
  rw [tempPath, tmpDir_eq, hc.join, List.append_assoc]
  rfl

theorem logFile_eq (h : source.Valid) (date : NaiveDate) :
    P.logFile source date =
      P.dataDir ++ ["logs", source.project, source.sourceId, date.toString ++ ".ndjson"] := by
  have hc : Component (date.toString ++ ".ndjson") := .of_append date.toString_slash (by decide) (by decide)
  simp only [logFile, logsDir_eq, h.project.join, h.sourceId.join, hc.join, List.append_assoc, List.cons_append,
    List.nil_append]

/-- The first two digits of a digest. -/
def shard (d : Sha256) : String := String.ofList (d.hex.toList.take 2)

/-- Two digits are one component. -/
theorem shard_component (d : Sha256) : Component (shard d) := by
  have hlen : (shard d).toList.length = 2 := by
    rw [shard, String.toList_ofList, List.length_take, d.hex_length]
    rfl
  refine ⟨?_, ?_, ?_⟩
  · intro h
    rw [h] at hlen
    exact absurd hlen (by decide)
  · intro h
    rw [h] at hlen
    exact absurd hlen (by decide)
  · rw [shard, String.toList_ofList]
    exact fun h => d.hex_slash (List.mem_of_mem_take h)

/-- The digits of a digest are no dots. -/
theorem shard_up (d : Sha256) : shard d ≠ ".." := by
  intro h
  have hdot : '.' ∈ (shard d).toList := by rw [h]; decide
  rw [shard, String.toList_ofList] at hdot
  exact d.hex_dot (List.mem_of_mem_take hdot)

/-- So is the name of a blob. -/
theorem blob_component (d : Sha256) : Component (d.hex ++ ".bin") :=
  .of_append d.hex_slash (by decide) (by decide)

/-- A blob lies four components below the data directory. -/
theorem blobPath_eq (d : Sha256) :
    P.blobPath d.hex = P.dataDir ++ ["crashes", "by-hash", shard d, d.hex ++ ".bin"] := by
  show (P.byHash.join (shard d)).join (d.hex ++ ".bin") = _
  simp only [byHash_eq, (shard_component d).join, (blob_component d).join, List.append_assoc, List.cons_append,
    List.nil_append]

/-- An index lies five components below it, as the names of its source are components. -/
theorem indexPath_eq (h : source.Valid) (t : DateTime) (d : Sha256) :
    P.indexPath source t.format d.hex = P.dataDir ++
      ["crashes", "by-source", source.project, source.sourceId, t.format ++ "-" ++ d.hex ++ ".json"] := by
  have hs : '/' ∉ (t.format ++ "-" ++ d.hex).toList := by simp [t.format_slash, d.hex_slash]
  have hc : Component (t.format ++ "-" ++ d.hex ++ ".json") := .of_append hs (by decide) (by decide)
  simp only [indexPath, bySource_eq, h.project.join, h.sourceId.join, hc.join, List.append_assoc, List.cons_append,
    List.nil_append]

/-- An index is in the tree of the indexes. -/
theorem bySource_indexPath (h : source.Valid) (t : DateTime) (d : Sha256) :
    P.bySource <+: P.indexPath source t.format d.hex := by
  rw [P.indexPath_eq h, bySource_eq, List.prefix_append_right_inj]
  simp [List.cons_prefix_cons]

theorem indexPath_length (h : source.Valid) (t : DateTime) (d : Sha256) :
    (P.indexPath source t.format d.hex).length = P.bySource.length + 3 := by
  rw [P.indexPath_eq h, bySource_eq, List.length_append, List.length_append]
  rfl

/-- So is the directory it is in. -/
theorem bySource_indexPath_parent (h : source.Valid) (t : DateTime) (d : Sha256) :
    P.bySource <+: (P.indexPath source t.format d.hex).parent := by
  rw [P.indexPath_eq h, bySource_eq, Path.parent, List.dropLast_append_of_ne_nil (by simp),
    List.prefix_append_right_inj]
  simp [List.cons_prefix_cons]

/-- Two uploads in progress do not share a file. -/
theorem tempPath_injective {u v : Uuid} (h : P.tempPath u = P.tempPath v) : u = v := by
  rw [tempPath_eq, tempPath_eq] at h
  have hs : u.toString ++ ".tmp" = v.toString ++ ".tmp" := by simpa using h
  exact Uuid.toString_injective (by simpa using hs)

/-- Blobs with different digests have different names. -/
theorem blobPath_injective {d e : Sha256} (h : P.blobPath d.hex = P.blobPath e.hex) : d = e := by
  rw [blobPath_eq, blobPath_eq] at h
  have hs : shard d = shard e ∧ d.hex ++ ".bin" = e.hex ++ ".bin" := by simpa using h
  exact Sha256.hex_injective (by simpa using hs.2)

/-- A log file tells its source and its day. -/
theorem logFile_injective {s t : SourceKey} (hs : s.Valid) (ht : t.Valid) {d e : NaiveDate}
    (h : P.logFile s d = P.logFile t e) : s = t ∧ d = e := by
  rw [P.logFile_eq hs, P.logFile_eq ht] at h
  obtain ⟨hproject, hsource, hdate⟩ : s.project = t.project ∧ s.sourceId = t.sourceId ∧
    d.toString ++ ".ndjson" = e.toString ++ ".ndjson" := by simpa using h
  refine ⟨?_, NaiveDate.toString_injective (by simpa using hdate)⟩
  cases s
  cases t
  simp_all

/-- An index tells its source, its time and the digest of its dump. -/
theorem indexPath_injective {s t : SourceKey} (hs : s.Valid) (ht : t.Valid) {x y : DateTime} {d e : Sha256}
    (h : P.indexPath s x.format d.hex = P.indexPath t y.format e.hex) : s = t ∧ x.format = y.format ∧ d = e := by
  rw [P.indexPath_eq hs, P.indexPath_eq ht] at h
  obtain ⟨hproject, hsource, hname⟩ : s.project = t.project ∧ s.sourceId = t.sourceId ∧
    x.format ++ "-" ++ d.hex ++ ".json" = y.format ++ "-" ++ e.hex ++ ".json" := by simpa using h
  have hname := congrArg String.toList hname
  simp only [String.toList_append] at hname
  -- a digest has as many digits as any other, so the rest is the time
  obtain ⟨hname, -⟩ := List.append_inj' hname rfl
  obtain ⟨hname, hdigest⟩ := List.append_inj' hname (by rw [d.hex_length, e.hex_length])
  obtain ⟨htime, -⟩ := List.append_inj' hname rfl
  refine ⟨?_, String.toList_inj.mp htime, Sha256.hex_injective (String.toList_inj.mp hdigest)⟩
  cases s
  cases t
  simp_all

/-! ### The regions of the data directory lie apart -/

theorem bySource_not_tempPath (u : Uuid) : ¬ P.bySource <+: P.tempPath u := by
  simp [bySource_eq, tempPath_eq, List.prefix_append_right_inj, List.cons_prefix_cons]

theorem bySource_not_blobPath (d : Sha256) : ¬ P.bySource <+: P.blobPath d.hex := by
  simp [bySource_eq, blobPath_eq, List.prefix_append_right_inj, List.cons_prefix_cons]

/-- Blobs are in the tree of the blobs. -/
theorem byHash_blobPath (d : Sha256) : P.byHash <+: P.blobPath d.hex := by
  simp [byHash_eq, blobPath_eq, List.prefix_append_right_inj, List.cons_prefix_cons]

theorem byHash_not_tempPath (u : Uuid) : ¬ P.byHash <+: P.tempPath u := by
  simp [byHash_eq, tempPath_eq, List.prefix_append_right_inj, List.cons_prefix_cons]

theorem logsDir_not_tempPath (u : Uuid) : ¬ P.logsDir <+: P.tempPath u := by
  simp [logsDir_eq, tempPath_eq, List.prefix_append_right_inj, List.cons_prefix_cons]

/-- Log files are in the tree of the logs. -/
theorem logsDir_logFile (h : source.Valid) (date : NaiveDate) : P.logsDir <+: P.logFile source date := by
  rw [P.logFile_eq h, logsDir_eq, List.prefix_append_right_inj]
  simp [List.cons_prefix_cons]

theorem blobPath_not_tmpDir (d : Sha256) : ¬ P.blobPath d.hex <+: P.tmpDir := by
  simp [tmpDir_eq, blobPath_eq, List.prefix_append_right_inj, List.cons_prefix_cons]

/-- No blob is a directory that another is in. -/
theorem blobPath_not_parent (d e : Sha256) : ¬ P.blobPath d.hex <+: (P.blobPath e.hex).parent := by
  intro h
  have hlen := h.length_le
  rw [blobPath_eq, blobPath_eq, Path.parent, List.length_dropLast] at hlen
  simp at hlen

/-- Temporary files are in `tmp`. -/
theorem tmpDir_tempPath (u : Uuid) : P.tmpDir <+: P.tempPath u := by
  rw [tempPath_eq, tmpDir_eq, List.prefix_append_right_inj]
  simp [List.cons_prefix_cons]

theorem tmpDir_not_blobPath (d : Sha256) : ¬ P.tmpDir <+: P.blobPath d.hex := by
  simp [tmpDir_eq, blobPath_eq, List.prefix_append_right_inj, List.cons_prefix_cons]

/-- What is among the indexes is not in `tmp`. -/
theorem tmpDir_not_bySource {p : Path} (h : P.bySource <+: p) : ¬ P.tmpDir <+: p := by
  obtain ⟨r, rfl⟩ := h
  rw [tmpDir_eq, bySource_eq, List.append_assoc, List.prefix_append_right_inj]
  simp [List.cons_prefix_cons]

/-- A path is below at most one of the three trees. -/
theorem regions_apart {p : Path} :
    ¬ (P.bySource <+: p ∧ P.byHash <+: p) ∧ ¬ (P.logsDir <+: p ∧ P.byHash <+: p) ∧
      ¬ (P.logsDir <+: p ∧ P.bySource <+: p) := by
  rw [bySource_eq, byHash_eq, logsDir_eq]
  refine ⟨?_, ?_, ?_⟩ <;>
  · rintro ⟨⟨r, rfl⟩, h⟩
    rw [List.append_assoc, List.prefix_append_right_inj] at h
    simp [List.cons_prefix_cons] at h

/-- The path an index records for a blob leads back to it. -/
theorem relative_blobPath (d : Sha256) :
    P.dataDir.join (Path.display (P.relativeToDataDir (P.blobPath d.hex))) = P.blobPath d.hex := by
  rw [blobPath_eq, relativeToDataDir, stripPrefix_append, Option.getD_some]
  apply display_join
  · simp
  · intro c hc
    simp only [List.mem_cons, List.not_mem_nil, or_false] at hc
    rcases hc with rfl | rfl | rfl | rfl
    · exact ⟨by decide, by decide, by decide⟩
    · exact ⟨by decide, by decide, by decide⟩
    · exact shard_component d
    · exact blob_component d

end StoragePaths

end Detritus.Server
