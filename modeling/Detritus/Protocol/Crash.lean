import Detritus.Protocol.Json

/-! Crash reports: the metadata part of an upload and what it is made of. -/
namespace Detritus.Protocol
open Files

/-- The version of the protocol that both sides speak. -/
def PROTOCOL_VERSION : UInt32 := 1

/-- Where a report comes from: the project, and the installation it runs in. -/
structure SourceId where
  project : String
  platform : String
  version : String
  installId : Uuid
  deriving DecidableEq

namespace SourceId

/-- An installation is named by the text of its identifier. -/
def toJson (s : SourceId) : Json :=
  .object [("project", .string s.project), ("platform", .string s.platform),
    ("version", .string s.version), ("install_id", .string s.installId.toString)]

end SourceId

/-- What a report says about one of its attachments. -/
structure AttachmentManifest where
  key : String
  filename : Option String
  contentType : String
  len : UInt64
  deriving DecidableEq

/-- The build that crashed. -/
structure BuildInfo where
  gitSha : String
  profile : String
  targetTriple : String
  deriving DecidableEq

/-- What the dump of a report is. -/
inductive CrashKind where
  | minidump
  | panicTarball
  | rustcIce
  deriving DecidableEq

/-- The first part of an upload. -/
structure CrashMetadata where
  schemaVersion : UInt32
  source : SourceId
  timestamp : DateTime
  kind : CrashKind
  build : BuildInfo
  panicText : Option String
  context : Json
  attachments : List AttachmentManifest

/-! ### As JSON -/

/-- `None` is written as `null`. -/
def optional (s : Option String) : Json := s.elim .null .string

/-- The keys are those `serde` derives from the fields, in their order. -/
def AttachmentManifest.toJson (a : AttachmentManifest) : Json :=
  .object [("key", .string a.key), ("filename", optional a.filename),
    ("content_type", .string a.contentType), ("len", .nat a.len)]

def BuildInfo.toJson (b : BuildInfo) : Json :=
  .object [("git_sha", .string b.gitSha), ("profile", .string b.profile),
    ("target_triple", .string b.targetTriple)]

/-- A variant is written as its name. -/
def CrashKind.toJson : CrashKind → Json
  | minidump => .string "Minidump"
  | panicTarball => .string "PanicTarball"
  | rustcIce => .string "RustcIce"

/-- The document that the `metadata` part holds. -/
def CrashMetadata.toJson (m : CrashMetadata) : Json :=
  .object [("schema_version", .nat m.schemaVersion.toUInt64), ("source", m.source.toJson),
    ("timestamp", .string m.timestamp.rfc3339), ("kind", m.kind.toJson), ("build", m.build.toJson),
    ("panic_text", optional m.panicText), ("context", m.context),
    ("attachments", .array (m.attachments.map (·.toJson)))]

/-- A `serde_json` error, by its message. -/
structure JsonError where
  message : String
  deriving DecidableEq

/-- What is taken from `serde_json`. -/
structure SerdeJson where
  /-- `to_vec` -/
  write : Json → Bytes
  /-- `to_vec_pretty` -/
  writePretty : Json → Bytes
  /-- The document that a text is, if it is one. -/
  read : Bytes → Option Json
  /-- `from_slice` at `CrashMetadata` -/
  metadata : Bytes → Except JsonError CrashMetadata

end Detritus.Protocol
