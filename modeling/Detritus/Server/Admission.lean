import Mathlib.Data.Rat.Defs
import Mathlib.Algebra.Order.Ring.Rat
import Mathlib.Logic.Function.Basic
import Detritus.Protocol.Json
import Detritus.Server.Storage

/-! Who may send what: tokens, rate limits and schemas.

Password hashes and JSON Schema are other crates' and enter as functions: whether a
secret matches a hash, and the errors a compiled schema has for a document. Token
counts are `f64` in the code and exact here. -/
namespace Detritus.Server
open Files Protocol

/-! ### Tokens -/

/-- A token: whom it is for, and the hash of its secret. -/
structure TokenContext where
  id : String
  project : String
  sourcePrefix : String
  secretHash : String
  deriving DecidableEq

namespace TokenContext

/-- The project is the one of the token, and the source starts with its prefix. -/
def permits (t : TokenContext) (source : SourceKey) : Bool :=
  source.project = t.project && t.sourcePrefix.toList.isPrefixOf source.canonical.toList

/-- `verifyPassword hash secret` is whether the hash was made from the secret; a
malformed hash was made from none. -/
def verify (verifyPassword : String → String → Bool) (t : TokenContext) (presented : String) : Bool :=
  verifyPassword t.secretHash presented

end TokenContext

/-- The tokens of the token file. -/
structure TokenStore where
  tokens : List TokenContext

/-- The first token whose secret was presented. -/
def TokenStore.authenticate (verifyPassword : String → String → Bool) (s : TokenStore) (presented : String) :
    Option TokenContext :=
  s.tokens.find? fun t => t.verify verifyPassword presented

theorem TokenContext.permits_iff {t : TokenContext} {source : SourceKey} : t.permits source = true ↔
    source.project = t.project ∧ t.sourcePrefix.toList <+: source.canonical.toList := by
  simp [permits]

/-! ### Rate limits -/

inductive Endpoint where
  | logs
  | crashes
  deriving DecidableEq

/-- Requests a minute, and how many can come at once. -/
structure RateLimitConfig where
  logsPerMinute : UInt32
  logsBurst : UInt32
  crashesPerMinute : UInt32
  crashesBurst : UInt32
  deriving DecidableEq

def RateLimitConfig.default : RateLimitConfig := ⟨1000, 200, 30, 5⟩

/-- What a limit is counted for. -/
structure RateKey where
  endpoint : Endpoint
  tokenId : String
  source : String
  deriving DecidableEq

/-- The requests that are left, as of a moment. -/
structure Bucket where
  tokens : ℚ
  lastRefill : Time
  deriving DecidableEq

abbrev Buckets := RateKey → Option Bucket

namespace Buckets

/-- A bucket at a later moment. -/
def refilled (perMinute burst : UInt32) (b : Bucket) (now : Time) : Bucket :=
  ⟨min (b.tokens + ((now - b.lastRefill : Nat) : ℚ) / 1000000000 * ((perMinute.toNat : ℚ) / 60)) burst.toNat, now⟩

/-- Takes a token if there is one: whether there was, and the buckets after. A bucket
that is not there yet is full. -/
def check (buckets : Buckets) (key : RateKey) (perMinute burst : UInt32) (now : Time) : Bool × Buckets :=
  let bucket := refilled perMinute burst ((buckets key).getD ⟨burst.toNat, now⟩) now
  if 1 ≤ bucket.tokens then
    (true, Function.update buckets key (some {bucket with tokens := bucket.tokens - 1}))
  else (false, Function.update buckets key (some bucket))

end Buckets

/-! ### Schemas -/

/-- What a schema is for. -/
inductive SchemaKind where
  | crashMetadata
  | logAttributes
  deriving DecidableEq

/-- Loading a schema can fail in other ways; these are the errors of a request. -/
inductive SchemaError where
  | validation (kind : SchemaKind) (errors : List String)
  | unknownSchema (project : String) (kind : SchemaKind)
  deriving DecidableEq

def SchemaKind.debug : SchemaKind → String
  | crashMetadata => "CrashMetadata"
  | logAttributes => "LogAttributes"

/-- The compiled schema of a project, as the errors it has for a document. -/
structure SchemaRegistry where
  schemas : String → SchemaKind → Option (Json → List String)

def SchemaRegistry.empty : SchemaRegistry := ⟨fun _ _ => none⟩

/-- A project without a schema accepts every document. -/
def SchemaRegistry.validate (r : SchemaRegistry) (project : String) (kind : SchemaKind) (payload : Json) :
    Except SchemaError Unit :=
  match r.schemas project kind with
  | none => .ok ()
  | some errorsOf =>
    let errors := errorsOf payload
    if errors.isEmpty then .ok () else .error (.validation kind errors)

theorem validate_ok_iff {r : SchemaRegistry} {project : String} {kind : SchemaKind} {payload : Json} :
    r.validate project kind payload = .ok () ↔
      ∀ errorsOf, r.schemas project kind = some errorsOf → errorsOf payload = [] := by
  unfold SchemaRegistry.validate
  cases r.schemas project kind with
  | none => simp
  | some errorsOf =>
    by_cases h : errorsOf payload = [] <;> simp [h]

end Detritus.Server
