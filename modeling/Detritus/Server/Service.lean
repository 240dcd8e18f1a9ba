import Detritus.Server.Vetting

/-! The server: authentication, the two endpoints behind it, the log writers and the
shutdown, whose steps interleave in any order.

A request is handled under the token that its `Authorization` header presents, or it is
refused. What a task may do follows from that: a request acts for the sources that its
token permits, a writer for the source of its channel. -/
namespace Detritus.Server
open Files Protocol Process Discipline

/-! ### Authentication -/

/-- `verifyPassword` is taken from the crate of password hashes. -/
structure AuthState where
  tokenStore : TokenStore
  verifyPassword : String → String → Bool

/-- What follows `Bearer `. -/
def bearer (value : String) : Option String :=
  if "Bearer ".toList <+: value.toList then some (String.ofList (value.toList.drop 7)) else none

theorem bearer_append (presented : String) : bearer ("Bearer " ++ presented) = some presented := by
  have hstart : "Bearer ".toList <+: ("Bearer " ++ presented).toList := by
    rw [String.toList_append]
    exact List.prefix_append ..
  have hlen : "Bearer ".toList.length = 7 := by decide
  rw [bearer, if_pos hstart, String.toList_append, ← hlen, List.drop_left, String.ofList_toList]

/-- The header is absent, or not text, or text. -/
def authorize (state : AuthState) : Option (Option String) → Except String TokenContext
  | none => .error "missing bearer token"
  | some none => .error "authorization header is not UTF-8"
  | some (some value) => match bearer value with
    | none => .error "authorization header must use Bearer"
    | some presented => match state.tokenStore.authenticate state.verifyPassword presented with
      | none => .error "invalid bearer token"
      | some context => .ok context

/-! ### Requests -/

/-- What a request is about, by its endpoint. -/
inductive Payload where
  | crash (headers : Headers) (body : Body)
  | logs (version : Option (Option String)) (resourceLogs : List ResourceLogs)

/-- A request before it is authenticated. -/
structure Request where
  authorization : Option (Option String)
  payload : Payload

/-- What it is answered. -/
inductive Response where
  | unauthorized (message : String)
  | crash (result : Except CrashError (Nat × CrashResponse))
  | logs (result : Except Status Unit)

def Payload.endpoint : Payload → Endpoint
  | .crash _ _ => .crashes
  | .logs _ _ => .logs

/-- The entries of a log request. -/
def Payload.entries : Payload → List ResourceLogs
  | .crash _ _ => []
  | .logs _ resourceLogs => resourceLogs

/-- The requests, the writers and the end. -/
inductive ServiceTask (κ : Type) where
  | request (j : κ)
  | writer (channel : Nat)
  | shutdown
  deriving DecidableEq

/-- A server with all of its requests. -/
structure Service (κ : Type) where
  crates : Crates
  app : AppState
  auth : AuthState
  utcDate : Time → NaiveDate
  env : Env
  requests : κ → Request

abbrev ServiceState (κ : Type) := ServerState (ServiceTask κ)
abbrev ServiceEvent (κ : Type) := ServerEvent (ServiceTask κ)

namespace Service
variable {κ : Type} (Y : Service κ)

/-- The log endpoint shares the rate limiter and the schemas of the crash endpoint. -/
def logsHandler : LogsHandler := ⟨Y.app.rateLimit, Y.app.schemaRegistry⟩

/-- The endpoint, once the token is known. -/
def respond (token : TokenContext) : Payload → Program serverInterface Response
  | .crash headers body => Response.crash <$> crashesHandler Y.crates Y.app token headers body
  | .logs version resourceLogs => Response.logs <$> exportLogs Y.logsHandler ⟨version, some token, resourceLogs⟩

/-- A request without a valid token reaches no endpoint. -/
def authMiddleware (request : Request) : Program serverInterface Response :=
  match authorize Y.auth request.authorization with
  | .ok token => Y.respond token request.payload
  | .error message => do
    Program.perform (S := serverInterface) (.observe (.request request.payload.endpoint 401))
    return .unauthorized message

abbrev Result : ServiceTask κ → Type
  | .request _ => Response
  | _ => Unit

def task : (i : ServiceTask κ) → Task serverInterface (Result i)
  | .request j => .once (Y.authMiddleware (Y.requests j))
  | .writer channel => writer Y.crates.json Y.app.storage Y.utcDate channel
  | .shutdown => .once Server.shutdown

def pool : Pool serverInterface (ServiceTask κ) (ServiceState κ) Result where
  task := Y.task
  exec := execAs Y.env
  stop _ _ := none

/-- Any storage, any state of the rate limiter, and no writer yet. -/
def initial (d : Disk) (buckets : Buckets) : ServiceState κ := ⟨⟨d, buckets, []⟩, []⟩

/-- The request was granted this token. -/
def Granted (j : κ) (token : TokenContext) : Prop := authorize Y.auth (Y.requests j).authorization = .ok token

/-! ### What the tasks may do -/

/-- An index of the source whose metadata the schema of its project accepts. -/
def AcceptedIndex (source : SourceKey) (bytes : Bytes) : Prop :=
  ∃ index : CrashIndex, bytes = Y.crates.json.writePretty index.toJson ∧
    Y.app.schemaRegistry.validate source.project .crashMetadata index.metadata.toJson = .ok ()

/-- A record of an entry of the request, of this source, whose attributes the schema of the project accepts. -/
structure AcceptedRecord (j : κ) (source : SourceKey) (entry : ResourceLogs) (record : LogRecord) : Prop where
  sent : entry ∈ (Y.requests j).payload.entries
  listed : record ∈ entry.records
  named : sourceFromResourceLogs entry = .ok source
  accepted : Y.app.schemaRegistry.validate source.project .logAttributes (resourceLogsToValidationValue entry) = .ok ()

def Acts : ServiceTask κ → SourceKey → List (ServiceEvent κ) → Prop
  | .request j, source, _ => ∃ token, Y.Granted j token ∧ source.Valid ∧ token.permits source = true
  | .writer k, source, h => (⟨.writer k, .accept k, source⟩ : ServiceEvent κ) ∈ h
  | .shutdown, _, _ => False

def encode (line : Json) : Bytes := Y.crates.json.write line ++ [0x0a]

def remit : Remit (ServiceTask κ) where
  acts := Y.Acts
  grows := by
    intro i source h h' hh ha
    cases i with
    | request j => exact ha
    | writer k => exact hh ha
    | shutdown => exact ha
  index _ source bytes := Y.AcceptedIndex source bytes
  line i source line := ∃ j entry record, i = .request j ∧ line = logRecordJson record ∧
    Y.AcceptedRecord j source entry record
  encode := Y.encode

theorem remit_checked : Y.remit.Checked := by
  intro i source h ha
  cases i with
  | request j =>
    obtain ⟨-, -, hv, -⟩ := ha
    exact .inl hv
  | writer k => exact .inr ⟨k, ha⟩
  | shutdown => exact ha.elim

/-- A request with a token may do what an upload with that token does. -/
theorem uploadRemit {j : κ} {token : TokenContext} (hj : Y.Granted j token) :
    UploadRemit Y.remit Y.app Y.crates (.request j) token where
  acts source hv hp _ := ⟨token, hj, hv, hp⟩
  index source index hadmit haccepted := by
    obtain ⟨-, rfl, -, -⟩ := admitSource_ok hadmit
    exact ⟨index, rfl, haccepted⟩

theorem exportRemit {j : κ} {token : TokenContext} (hj : Y.Granted j token) :
    ExportRemit Y.remit (.request j) Y.logsHandler token (Y.requests j).payload.entries where
  acts source hv hp _ := ⟨token, hj, hv, hp⟩
  line entry he source record hadmit hr haccepted := by
    obtain ⟨hsource, -, hpermits⟩ := admitEntry_ok hadmit
    refine ⟨j, entry, record, rfl, rfl, he, hr, hsource, ?_⟩
    -- the lookup was by the project of the token, which is the project of the source
    rw [(TokenContext.permits_iff.mp hpermits).1]
    exact haccepted

section Obeys
variable {h : List (ServiceEvent κ)}

/-- Each request keeps to what its token grants. -/
theorem authMiddleware_obeys (j : κ) :
    (confinement Y.app.storage Y.remit).Obeys (.request j) (fun _ _ => True) (Y.authMiddleware (Y.requests j)) h := by
  unfold authMiddleware
  cases hauth : authorize Y.auth (Y.requests j).authorization with
  | error message => exact ⟨trivial, fun _ _ => trivial⟩
  | ok token =>
    have hexport := Y.exportRemit hauth
    dsimp only
    cases hp : (Y.requests j).payload with
    | crash headers body =>
      exact Obeys.bind (crashesHandler_obeys (Y.uploadRemit hauth)) fun _ _ _ _ => trivial
    | logs version resourceLogs =>
      rw [hp] at hexport
      refine Obeys.bind (exportLogs_obeys fun t ht => ?_) fun _ _ _ _ => trivial
      obtain rfl := Option.some.inj ht
      exact hexport

theorem joinAll_obeys (channels : List Nat) :
    (confinement Y.app.storage Y.remit).Obeys .shutdown (fun _ _ => True) (joinAll channels) h := by
  induction channels generalizing h with
  | nil => trivial
  | cons k rest ih => exact ⟨trivial, fun _ _ => ih⟩

/-- What holds at the head of a task's loop. -/
def AtHead : (i : ServiceTask κ) → (Y.task i).Var → List (ServiceEvent κ) → Prop
  | .writer k, v, h => Accepting Y.app.storage (.writer k) k v h
  | .request _, _, _ | .shutdown, _, _ => True

theorem atHead_grow (i : ServiceTask κ) (v : (Y.task i).Var) (h h' : List (ServiceEvent κ)) (hh : h ⊆ h')
    (hv : Y.AtHead i v h) : Y.AtHead i v h' := by
  cases i with
  | writer k => exact Accepting.grow hh hv
  | request j => trivial
  | shutdown => trivial

/-- Every task keeps to its remit in each round. -/
theorem body_obeys (i : ServiceTask κ) (v : (Y.task i).Var) (h : List (ServiceEvent κ)) (hv : Y.AtHead i v h) :
    (confinement Y.app.storage Y.remit).Obeys i (Discipline.Ends (P := Y.pool) Y.AtHead i) ((Y.task i).body v) h := by
  cases i with
  | request j => exact v.elim
  | shutdown => exact v.elim
  | writer k =>
    refine (writerLoop_obeys (k := k) (fun _ => rfl) (fun _ _ hacc => hacc) hv).mono fun r h' _ hr => ?_
    cases r with
    | inl v' => exact hr v' rfl
    | inr _ => trivial

theorem start_obeys (w : ServiceState κ) :
    (confinement Y.app.storage Y.remit).Kept Y.AtHead (Y.pool.start w) := by
  intro i p hp
  obtain rfl := Option.some.inj hp
  cases i with
  | request j => exact Obeys.bind (Y.authMiddleware_obeys j) fun _ _ _ _ => trivial
  | writer k => exact ⟨trivial, fun source _ => ⟨.head _, fun _ hf => by cases hf⟩⟩
  | shutdown => exact ⟨trivial, fun channels _ => Obeys.bind (Y.joinAll_obeys channels) fun _ _ _ _ => trivial⟩

/-- **The tasks of a server keep to their remit.** -/
theorem reach_reaches [DecidableEq κ] {w : ServiceState κ} {c : Config Y.pool}
    (h : (Y.pool.start w).Reach (fun _ _ _ => True) c) :
    (Y.pool.start w).Reach (fun i op s => Reaches Y.app.storage Y.remit i op s.history) c ∧
      (confinement Y.app.storage Y.remit).Kept Y.AtHead c :=
  Discipline.reach_may (P := Y.pool) (M := World.exec Y.env) rfl (fun _ _ => rfl) exec_fits Y.atHead_grow Y.body_obeys h
    (Y.start_obeys w)

end Obeys

end Service

end Detritus.Server
