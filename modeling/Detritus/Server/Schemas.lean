import Detritus.Files.Disk
import Detritus.Process.Program
import Detritus.Server.Service

/-! Loading the security configuration.

The token file declares tokens, rate limits and schemas. Every declared schema is read
and compiled; the compiled ones are kept by project and kind, one for each. TOML, JSON,
JSON Schema and password hashes belong to other crates (`SecurityCrates`). -/
namespace Detritus.Server
open Files Protocol Process

/-! ### The token file -/

/-- One `[[token]]` table. `secret` is a hash. -/
structure TokenEntry where
  id : String
  secret : String
  project : String
  sourcePrefix : String

/-- One `[[schema]]` table. -/
structure SchemaEntry where
  project : String
  kind : SchemaKind
  path : String

/-- A document that schemas can refer to by its URI. -/
structure SchemaResourceEntry where
  uri : String
  path : String

/-- The `schema_validation` table. -/
structure SchemaOptions where
  validateFormats : Option Bool
  ignoreUnknownFormats : Option Bool
  resources : List SchemaResourceEntry

/-- The token file. -/
structure TokensConfig where
  token : List TokenEntry
  rateLimit : Option RateLimitConfig
  schema : List SchemaEntry
  schemaValidation : SchemaOptions

/-- What is taken from other crates. `ρ` is the type of reference registries. -/
structure SecurityCrates (ρ : Type) where
  toml : String → Except String TokensConfig
  json : String → Except String Json
  /-- Whether a string is a password hash. -/
  passwordHash : String → Except String Unit
  newRegistry : ρ
  addResource : ρ → String → Json → Except String ρ
  prepare : ρ → Except String ρ
  /-- A schema as the errors it has for a document. -/
  build : ρ → Option Bool → Option Bool → Json → Except String (Json → List String)

/-- Why a schema was not loaded. -/
inductive SchemaLoadError where
  | io (path : Path) (error : IoError)
  | parse (path : Path) (message : String)

/-- Why the token file was not loaded. -/
inductive AuthConfigError where
  | io (error : IoError)
  | toml (message : String)
  | noTokens
  | invalidHash (id message : String)
  | schemaProjectMismatch (project : String) (kind : SchemaKind)
  | schema (error : SchemaLoadError)

/-- What the server takes from the token file. -/
structure SecurityConfig where
  tokenStore : TokenStore
  rateLimit : RateLimitConfig
  schemaRegistry : SchemaRegistry

section Load
variable {ρ : Type} (X : SecurityCrates ρ) (d : Disk)

def readToString (path : Path) : Except IoError String := do
  let bytes ← d.read path
  match ofUtf8 bytes with
  | some s => .ok s
  | none => .error .invalidData

/-- A file that holds a JSON document. -/
def readSchema (path : Path) : Except SchemaLoadError Json := do
  let raw ← (readToString d path).mapError (.io path)
  (X.json raw).mapError (.parse path)

/-- Adds the documents, none of whose URIs may come twice. -/
def addResources (dir : Path) : List SchemaResourceEntry → List String → ρ → Except SchemaLoadError ρ
  | [], _, resources => .ok resources
  | resource :: rest, uris, resources => do
    let path := dir.join resource.path
    if resource.uri ∈ uris then throw (.parse path "duplicate schema resource URI")
    let value ← readSchema X d path
    let resources ← (X.addResource resources resource.uri value).mapError (.parse path)
    addResources dir rest (resource.uri :: uris) resources

/-- The registry that references are looked up in. -/
def prepareResources (dir : Path) (options : SchemaOptions) : Except SchemaLoadError ρ := do
  let resources ← addResources X d dir options.resources [] X.newRegistry
  let path := match options.resources with
    | [] => ["<schema resources>"]
    | resource :: _ => dir.join resource.path
  (X.prepare resources).mapError (.parse path)

/-- A declared schema, compiled. -/
def compileSchema (dir : Path) (options : SchemaOptions) (resources : ρ) (entry : SchemaEntry) :
    Except SchemaLoadError (Json → List String) := do
  let path := dir.join entry.path
  let value ← readSchema X d path
  (X.build resources options.validateFormats options.ignoreUnknownFormats value).mapError (.parse path)

/-- A later schema replaces the one of the same project and kind. -/
def SchemaRegistry.insert (r : SchemaRegistry) (project : String) (kind : SchemaKind) (errorsOf : Json → List String) :
    SchemaRegistry where
  schemas p k := if p = project ∧ k = kind then some errorsOf else r.schemas p k

/-- The schemas in the order of the file. -/
def loadEntries (dir : Path) (options : SchemaOptions) (resources : ρ) :
    List SchemaEntry → SchemaRegistry → Except SchemaLoadError SchemaRegistry
  | [], schemas => .ok schemas
  | entry :: rest, schemas => do
    let validator ← compileSchema X d dir options resources entry
    loadEntries dir options resources rest (schemas.insert entry.project entry.kind validator)

def loadWithOptions (dir : Path) (entries : List SchemaEntry) (options : SchemaOptions) :
    Except SchemaLoadError SchemaRegistry := do
  let resources ← prepareResources X d dir options
  loadEntries X d dir options resources entries .empty

/-- Each hash has to be well formed. -/
def tokensFromEntries : List TokenEntry → Except AuthConfigError (List TokenContext)
  | [] => .ok []
  | token :: rest => do
    (X.passwordHash token.secret).mapError (.invalidHash token.id)
    let tokens ← tokensFromEntries rest
    return ⟨token.id, token.project, token.sourcePrefix, token.secret⟩ :: tokens

/-- A server without tokens does not start. -/
def tokenStoreFromEntries (entries : List TokenEntry) : Except AuthConfigError TokenStore := do
  let tokens ← tokensFromEntries X entries
  if tokens.isEmpty then throw .noTokens
  return ⟨tokens⟩

/-- Every schema is for the project of a token. -/
def checkProjects (tokens : List TokenEntry) : List SchemaEntry → Except AuthConfigError Unit
  | [] => .ok ()
  | entry :: rest => do
    if entry.project ∉ tokens.map TokenEntry.project then throw (.schemaProjectMismatch entry.project entry.kind)
    checkProjects tokens rest

def readTokensConfig (path : Path) : Except AuthConfigError TokensConfig := do
  let raw ← (readToString d path).mapError .io
  (X.toml raw).mapError .toml

/-- The token file with all that it refers to. -/
def loadSecurityConfig (path : Path) : Except AuthConfigError SecurityConfig := do
  let config ← readTokensConfig X d path
  checkProjects config.token config.schema
  let tokenStore ← tokenStoreFromEntries X config.token
  let registry ← (loadWithOptions X d path.parent config.schema config.schemaValidation).mapError .schema
  return ⟨tokenStore, config.rateLimit.getD .default, registry⟩

end Load

/-! ### What is enforced -/

/-- The declared schema that stands: the last of its project and kind. -/
def standing (entries : List SchemaEntry) (project : String) (kind : SchemaKind) : Option SchemaEntry :=
  entries.reverse.find? fun e => e.project = project ∧ e.kind = kind

theorem standing_cons (entry : SchemaEntry) (rest : List SchemaEntry) (project : String) (kind : SchemaKind) :
    standing (entry :: rest) project kind =
      (standing rest project kind).or (if project = entry.project ∧ kind = entry.kind then some entry else none) := by
  unfold standing
  rw [List.reverse_cons, List.find?_append, List.find?_singleton]
  simp only [decide_eq_true_eq, @eq_comm _ entry.project, @eq_comm _ entry.kind]

variable {entries : List SchemaEntry}

/-- A declared schema has one that stands for its project and kind. -/
theorem exists_standing {e : SchemaEntry} (he : e ∈ entries) :
    ∃ last, standing entries e.project e.kind = some last ∧ last ∈ entries ∧ last.project = e.project ∧
      last.kind = e.kind := by
  have hsome : (standing entries e.project e.kind).isSome = true := by
    rw [standing, List.find?_isSome]
    exact ⟨e, List.mem_reverse.mpr he, by simp⟩
  obtain ⟨last, hlast⟩ := Option.isSome_iff_exists.mp hsome
  have hpair : last.project = e.project ∧ last.kind = e.kind := by simpa using List.find?_some hlast
  exact ⟨last, hlast, List.mem_reverse.mp (List.mem_of_find?_eq_some hlast), hpair⟩

section Enforced
variable {ρ : Type} {X : SecurityCrates ρ} {d : Disk} {dir : Path} {options : SchemaOptions} {resources : ρ}

/-- What is kept for a project and kind is the schema that stands. -/
theorem loadEntries_ok {schemas r : SchemaRegistry}
    (h : loadEntries X d dir options resources entries schemas = .ok r) :
    (∀ e ∈ entries, ∃ errorsOf, compileSchema X d dir options resources e = .ok errorsOf) ∧
    ∀ project kind, (∀ last, standing entries project kind = some last → ∃ errorsOf,
        compileSchema X d dir options resources last = .ok errorsOf ∧ r.schemas project kind = some errorsOf) ∧
      (standing entries project kind = none → r.schemas project kind = schemas.schemas project kind) := by
  induction entries generalizing schemas with
  | nil =>
    obtain rfl := Except.ok.inj h
    exact ⟨by simp, fun _ _ => ⟨nofun, fun _ => rfl⟩⟩
  | cons entry rest ih =>
    unfold loadEntries at h
    obtain ⟨errorsOf, hcompile, h⟩ := of_bind_ok h
    obtain ⟨hall, hkept⟩ := ih h
    refine ⟨List.forall_mem_cons.mpr ⟨⟨errorsOf, hcompile⟩, hall⟩, fun project kind => ?_⟩
    rw [standing_cons]
    obtain ⟨hsome, hnone⟩ := hkept project kind
    cases hrest : standing rest project kind with
    | some last =>
      refine ⟨fun last' hlast => ?_, nofun⟩
      obtain rfl := Option.some.inj hlast
      exact hsome last hrest
    | none =>
      have hschema : r.schemas project kind = if project = entry.project ∧ kind = entry.kind then some errorsOf
        else schemas.schemas project kind := hnone hrest
      rw [Option.none_or]
      split_ifs at hschema ⊢ with hpair
      · refine ⟨fun last hlast => ?_, nofun⟩
        obtain rfl := Option.some.inj hlast
        exact ⟨errorsOf, hcompile, hschema⟩
      · exact ⟨nofun, fun _ => hschema⟩

variable (X d) in
/-- A declared schema accepts a document. -/
def SchemaEntry.Accepts (path : Path) (config : TokensConfig) (entry : SchemaEntry) (payload : Json) : Prop :=
  ∃ resources errorsOf, prepareResources X d path.parent config.schemaValidation = .ok resources ∧
    compileSchema X d path.parent config.schemaValidation resources entry = .ok errorsOf ∧ errorsOf payload = []

/-- Where the schemas of a configuration are loaded. -/
theorem loadSecurityConfig_ok {path : Path} {config : TokensConfig} {security : SecurityConfig}
    (hconfig : readTokensConfig X d path = .ok config) (h : loadSecurityConfig X d path = .ok security) :
    ∃ resources, prepareResources X d path.parent config.schemaValidation = .ok resources ∧
      loadEntries X d path.parent config.schemaValidation resources config.schema .empty =
        .ok security.schemaRegistry := by
  unfold loadSecurityConfig at h
  rw [hconfig] at h
  obtain ⟨config', hsame, h⟩ := of_bind_ok h
  obtain rfl := Except.ok.inj hsame
  obtain ⟨_, -, h⟩ := of_bind_ok h
  obtain ⟨tokenStore, -, h⟩ := of_bind_ok h
  obtain ⟨registry, hregistry, h⟩ := of_bind_ok h
  obtain rfl := Except.ok.inj h
  cases hload : loadWithOptions X d path.parent config.schema config.schemaValidation with
  | error e => rw [hload] at hregistry; cases hregistry
  | ok r =>
    rw [hload] at hregistry
    obtain rfl := Except.ok.inj hregistry
    obtain ⟨resources, hresources, hentries⟩ := of_bind_ok hload
    exact ⟨resources, hresources, hentries⟩

/-- **Every declared schema is enforced** just when each accepts what the last of its project and kind accepts. -/
theorem schemas_enforced_iff {path : Path} {config : TokensConfig} {security : SecurityConfig}
    (hconfig : readTokensConfig X d path = .ok config) (h : loadSecurityConfig X d path = .ok security) :
    (∀ project kind payload, security.schemaRegistry.validate project kind payload = .ok () →
      ∀ e ∈ config.schema, e.project = project → e.kind = kind → e.Accepts X d path config payload) ↔
    ∀ e ∈ config.schema, ∀ last, standing config.schema e.project e.kind = some last →
      ∀ payload, last.Accepts X d path config payload → e.Accepts X d path config payload := by
  obtain ⟨resources, hresources, hentries⟩ := loadSecurityConfig_ok hconfig h
  obtain ⟨-, hkept⟩ := loadEntries_ok hentries
  have hstands : ∀ project kind last, standing config.schema project kind = some last → ∀ payload,
      security.schemaRegistry.validate project kind payload = .ok () ↔ last.Accepts X d path config payload := by
    intro project kind last hlast payload
    obtain ⟨errorsOf, hcompile, hschema⟩ := (hkept project kind).1 last hlast
    have hvalid : security.schemaRegistry.validate project kind payload = .ok () ↔ errorsOf payload = [] := by
      rw [validate_ok_iff, hschema]
      exact ⟨fun hall => hall errorsOf rfl, fun he _ heq => Option.some.inj heq ▸ he⟩
    rw [hvalid]
    refine ⟨fun he => ⟨resources, errorsOf, hresources, hcompile, he⟩, ?_⟩
    rintro ⟨resources', errorsOf', hresources', hcompile', he⟩
    obtain rfl := Except.ok.inj (hresources.symm.trans hresources')
    obtain rfl := Except.ok.inj (hcompile.symm.trans hcompile')
    exact he
  constructor
  · intro henforced e he last hlast payload haccepts
    exact henforced e.project e.kind payload ((hstands _ _ last hlast payload).mpr haccepts) e he rfl rfl
  · rintro hall project kind payload hvalid e he rfl rfl
    obtain ⟨last, hlast, -, -, -⟩ := exists_standing he
    exact hall e he last hlast payload ((hstands _ _ last hlast payload).mp hvalid)

/-- No schema is declared twice for a project and kind. -/
def Distinct (entries : List SchemaEntry) : Prop :=
  ∀ e ∈ entries, ∀ e' ∈ entries, e.project = e'.project → e.kind = e'.kind → e = e'

/-- Each of them stands then. -/
theorem standing_of_distinct (hd : Distinct entries) {e last : SchemaEntry} (he : e ∈ entries)
    (hlast : standing entries e.project e.kind = some last) : last = e := by
  obtain ⟨last', hlast', hmem, hproject, hkind⟩ := exists_standing he
  obtain rfl := Option.some.inj (hlast.symm.trans hlast')
  exact hd last hmem e he hproject hkind

end Enforced

/-! Two schemas for the crash metadata of one project: the first refuses every document, the second none. -/

/-- The files that are read, each with its text. -/
def sampleFiles (files : List (Path × String)) : Disk :=
  files.foldl (fun d f => let r := d.create f.1 0; (r.2.write r.1 (utf8 f.2) 0).2) .empty

def sampleSchemas (schema : List SchemaEntry) : TokensConfig :=
  ⟨[⟨"token", "hash", "app", "app/"⟩], none, schema, ⟨none, none, []⟩⟩

/-- Boolean schemas: `false` refuses every document. -/
def sampleSecurity (schema : List SchemaEntry) : SecurityCrates Unit where
  toml _ := .ok (sampleSchemas schema)
  json raw := .ok (.bool (raw = "true"))
  passwordHash _ := .ok ()
  newRegistry := ()
  addResource _ _ _ := .ok ()
  prepare _ := .ok ()
  build _ _ _ schema := .ok fun _ => match schema with
    | .bool false => ["False schema does not allow"]
    | _ => []

def sampleConfigDisk : Disk :=
  sampleFiles [(["etc", "tokens.toml"], ""), (["etc", "strict.json"], "false"), (["etc", "lax.json"], "true")]

def strictEntry : SchemaEntry := ⟨"app", .crashMetadata, "strict.json"⟩

def laxEntry : SchemaEntry := ⟨"app", .crashMetadata, "lax.json"⟩

/-- What is loaded, as far as a document of the project goes. -/
def sampleAccepts (schema : List SchemaEntry) (kind : SchemaKind) : Option Bool :=
  match loadSecurityConfig (sampleSecurity schema) sampleConfigDisk ["etc", "tokens.toml"] with
  | .ok security => match security.schemaRegistry.validate "app" kind .null with
    | .ok () => some true
    | .error _ => some false
  | .error _ => none

/-- A document is accepted that a declared schema refuses. -/
theorem repeated_schema_unenforced : sampleAccepts [strictEntry, laxEntry] .crashMetadata = some true ∧
    ¬ strictEntry.Accepts (sampleSecurity [strictEntry, laxEntry]) sampleConfigDisk ["etc", "tokens.toml"]
      (sampleSchemas [strictEntry, laxEntry]) .null := by
  refine ⟨by decide +kernel, ?_⟩
  rintro ⟨resources, errorsOf, -, hcompile, herrors⟩
  have hread : readToString sampleConfigDisk (Path.join ["etc"] "strict.json") = .ok "false" := by decide +kernel
  have hpath : Path.join (Path.parent ["etc", "tokens.toml"]) strictEntry.path = Path.join ["etc"] "strict.json" := rfl
  rw [compileSchema, readSchema, hpath, hread] at hcompile
  rw [← Except.ok.inj hcompile] at herrors
  cases herrors

/-- One schema for each kind. -/
def eachKind : List SchemaEntry := [strictEntry, ⟨"app", .logAttributes, "lax.json"⟩]

theorem eachKind_distinct : Distinct eachKind := by
  intro e he e' he' _ hkind
  rcases List.mem_pair.mp he with rfl | rfl
  all_goals
    rcases List.mem_pair.mp he' with rfl | rfl
    all_goals first | rfl | cases hkind

/-- The one refuses a document, the other accepts it, and both are enforced. -/
theorem schemas_enforced_distinct : ∃ security,
    loadSecurityConfig (sampleSecurity eachKind) sampleConfigDisk ["etc", "tokens.toml"] = .ok security ∧
    sampleAccepts eachKind .crashMetadata = some false ∧ sampleAccepts eachKind .logAttributes = some true ∧
    ∀ project kind payload, security.schemaRegistry.validate project kind payload = .ok () →
      ∀ e ∈ eachKind, e.project = project → e.kind = kind →
        e.Accepts (sampleSecurity eachKind) sampleConfigDisk ["etc", "tokens.toml"] (sampleSchemas eachKind) payload := by
  have hconfig : readTokensConfig (sampleSecurity eachKind) sampleConfigDisk ["etc", "tokens.toml"] =
      .ok (sampleSchemas eachKind) := by
    have hread : readToString sampleConfigDisk ["etc", "tokens.toml"] = .ok "" := by decide +kernel
    rw [readTokensConfig, hread]
    rfl
  have hcrash : sampleAccepts eachKind .crashMetadata = some false := by decide +kernel
  cases hload : loadSecurityConfig (sampleSecurity eachKind) sampleConfigDisk ["etc", "tokens.toml"] with
  | error e =>
    rw [sampleAccepts, hload] at hcrash
    cases hcrash
  | ok security =>
    refine ⟨security, rfl, hcrash, by decide +kernel, (schemas_enforced_iff hconfig hload).mpr ?_⟩
    intro e he last hlast payload hp
    rw [← standing_of_distinct eachKind_distinct he hlast]
    exact hp

end Detritus.Server
