import Detritus.Client.Passes
import Detritus.Protocol.Envelope
import Detritus.Server.Retries
import Detritus.Server.Service

/-! Reports on their way to the server.

The server is a peer of the shipper: it takes a request, if it is sent to its endpoint and
is not too large, and answers with a status. A report that is sent is accepted exactly if
its token is good for its source, its metadata and its parts are within the limits, and
the limiter and the schema of the project have nothing against it. -/
namespace Detritus.Delivery
open Files Protocol Process Client
open Server hiding Crates Env Response World attempt call execAs file

/-! ### The server as a peer -/

/-- The limit on the body of any request. -/
def BODY_LIMIT : Nat := 150 * 1024 * 1024

/-- A server with its crash endpoint, and the pieces in which bodies arrive at it. -/
structure Site (κ : Type) extends Service κ where
  url : Url
  pieces : Bytes → List Bytes
  whole : ∀ bytes, (pieces bytes).flatten = bytes

/-- The status of an answer. -/
def statusOf : Server.Response → Nat
  | .unauthorized _ => 401
  | .crash (.ok x) => x.1
  | .crash (.error e) => e.statusCode
  | .logs _ => 200

namespace Site
variable {κ : Type} (site : Site κ)

/-- The entry of the token that is presented. -/
abbrev authenticate (token : String) : Option TokenContext :=
  site.auth.tokenStore.authenticate site.auth.verifyPassword token

/-- A request as the server receives it. -/
def request (r : HttpRequest) : Request :=
  ⟨some (some r.authorization), .crash ⟨some (some r.contentType)⟩ ⟨site.pieces r.body, false⟩⟩

/-- Requests are handled one after the other. -/
def peer : Peer (ServerState Unit) := fun r s =>
  if r.url ≠ site.url then some (.error ⟨"connection refused"⟩, s)
  else if BODY_LIMIT < r.body.length then some (.ok ⟨413, none⟩, s)
  else ((site.authMiddleware (site.request r)).run (Server.execAs site.env ()) s).map
    fun x => (.ok ⟨statusOf x.1, none⟩, x.2)

end Site

/-! ### The parts that arrive -/

section Parts
variable {mime : Mime} {json : SerdeJson} {sent : CrashEnvelope} {encodings : EnvelopeEncodings} {m : Multipart}

/-- The fields of a report: its metadata, its dump and its attachments. -/
structure Arrived (mime : Mime) (json : SerdeJson) (sent : CrashEnvelope) (encodings : EnvelopeEncodings)
    (first second : Field) (rest : List Field) : Prop where
  metadata : Sheet.Read mime ⟨"metadata", "application/json", none, json.write sent.metadata.toJson⟩ first
  dump : Sheet.Read mime ⟨"dump", "application/octet-stream", encodings.dump.contentEncoding, sent.dump⟩ second
  attachments : List.Forall₂ (fun x : CrashAttachment × Nat =>
    Sheet.Read mime (attachmentSheet x.1 (labelAt encodings x.2))) sent.attachments.zipIdx rest

theorem arrived_of_read (h : List.Forall₂ (Sheet.Read mime) (sent.sheets json encodings) m.fields) :
    ∃ first second rest, m.fields = first :: second :: rest ∧ Arrived mime json sent encodings first second rest := by
  obtain ⟨first, tail, hfirst, htail, hfields⟩ := List.forall₂_cons_left_iff.mp h
  obtain ⟨second, rest, hsecond, hrest, rfl⟩ := List.forall₂_cons_left_iff.mp htail
  exact ⟨first, second, rest, hfields, hfirst, hsecond, List.forall₂_map_left_iff.mp hrest⟩

theorem isAttachment_of_read {a : CrashAttachment} {label : Option String} {f : Field}
    (h : Sheet.Read mime (attachmentSheet a label) f) : f.isAttachment = true ∧ f.isDump = false := by
  have hname : f.name = some ("attach:" ++ a.key) := h.name
  have hattach : "attach:".toList <+: ("attach:" ++ a.key).toList := by
    rw [String.toList_append]
    exact List.prefix_append ..
  constructor
  · rw [Field.isAttachment, hname]
    exact decide_eq_true hattach
  · rw [Field.isDump, hname, decide_eq_false_iff_not]
    intro heq
    rw [Option.some.inj heq] at hattach
    exact absurd hattach (by decide)

/-- What holds of all fields for attachments holds of all attachments. -/
theorem forall_fields_iff {P : Field → Prop} {Q : CrashAttachment → Prop} {as : List (CrashAttachment × Nat)}
    {fs : List Field} (h : List.Forall₂ (fun x : CrashAttachment × Nat =>
      Sheet.Read mime (attachmentSheet x.1 (labelAt encodings x.2))) as fs)
    (hPQ : ∀ a label f, Sheet.Read mime (attachmentSheet a label) f → (P f ↔ Q a)) :
    (∀ f ∈ fs, P f) ↔ ∀ a ∈ as.map Prod.fst, Q a := by
  induction h with
  | nil => simp
  | cons hx _ ih => rw [List.forall_mem_cons, List.map_cons, List.forall_mem_cons, ih, hPQ _ _ _ hx]

variable {first second : Field} {rest : List Field}

theorem Arrived.dumps (h : Arrived mime json sent encodings first second rest) :
    Server.dumps (second :: rest) = [second] := by
  have hdump : second.isDump = true := decide_eq_true h.dump.name
  have hrest : rest.filter Field.isDump = [] := by
    rw [List.filter_eq_nil_iff, forall_fields_iff (Q := fun _ => True) h.attachments]
    · exact fun _ _ => trivial
    · intro a label f hf
      rw [(isAttachment_of_read hf).2]
      simp
  rw [Server.dumps, List.filter_cons_of_pos hdump, hrest]

/-- The parts after the metadata are in order if they are within the limit. -/
theorem Arrived.parts_iff (h : Arrived mime json sent encodings first second rest) (max : Nat) :
    (∀ f ∈ second :: rest, (f.isDump = true ∨ f.isAttachment = true) ∧ Whole max f) ↔
      sent.dump.length ≤ max ∧ ∀ a ∈ sent.attachments, a.bytes.length ≤ max := by
  have hdump : (second.isDump = true ∨ second.isAttachment = true) ∧ Whole max second ↔ sent.dump.length ≤ max := by
    have hbytes : second.bytes = sent.dump := h.dump.bytes
    rw [← hbytes]
    exact ⟨fun hs => hs.2.size, fun hs => ⟨.inl (decide_eq_true h.dump.name), h.dump.failure, hs⟩⟩
  rw [List.forall_mem_cons, hdump, forall_fields_iff (Q := fun a => a.bytes.length ≤ max) h.attachments,
    List.zipIdx_map_fst]
  intro a label f hf
  have hbytes : f.bytes = a.bytes := hf.bytes
  rw [← hbytes]
  exact ⟨fun hs => hs.2.size, fun hs => ⟨.inr (isAttachment_of_read hf).1, hf.failure, hs⟩⟩

end Parts

/-! ### Acceptance -/

section Acceptance
variable {mime : Mime} {C : Server.Crates} {app : AppState} {sent : CrashEnvelope}
  {encodings : EnvelopeEncodings} {m : Multipart} {context : TokenContext} {admitted : SourceKey → Bool}

/-- What the server asks of a report under a token. -/
structure Acceptable (C : Server.Crates) (app : AppState) (context : TokenContext)
    (admitted : SourceKey → Bool) (sent : CrashEnvelope) : Prop where
  source : ∃ source, SourceKey.new sent.metadata.source.project sent.metadata.source.installId.toString =
    .ok source ∧ context.permits source = true ∧ admitted source = true
  metadata : (C.json.write sent.metadata.toJson).length ≤ METADATA_MAX_BYTES
  schema : ∀ errorsOf, app.schemaRegistry.schemas sent.metadata.source.project .crashMetadata = some errorsOf →
    errorsOf sent.metadata.toJson = []
  dump : sent.dump.length ≤ app.maxDumpBytes
  attachments : ∀ a ∈ sent.attachments, a.bytes.length ≤ app.maxDumpBytes

/-- **A report that arrives has the form that is accepted exactly if it is acceptable.** -/
theorem grammatical_iff (hversion : sent.metadata.schemaVersion = PROTOCOL_VERSION)
    (hread : C.json.metadata (C.json.write sent.metadata.toJson) = .ok sent.metadata)
    (hfields : List.Forall₂ (Sheet.Read mime) (sent.sheets C.json encodings) m.fields) (hended : m.failure = none) :
    (∃ metadata rest, Grammatical C app context admitted m metadata rest) ↔
      Acceptable C app context admitted sent := by
  obtain ⟨first, second, rest, hm, h⟩ := arrived_of_read hfields
  have hbytes : first.bytes = C.json.write sent.metadata.toJson := h.metadata.bytes
  constructor
  · rintro ⟨metadata, rest', hg⟩
    obtain ⟨first', hfirst, -, hwhole, hmetadata⟩ := hg.first
    obtain ⟨rfl, rfl⟩ := List.cons.inj (hm.symm.trans hfirst)
    rw [hbytes, hread] at hmetadata
    obtain rfl := Except.ok.inj hmetadata
    obtain ⟨hdump, hattachments⟩ := (h.parts_iff app.maxDumpBytes).mp hg.parts
    exact ⟨hg.source, hbytes ▸ hwhole.size, hg.schema, hdump, hattachments⟩
  · intro ha
    refine ⟨sent.metadata, second :: rest, hended, ⟨first, hm, h.metadata.name, ⟨h.metadata.failure, ?_⟩, ?_⟩,
      hversion, ha.source, ha.schema, (h.parts_iff app.maxDumpBytes).mpr ⟨ha.dump, ha.attachments⟩, ?_⟩
    · rw [hbytes]
      exact ha.metadata
    · rw [hbytes, hread]
    · rw [h.dumps]
      rfl

end Acceptance

/-! ### What is sent -/

section Sending
variable {compress : Compress} {config : ShipConfig} {e sent : CrashEnvelope} {encodings : EnvelopeEncodings}

theorem compressEnvelope_metadata (h : compressEnvelope compress config e = .ok (sent, encodings)) :
    sent.metadata = e.metadata := by
  obtain ⟨dump, -, h⟩ := of_bind_ok h
  obtain ⟨⟨attachments, labels⟩, -, h⟩ := of_bind_ok h
  obtain ⟨rfl, -⟩ := Prod.mk.inj (Except.ok.inj h)
  rfl

theorem zstd_plain : PlainValue "zstd" := ⟨by decide, by decide⟩

/-- The encodings of a request are plain. -/
theorem compressEnvelope_plain (h : compressEnvelope compress config e = .ok (sent, encodings)) :
    (∀ label ∈ encodings.dump.contentEncoding, PlainValue label) ∧
      ∀ p ∈ encodings.attachments, ∀ label ∈ p.contentEncoding, PlainValue label := by
  obtain ⟨-, hdump, hattachments⟩ := compressEnvelope_ok h
  have hlabels : encodings.attachments = e.attachments.map config.label := compressAttachments_labels hattachments
  constructor
  · rw [hdump]
    rintro label hlabel
    obtain rfl := Option.some.inj hlabel
    exact zstd_plain
  · rw [hlabels]
    intro p hp label hlabel
    obtain ⟨a, -, rfl⟩ := List.mem_map.mp hp
    unfold ShipConfig.label at hlabel
    split at hlabel
    · obtain rfl := Option.some.inj hlabel
      exact zstd_plain
    · cases hlabel

theorem requestFor_ok {C : Crates} {endpoint : Url} {token : String} {request : HttpRequest}
    (h : requestFor C endpoint token config e = .ok request) : ∃ sent encodings,
      compressEnvelope C.compress config e = .ok (sent, encodings) ∧ request =
        ⟨crashUrl C endpoint, "Bearer " ++ token, "multipart/form-data; boundary=" ++ DEFAULT_BOUNDARY,
          sent.writeToWithBoundaryAndEncodings C.json DEFAULT_BOUNDARY encodings⟩ := by
  unfold requestFor at h
  obtain ⟨⟨sent, encodings⟩, hcompress, h⟩ := of_bind_ok h
  have hcompress' : compressEnvelope C.compress config e = .ok (sent, encodings) := by
    cases hc : compressEnvelope C.compress config e with
    | error e =>
      rw [hc] at hcompress
      cases hcompress
    | ok x =>
      rw [hc] at hcompress
      exact congrArg Except.ok (Except.ok.inj hcompress)
  refine ⟨sent, encodings, hcompress', ?_⟩
  unfold headerValue at h
  split at h
  · next hnone =>
    split at hnone
    · cases hnone
    · cases h
  · next value hvalue =>
    split at hvalue
    · obtain rfl := Option.some.inj hvalue
      exact (Except.ok.inj h).symm
    · cases hvalue

end Sending

/-! ### The answer -/

section Answer
variable {κ : Type} {site : Site κ} {mime : Mime} {s : ServerState Unit} {context : TokenContext}

theorem statusCode_error (e : CrashError) : 400 ≤ e.statusCode := by
  cases e with
  | storage e => cases e <;> simp [CrashError.statusCode]
  | _ => simp [CrashError.statusCode]

/-- The two sides agree on how JSON and multipart bodies are written and read. -/
structure Linked (C : Crates) (site : Site κ) (mime : Mime) : Prop where
  json : site.crates.json = C.json
  boundary : site.crates.parseBoundary ("multipart/form-data; boundary=" ++ DEFAULT_BOUNDARY) =
    some DEFAULT_BOUNDARY
  parser : Labelling mime site.crates.multipart

/-- The body of a request, as the endpoint reads it. -/
def Site.multipart (site : Site κ) (r : HttpRequest) : Multipart :=
  site.crates.multipart DEFAULT_BOUNDARY ⟨site.pieces r.body, false⟩

theorem Linked.opens {C : Crates} (hlink : Linked C site mime) (r : HttpRequest) :
    openMultipart site.crates
        ⟨some (some ("multipart/form-data; boundary=" ++ DEFAULT_BOUNDARY))⟩ ⟨site.pieces r.body, false⟩ =
      .ok (site.multipart r) := by
  rw [openMultipart]
  dsimp only
  rw [hlink.boundary]
  rfl

/-- The status of a run of the endpoint is noted. -/
def noted (x : Except CrashError (Nat × CrashResponse) × ServerState Unit) :
    ServerState Unit :=
  x.2.called () (.observe (.request .crashes (statusOf (.crash x.1)))) ()

theorem crashesHandler_run {C : Server.Crates} {app : AppState} {headers : Headers} {body : Body} {env : Server.Env} :
    (crashesHandler C app context headers body).run (Server.execAs env ()) s =
      ((crashesInner C app context headers body).alone env () s).map fun x => (x.1, noted x) := by
  unfold crashesHandler
  rw [Program.run_bind]
  show (((crashesInner C app context headers body).alone env () s).bind _) = _
  cases (crashesInner C app context headers body).alone env () s with
  | none => rfl
  | some x =>
    obtain ⟨r, t⟩ := x
    cases r with
    | ok x => rfl
    | error e => rfl

section Peer
variable {r : HttpRequest} {token : String}

/-- A request that gets to the server is answered as its token says. -/
theorem Site.peer_authorized (hurl : r.url = site.url) (hbody : r.body.length ≤ BODY_LIMIT) :
    site.peer r s = ((site.authMiddleware (site.request r)).run (Server.execAs site.env ()) s).map
      fun x => (.ok ⟨statusOf x.1, none⟩, x.2) := by
  rw [peer, if_neg (not_not.mpr hurl), if_neg (Nat.not_lt.mpr hbody)]

theorem Site.peer_tooLarge (hurl : r.url = site.url) (hbody : BODY_LIMIT < r.body.length) :
    site.peer r s = some (.ok ⟨413, none⟩, s) := by
  rw [peer, if_neg (not_not.mpr hurl), if_pos hbody]

theorem Site.authorize_bearer (hauth : r.authorization = "Bearer " ++ token) :
    authorize site.auth (site.request r).authorization =
      (site.authenticate token).elim (.error "invalid bearer token") .ok := by
  rw [request, hauth, authorize, bearer_append, authenticate]
  dsimp only
  cases site.auth.tokenStore.authenticate site.auth.verifyPassword token <;> rfl

/-- A token that the server does not know is refused. -/
theorem Site.peer_unauthorized (hurl : r.url = site.url) (hbody : r.body.length ≤ BODY_LIMIT)
    (hauth : r.authorization = "Bearer " ++ token)
    (hcontext : site.authenticate token = none) :
    site.peer r s = some (.ok ⟨401, none⟩, s.called () (.observe (.request .crashes 401)) ()) := by
  have hauthorize : authorize site.auth (site.request r).authorization = .error "invalid bearer token" := by
    rw [authorize_bearer hauth, hcontext]
    rfl
  rw [peer_authorized hurl hbody, Service.authMiddleware, hauthorize]
  rfl

/-- Under a token that it knows, the server answers what the endpoint does. -/
theorem Site.peer_eq (hurl : r.url = site.url) (hbody : r.body.length ≤ BODY_LIMIT)
    (hauth : r.authorization = "Bearer " ++ token) (hcontext : site.authenticate token = some context) :
    site.peer r s = ((crashesInner site.crates site.app context ⟨some (some r.contentType)⟩
      ⟨site.pieces r.body, false⟩).alone site.env () s).map fun x =>
        (.ok ⟨statusOf (.crash x.1), none⟩, noted x) := by
  have hauthorize : authorize site.auth (site.request r).authorization = .ok context := by
    rw [authorize_bearer hauth, hcontext]
    rfl
  rw [peer_authorized hurl hbody, Service.authMiddleware, hauthorize]
  show ((((crashesHandler site.crates site.app context ⟨some (some r.contentType)⟩
    ⟨site.pieces r.body, false⟩) >>= fun x => .done (Server.Response.crash x)).run
      (Server.execAs site.env ()) s).map _) = _
  rw [Program.run_bind, crashesHandler_run, Option.bind_map, Option.map_bind]
  cases (crashesInner site.crates site.app context ⟨some (some r.contentType)⟩
    ⟨site.pieces r.body, false⟩).alone site.env () s <;> rfl

end Peer

section Report
variable {C : Crates} {config : ShipConfig} {e sent : CrashEnvelope} {encodings : EnvelopeEncodings}
  {endpoint : Url} {token : String} {request : HttpRequest}

/-- The parts that the endpoint is handed are those that were sent. -/
theorem Linked.fields (hlink : Linked C site mime) (hkeeps : C.json.Keeps e.metadata)
    (hcompress : compressEnvelope C.compress config e = .ok (sent, encodings))
    (hframed : sent.Presentable mime DEFAULT_BOUNDARY)
    (hrequest : request.body = sent.writeToWithBoundaryAndEncodings C.json DEFAULT_BOUNDARY encodings) :
    (site.multipart request).failure = none ∧
      List.Forall₂ (Sheet.Read mime) (sent.sheets site.crates.json encodings) (site.multipart request).fields := by
  obtain ⟨hdump, hattachments⟩ := compressEnvelope_plain hcompress
  rw [← compressEnvelope_metadata hcompress] at hkeeps
  refine hlink.parser _ _ _ ⟨by decide, by decide⟩ ?_ ?_
  · rw [hlink.json]
    exact CrashEnvelope.sheets_clear hkeeps hframed hdump hattachments
  · rw [site.whole, hrequest, CrashEnvelope.write_eq, hlink.json]

variable (hlink : Linked C site mime) (hkeeps : C.json.Keeps e.metadata)
  (hcompress : compressEnvelope C.compress config e = .ok (sent, encodings))
  (hframed : sent.Presentable mime DEFAULT_BOUNDARY) (hrequest : requestFor C endpoint token config e = .ok request)
  (hready : Ready site.env site.app.storage (s.history.length + uploadCalls (site.multipart request)) s)
include hlink hkeeps hcompress hframed hrequest hready

/-- **A report that gets to the endpoint is stored exactly if it is acceptable.** -/
theorem crashesInner_acceptable (context : TokenContext) :
    ∃ result t, (crashesInner site.crates site.app context ⟨some (some request.contentType)⟩
        ⟨site.pieces request.body, false⟩).alone site.env () s = some (result, t) ∧
      (∀ x, result = .ok x → x.1 = 201) ∧ ((∃ x, result = .ok x) ↔ Acceptable site.crates site.app
        context (admits site.env site.app context s) sent) := by
  obtain ⟨sent', encodings', hcompress', heq⟩ := requestFor_ok hrequest
  obtain ⟨rfl, rfl⟩ := Prod.mk.inj (Except.ok.inj (hcompress.symm.trans hcompress'))
  have htype : request.contentType = "multipart/form-data; boundary=" ++ DEFAULT_BOUNDARY := by rw [heq]
  obtain ⟨hended, hfields⟩ := hlink.fields hkeeps hcompress hframed (congrArg HttpRequest.body heq)
  have hread : site.crates.json.metadata (site.crates.json.write sent.metadata.toJson) =
      .ok sent.metadata := by
    rw [hlink.json, compressEnvelope_metadata hcompress]
    exact hkeeps.read
  have hiff := (accepted_iff_grammatical _ site.app context
    (admits site.env site.app context s) _).trans
    (grammatical_iff hframed.version hread hfields hended)
  have hopen : openMultipart site.crates ⟨some (some request.contentType)⟩
      ⟨site.pieces request.body, false⟩ = .ok (site.multipart request) := by
    rw [htype, hlink.opens]
  obtain ⟨result, t, hrun, hout, -, -⟩ := crashesInner_alone (i := ()) context hopen s hready (Nat.le_refl _)
  refine ⟨result, t, hrun, ?_⟩
  rw [← hiff]
  cases hverdict : verdict site.crates site.app context
      (admits site.env site.app context s) (site.multipart request) with
  | error error =>
    rw [hverdict] at hout
    obtain ⟨rfl, -⟩ := hout
    exact ⟨fun x hx => (by cases hx), of_error_ok, of_error_ok⟩
  | ok report =>
    rw [hverdict] at hout
    obtain ⟨index, -, -, rfl, -⟩ := hout
    exact ⟨fun x hx => (by rw [← Except.ok.inj hx]), fun _ => ⟨report, rfl⟩, fun _ => ⟨_, rfl⟩⟩

/-- The same for a report that is sent, under the token that it was sent with. -/
theorem peer_acceptable (hurl : request.url = site.url) (hbody : request.body.length ≤ BODY_LIMIT)
    (hcontext : site.authenticate token = some context) :
    ∃ result t, site.peer request s = some (.ok ⟨statusOf (.crash result), none⟩, t) ∧
      (∀ x, result = .ok x → x.1 = 201) ∧ ((∃ x, result = .ok x) ↔ Acceptable site.crates site.app
        context (admits site.env site.app context s) sent) := by
  obtain ⟨_, _, _, heq⟩ := requestFor_ok hrequest
  have hauth : request.authorization = "Bearer " ++ token := by rw [heq]
  obtain ⟨result, t, hrun, hanswer⟩ := crashesInner_acceptable hlink hkeeps hcompress hframed hrequest hready context
  have hpeer := site.peer_eq (s := s) hurl hbody hauth hcontext
  rw [hrun] at hpeer
  exact ⟨result, _, hpeer, hanswer⟩

/-- The same by the status: what is not created is an error. -/
theorem peer_created (hurl : request.url = site.url) (hbody : request.body.length ≤ BODY_LIMIT)
    (hcontext : site.authenticate token = some context) :
    ∃ status t, site.peer request s = some (.ok ⟨status, none⟩, t) ∧
      (status = 201 ↔ Acceptable site.crates site.app context
        (admits site.env site.app context s) sent) ∧ (status ≠ 201 → 400 ≤ status) := by
  obtain ⟨result, t, hpeer, hcreated, hiff⟩ :=
    peer_acceptable hlink hkeeps hcompress hframed hrequest hready hurl hbody hcontext
  refine ⟨_, t, hpeer, ?_⟩
  rw [← hiff]
  cases result with
  | error error =>
    have hstatus : 400 ≤ statusOf (.crash (.error error)) := statusCode_error error
    refine ⟨⟨fun h => ?_, of_error_ok⟩, fun _ => hstatus⟩
    rw [h] at hstatus
    exact absurd hstatus (by decide)
  | ok x =>
    have hstatus : statusOf (.crash (.ok x)) = 201 := hcreated x rfl
    exact ⟨⟨fun _ => ⟨x, rfl⟩, fun _ => hstatus⟩, fun h => absurd hstatus h⟩

/-- **A report is created exactly if it is acceptable** under the token that it was sent with
and is not too large as a whole. -/
theorem created_iff (hurl : site.url = crashUrl C endpoint) :
    ∃ status t, site.peer request s = some (.ok ⟨status, none⟩, t) ∧
      (status = 201 ↔ request.body.length ≤ BODY_LIMIT ∧
        ∃ context, site.authenticate token = some context ∧
          Acceptable site.crates site.app context
            (admits site.env site.app context s) sent) ∧
      (status ≠ 201 → 400 ≤ status) := by
  obtain ⟨sent', encodings', -, heq⟩ := requestFor_ok hrequest
  have hurl : request.url = site.url := by rw [heq, hurl]
  by_cases hbody : request.body.length ≤ BODY_LIMIT
  · have hauth : request.authorization = "Bearer " ++ token := by rw [heq]
    cases hcontext : site.authenticate token with
    | none => exact ⟨401, _, site.peer_unauthorized hurl hbody hauth hcontext, by simp, by simp⟩
    | some context =>
      obtain ⟨status, t, hpeer, hiff, herror⟩ :=
        peer_created hlink hkeeps hcompress hframed hrequest hready hurl hbody hcontext
      refine ⟨status, t, hpeer, hiff.trans ⟨fun ha => ⟨hbody, context, rfl, ha⟩, ?_⟩, herror⟩
      rintro ⟨-, context', hcontext', ha⟩
      exact Option.some.inj hcontext' ▸ ha
  · refine ⟨413, s, site.peer_tooLarge hurl (Nat.lt_of_not_le hbody), ?_, by simp⟩
    exact ⟨fun h => absurd h (by decide), fun h => absurd h.1 hbody⟩

end Report

end Answer

/-! A server that knows one token, and the report of an entry. -/

/-- A server that takes reports of up to 1024 bytes a part. -/
def localSite : Site Unit where
  crates := ⟨CrashSystem.abcCrates.sha256, strictCrates.json, fun _ => some DEFAULT_BOUNDARY,
    plainParser CrashEnvelope.fewTypes⟩
  app := ⟨⟨["data"]⟩, 1024, .default, .empty⟩
  auth := ⟨⟨[⟨"token", "app", "app/", "hash"⟩]⟩, fun _ presented => presented = "t"⟩
  utcDate _ := .afterNewYear
  env := CrashSystem.abcEnv
  requests _ := ⟨none, .logs none []⟩
  url := ⟨"http://localhost/"⟩
  pieces bytes := [bytes]
  whole _ := List.append_nil _

def sevenReport : CrashEnvelope := ⟨sampleMetadata [], [7], []⟩

def sevenRequest : HttpRequest := ⟨⟨"http://localhost/"⟩, "Bearer t",
  "multipart/form-data; boundary=detritus-boundary-v1",
  sevenReport.writeToWithBoundaryAndEncodings strictCrates.json DEFAULT_BOUNDARY ⟨⟨some "zstd"⟩, []⟩⟩

theorem localSite_linked : Linked strictCrates localSite CrashEnvelope.fewTypes :=
  ⟨rfl, rfl, plainParser_labelling _⟩

theorem sevenReport_keeps : strictCrates.json.Keeps sevenReport.metadata :=
  ⟨rfl, by decide +kernel, by decide +kernel⟩

theorem sevenReport_presentable : sevenReport.Presentable CrashEnvelope.fewTypes DEFAULT_BOUNDARY :=
  ⟨⟨rfl, nofun, nofun, by decide +kernel, nofun⟩, nofun⟩

theorem seven_compressed : compressEnvelope strictCrates.compress .default sevenReport =
    .ok (sevenReport, ⟨⟨some "zstd"⟩, []⟩) :=
  rfl

theorem seven_requested : requestFor strictCrates ⟨"http://localhost/"⟩ "t" .default sevenReport =
    .ok sevenRequest := by
  decide +kernel

theorem seven_calls : uploadCalls (localSite.multipart sevenRequest) < 128 := by decide +kernel

theorem seven_acceptable : Acceptable localSite.crates localSite.app ⟨"token", "app", "app/", "hash"⟩
    (admits localSite.env localSite.app ⟨"token", "app", "app/", "hash"⟩ emptyState)
    sevenReport where
  source := by
    refine ⟨⟨"app", (sampleMetadata []).source.installId.toString⟩, ?_, ?_, ?_⟩
    all_goals decide +kernel
  metadata := by decide +kernel
  schema := nofun
  dump := by decide
  attachments := nofun

theorem created_iff_seven : ∃ t, localSite.peer sevenRequest emptyState = some (.ok ⟨201, none⟩, t) := by
  have hready : Ready localSite.env localSite.app.storage
      (emptyState.history.length + uploadCalls (localSite.multipart sevenRequest)) emptyState := by
    refine ⟨nofun, fun n _ hn => ⟨_, if_pos ?_, rfl⟩⟩
    have hcalls := seven_calls
    have hlength : emptyState.history.length = 0 := rfl
    omega
  obtain ⟨status, t, hpeer, hiff, -⟩ := created_iff localSite_linked sevenReport_keeps seven_compressed
    sevenReport_presentable seven_requested hready rfl
  obtain rfl := hiff.mpr ⟨by decide +kernel, _, rfl, seven_acceptable⟩
  exact ⟨t, hpeer⟩

end Detritus.Delivery
