import Detritus.Delivery.Acceptance

/-! What the server holds of a report that it has accepted.

The index names the metadata and, for each part, a blob and an encoding. Decoded by that
encoding the blobs are what was read from the entry: the dump, and the attachments in their
order. This presumes that no blob of another content stands under one of the digests. -/
namespace Detritus.Delivery
open Files Protocol Process Client
open Server hiding Crates Env Response World attempt call execAs file

/-! ### Shelves without collisions -/

/-- Under the digests of these parts there is nothing but them. -/
structure Distinct (C : Server.Crates) (b : Sha256 → Option Bytes) (parts : List Bytes) : Prop where
  stored : ∀ p ∈ parts, ∀ x, b (C.sha256 p) = some x → x = p
  sent : ∀ p ∈ parts, ∀ q ∈ parts, C.sha256 p = C.sha256 q → p = q

section Distinct
variable {C : Server.Crates} {b : Sha256 → Option Bytes} {parts shelf : List Bytes} {p : Bytes}

theorem Distinct.shelve (h : Distinct C b parts) (hp : p ∈ parts) : Distinct C (Server.shelve C b p) parts := by
  refine ⟨fun q hq x hx => ?_, h.sent⟩
  unfold Server.shelve at hx
  by_cases hsame : C.sha256 q = C.sha256 p
  · obtain rfl := h.sent q hq p hp hsame
    rw [Function.update_self] at hx
    cases hb : b (C.sha256 q) with
    | none =>
      rw [hb] at hx
      exact (Option.some.inj hx).symm
    | some y =>
      rw [hb] at hx
      exact h.stored q hq x (hb.trans hx)
  · rw [Function.update_of_ne hsame] at hx
    exact h.stored q hq x hx

theorem Distinct.foldl (h : Distinct C b parts) (hshelf : shelf ⊆ parts) :
    Distinct C (shelf.foldl (Server.shelve C) b) parts := by
  induction shelf generalizing b with
  | nil => exact h
  | cons q rest ih => exact ih (h.shelve (hshelf (.head _))) fun p hp => hshelf (.tail _ hp)

/-- A part that is shelved is found by its digest. -/
theorem Distinct.shelved (h : Distinct C b parts) (hshelf : shelf ⊆ parts) (hp : p ∈ shelf) :
    shelf.foldl (Server.shelve C) b (C.sha256 p) = some p := by
  obtain ⟨x, hx⟩ := Option.isSome_iff_exists.mp (foldl_shelve_isSome b shelf hp)
  rw [hx, (h.foldl hshelf).stored p (hshelf hp) x hx]

end Distinct

/-! ### Pointers -/

section Pointers
variable {mime : Mime} {C : Server.Crates} {P : StoragePaths}

/-- A pointer to an attachment, whatever blobs were there before. -/
def PointsAt (C : Server.Crates) (P : StoragePaths) (f : Field) (p : AttachmentPointer) : Prop :=
  ∃ known, p = attachmentPointer (attachKey f) f (blobPointer C P known f)

theorem pointers_attachments {fs : List Field} (hfs : ∀ f ∈ fs, f.isDump = false) (known : Sha256 → Bool)
    (dump : Option BlobPointer) (as : List AttachmentPointer) :
    ∃ ps, pointers C P known fs (dump, as) = (dump, as ++ ps) ∧ List.Forall₂ (PointsAt C P) fs ps := by
  induction fs generalizing known as with
  | nil => exact ⟨[], by rw [List.append_nil]; rfl, .nil⟩
  | cons f rest ih =>
    obtain ⟨ps, hps, hpoints⟩ := ih (fun f hf => hfs f (.tail _ hf)) (fun s => known s || s = C.sha256 f.bytes)
      (as ++ [attachmentPointer (attachKey f) f (blobPointer C P known f)])
    refine ⟨_ :: ps, ?_, .cons ⟨known, rfl⟩ hpoints⟩
    rw [pointers, pointTo, if_neg (by rw [hfs f (.head _)]; exact Bool.false_ne_true)]
    dsimp only
    rw [hps, List.append_assoc, List.singleton_append]

variable {json : SerdeJson} {sent : CrashEnvelope} {encodings : EnvelopeEncodings} {first second : Field}
  {rest : List Field}

theorem Arrived.pointers (h : Arrived mime json sent encodings first second rest) (known : Sha256 → Bool) :
    ∃ ps, Server.pointers C P known (second :: rest) (none, []) = (some (blobPointer C P known second), ps) ∧
      List.Forall₂ (PointsAt C P) rest ps := by
  have hdump : second.isDump = true := decide_eq_true h.dump.name
  have hrest : ∀ f ∈ rest, f.isDump = false := by
    rw [forall_fields_iff (Q := fun _ => True) h.attachments]
    · exact fun _ _ => trivial
    · intro a label f hf
      rw [(isAttachment_of_read hf).2]
      simp
  obtain ⟨ps, hps, hpoints⟩ := pointers_attachments (C := C) (P := P) hrest
    (fun s => known s || s = C.sha256 second.bytes) (some (blobPointer C P known second)) []
  refine ⟨ps, ?_, hpoints⟩
  rw [Server.pointers, pointTo, if_pos hdump, hps, List.nil_append]

theorem attachKey_of_read {a : CrashAttachment} {label : Option String} {f : Field}
    (h : Sheet.Read mime (attachmentSheet a label) f) : attachKey f = a.key := by
  have hname : f.name = some ("attach:" ++ a.key) := h.name
  rw [attachKey, hname, Option.getD_some, String.toList_append, show 7 = "attach:".toList.length by decide,
    List.drop_left, String.ofList_toList]

end Pointers

/-! ### The report in the store -/

section Stored
variable {C : Server.Crates} {P : StoragePaths} {d : Disk} {decompress : Bytes → Bytes}

/-- The blob of this name, decoded by this label, is these bytes. -/
def Stores (C : Server.Crates) (P : StoragePaths) (d : Disk) (decompress : Bytes → Bytes) (sha256 : String)
    (label : Option String) (bytes : Bytes) : Prop :=
  ∃ stored, sha256 = (C.sha256 stored).hex ∧ blobs P d (C.sha256 stored) = some stored ∧
    decode decompress ⟨label⟩ stored = bytes

/-- The index describes the report, by blobs that the store has. -/
structure Describes (C : Server.Crates) (P : StoragePaths) (d : Disk) (decompress : Bytes → Bytes)
    (e : CrashEnvelope) (index : CrashIndex) : Prop where
  metadata : index.metadata = e.metadata
  dump : Stores C P d decompress index.dump.sha256 index.dump.contentEncoding e.dump
  count : index.attachments.length = e.attachments.length
  attachments : ∀ (n : Nat) a p, e.attachments[n]? = some a → index.attachments[n]? = some p →
    p.key = a.key ∧ p.contentType = a.contentType ∧ Stores C P d decompress p.sha256 p.contentEncoding a.bytes

variable {mime : Mime} {e sent : CrashEnvelope} {encodings : EnvelopeEncodings} {boundary : String}
  {first second : Field} {rest : List Field} {compress : Compress} {level : Int32}

theorem map_bytes_of_read {as : List (CrashAttachment × Nat)} {fs : List Field}
    (h : List.Forall₂ (fun x : CrashAttachment × Nat =>
      Sheet.Read mime (attachmentSheet x.1 (labelAt encodings x.2))) as fs) :
    fs.map Field.bytes = (as.map Prod.fst).map CrashAttachment.bytes := by
  induction h with
  | nil => rfl
  | cons hx _ ih =>
    rw [List.map_cons, List.map_cons, List.map_cons, ih]
    exact congrArg (· :: _) hx.bytes

/-- The parts that are shelved are those that were sent. -/
theorem Arrived.bytes {json : SerdeJson} (h : Arrived mime json sent encodings first second rest) :
    (second :: rest).map Field.bytes = sent.dump :: sent.attachments.map CrashAttachment.bytes := by
  rw [List.map_cons, map_bytes_of_read h.attachments, List.zipIdx_map_fst]
  exact congrArg (· :: _) h.dump.bytes

theorem tail_bytes {json : SerdeJson} {m : Multipart}
    (h : List.Forall₂ (Sheet.Read mime) (sent.sheets json encodings) m.fields) :
    m.fields.tail.map Field.bytes = sent.dump :: sent.attachments.map CrashAttachment.bytes := by
  obtain ⟨first, second, rest, hm, harrived⟩ := arrived_of_read h
  rw [hm, List.tail_cons, harrived.bytes]

/-- **A report that has been stored is described by its index.** -/
theorem describes_of_stored {app : AppState} {env : Server.Env} {m : Multipart} {index : CrashIndex}
    {s t : ServerState Unit} {parts : List Bytes} (hstored : ReportStored C env app m index s t)
    (hread : C.json.metadata (C.json.write sent.metadata.toJson) = .ok sent.metadata)
    (hfields : List.Forall₂ (Sheet.Read mime) (sent.sheets C.json encodings) m.fields)
    (hframed : sent.Presentable mime boundary)
    (hmetadata : sent.metadata = e.metadata) (htruthful : Truthful compress level e sent encodings)
    (hdecompress : ∀ b c, compress level b = .ok c → decompress c = b)
    (hdistinct : Distinct C (blobs app.storage s.state.disk) parts)
    (hparts : sent.dump :: sent.attachments.map CrashAttachment.bytes ⊆ parts) :
    Describes C app.storage t.state.disk decompress e index := by
  obtain ⟨first, second, rest, hm, h⟩ := arrived_of_read hfields
  have htail : m.fields.tail = second :: rest := by rw [hm]; rfl
  have hpointers := hstored.pointers
  obtain ⟨ps, hps, hpoints⟩ := h.pointers (C := C) (P := app.storage) (knows app.storage s.state.disk)
  rw [htail, hps] at hpointers
  obtain ⟨hdump, rfl⟩ := Prod.mk.inj hpointers
  have hdump := Option.some.inj hdump
  have hblobs := hstored.blobs
  rw [tail_bytes hfields] at hblobs
  -- the blob of a part that was sent is that part
  have hblob : ∀ f : Field, f.bytes ∈ sent.dump :: sent.attachments.map CrashAttachment.bytes →
      blobs app.storage t.state.disk (C.sha256 f.bytes) = some f.bytes := by
    intro f hf
    rw [hblobs]
    exact hdistinct.shelved hparts hf
  have hdecodes := htruthful.decodes hdecompress
  refine ⟨?_, ?_, ?_, fun n a p ha hp => ?_⟩
  · obtain ⟨f, hf, -, -, hjson⟩ := readFirst_ok_iff.mp hstored.first
    obtain ⟨rfl, -⟩ := List.cons.inj (hm.symm.trans hf)
    have hbytes : first.bytes = C.json.write sent.metadata.toJson := h.metadata.bytes
    rw [hbytes, hread] at hjson
    rw [← Except.ok.inj hjson, hmetadata]
  · have hbytes : second.bytes = sent.dump := h.dump.bytes
    have hlabel : second.contentEncoding = encodings.dump.contentEncoding := h.dump.contentEncoding
    rw [← hdump]
    refine ⟨second.bytes, rfl, hblob second (by rw [hbytes]; exact .head _), ?_⟩
    show decode decompress ⟨second.contentEncoding⟩ second.bytes = e.dump
    rw [hbytes, hlabel]
    exact hdecodes.dump
  · rw [← hpoints.length_eq, ← h.attachments.length_eq, List.length_zipIdx, htruthful.length]
  · obtain ⟨hnp, hp'⟩ := List.getElem?_eq_some_iff.mp hp
    have hnf : n < rest.length := by rw [hpoints.length_eq]; exact hnp
    have hnz : n < sent.attachments.zipIdx.length := by rw [h.attachments.length_eq]; exact hnf
    have hnb : n < sent.attachments.length := by rwa [List.length_zipIdx] at hnz
    have hnq : n < encodings.attachments.length := by rwa [htruthful.labels, ← htruthful.length]
    obtain ⟨known, hpoint⟩ := hpoints.get hnf hnp
    have harrives := h.attachments.get hnz hnf
    simp only [List.get_eq_getElem] at hpoint harrives
    rw [hp'] at hpoint
    rw [List.getElem_zipIdx, Nat.zero_add] at harrives
    have hb : sent.attachments[n]? = some sent.attachments[n] := List.getElem?_eq_getElem hnb
    have hq : encodings.attachments[n]? = some encodings.attachments[n] := List.getElem?_eq_getElem hnq
    have hlabel : rest[n].contentEncoding = encodings.attachments[n].contentEncoding := by
      rw [harrives.contentEncoding]
      show labelAt encodings n = _
      rw [labelAt, hq]
      rfl
    have hbytes : rest[n].bytes = sent.attachments[n].bytes := harrives.bytes
    have hkey := congrArg (·[n]?) htruthful.keys
    have htype := congrArg (·[n]?) htruthful.contentTypes
    simp only [List.getElem?_map, ha, hb, Option.map_some, Option.some.injEq] at hkey htype
    subst hpoint
    refine ⟨?_, ?_, rest[n].bytes, rfl, hblob _ ?_, ?_⟩
    · exact (attachKey_of_read harrives).trans hkey
    · show rest[n].contentType.getD "application/octet-stream" = a.contentType
      have hnormal : rest[n].contentType = mime.normal sent.attachments[n].contentType := harrives.contentType
      rw [hnormal, hframed.contentTypes _ (List.getElem_mem hnb), Option.getD_some, htype]
    · rw [hbytes]
      exact List.mem_cons_of_mem _ (List.mem_map_of_mem (List.getElem_mem hnb))
    · show decode decompress ⟨rest[n].contentEncoding⟩ rest[n].bytes = a.bytes
      rw [hlabel, hbytes]
      exact hdecodes.attachments n a _ _ ha hb hq

end Stored

/-! ### What a pass leaves -/

section Received
variable {C : Server.Crates} {env : Server.Env} {P : StoragePaths} {decompress : Bytes → Bytes}
  {es : List CrashEnvelope} {indexes : List CrashIndex} {s t u : ServerState Unit} {e : CrashEnvelope}
  {index : CrashIndex}

/-- The files, once these indexes have been written in their order. -/
def indexed (json : SerdeJson) (P : StoragePaths) (content : Path → Option Bytes)
    (indexes : List CrashIndex) : Path → Option Bytes :=
  indexes.foldl (fun content index => Function.update content (index.path P) (some (json.writePretty index.toJson)))
    content

theorem indexed_one (json : SerdeJson) (P : StoragePaths) (content : Path → Option Bytes)
    (index : CrashIndex) : indexed json P content [index] =
      Function.update content (index.path P) (some (json.writePretty index.toJson)) :=
  rfl

theorem indexed_congr {content content' : Path → Option Bytes} {q : Path} (h : content q = content' q) :
    indexed C.json P content indexes q = indexed C.json P content' indexes q := by
  induction indexes generalizing content content' with
  | nil => exact h
  | cons index rest ih =>
    refine ih (?_ : Function.update content _ _ q = Function.update content' _ _ q)
    by_cases hq : q = index.path P
    · rw [hq, Function.update_self, Function.update_self]
    · rw [Function.update_of_ne hq, Function.update_of_ne hq, h]

/-- The store has received these reports: an index of each has been written, in their order, the
blobs that it names are there, and no blob has changed. -/
structure Received (C : Server.Crates) (env : Server.Env) (P : StoragePaths) (decompress : Bytes → Bytes)
    (es : List CrashEnvelope) (indexes : List CrashIndex) (s t : ServerState Unit) : Prop where
  rest : AtRest env P t
  kept : ∀ digest bytes, blobs P s.state.disk digest = some bytes →
    blobs P t.state.disk digest = some bytes
  described : List.Forall₂ (Describes C P t.state.disk decompress) es indexes
  written : ∀ q, P.bySource <+: q →
    t.state.disk.content q = indexed C.json P s.state.disk.content indexes q

theorem Received.nothing {parts : List Bytes} (h : Stocked C env P parts s t) :
    Received C env P decompress [] [] s t where
  rest := h.rest
  kept digest bytes hb := by
    rw [h.blobs]
    exact foldl_shelve_some parts hb
  described := .nil
  written := h.indexes

theorem Stores.later {sha256 : String} {label : Option String} {bytes : Bytes} {d d' : Disk}
    (hkept : ∀ digest bytes, blobs P d digest = some bytes → blobs P d' digest = some bytes)
    (h : Stores C P d decompress sha256 label bytes) : Stores C P d' decompress sha256 label bytes := by
  obtain ⟨stored, hname, hblob, hdecode⟩ := h
  exact ⟨stored, hname, hkept _ _ hblob, hdecode⟩

theorem Describes.later {d d' : Disk}
    (hkept : ∀ digest bytes, blobs P d digest = some bytes → blobs P d' digest = some bytes)
    (h : Describes C P d decompress e index) : Describes C P d' decompress e index where
  metadata := h.metadata
  dump := h.dump.later hkept
  count := h.count
  attachments n a p ha hp := by
    obtain ⟨hkey, htype, hstores⟩ := h.attachments n a p ha hp
    exact ⟨hkey, htype, hstores.later hkept⟩

theorem Received.cons (h : Received C env P decompress [e] [index] s u)
    (h' : Received C env P decompress es indexes u t) :
    Received C env P decompress (e :: es) (index :: indexes) s t where
  rest := h'.rest
  kept digest bytes hb := h'.kept digest bytes (h.kept digest bytes hb)
  described := by
    obtain ⟨hdescribes, -⟩ := List.forall₂_cons.mp h.described
    exact .cons (hdescribes.later h'.kept) h'.described
  written q hq := by
    rw [h'.written q hq, indexed_congr (h.written q hq)]
    rfl

end Received

/-! ### Delivery -/

section Delivery
variable {κ : Type} {site : Site κ} {mime : Mime} {s t : ServerState Unit} {C : Crates}
  {config : ShipConfig} {e : CrashEnvelope} {endpoint : Url} {token : String}
  {request : HttpRequest} {decompress : Bytes → Bytes} {parts : List Bytes}

/-- What is sent of a report, beside its metadata. -/
def sentParts (C : Crates) (config : ShipConfig) (e : CrashEnvelope) : List Bytes :=
  match compressEnvelope C.compress config e with
  | .ok (sent, _) => sent.dump :: sent.attachments.map CrashAttachment.bytes
  | .error _ => []

/-- A report that is read as it was written: its metadata survives JSON, its parts survive the
framing, and the keys of its attachments tell them apart. -/
structure Sound (C : Crates) (mime : Mime) (config : ShipConfig) (e : CrashEnvelope) : Prop where
  keeps : C.json.Keeps e.metadata
  keys : e.attachments.Pairwise fun a b => config.compresses b = true → a.key ≠ b.key
  framed : ∀ sent encodings, compressEnvelope C.compress config e = .ok (sent, encodings) →
    sent.Presentable mime DEFAULT_BOUNDARY

/-- What the endpoint refuses is not acknowledged. -/
theorem outcome_error (error : CrashError) :
    outcome (.ok ⟨statusOf (.crash (.error error)), none⟩) = .error (.status error.statusCode) := by
  have hsuccess : (⟨statusOf (.crash (.error error)), none⟩ : Response).isSuccess = false := by
    rw [Response.isSuccess, Bool.and_eq_false_imp]
    intro _
    exact decide_eq_false (Nat.not_lt.mpr (Nat.le_trans (by decide) (statusCode_error error)))
  rw [outcome, hsuccess]
  rfl

/-- What the endpoint makes of a request, and what it leaves. -/
theorem Site.peer_outcome {answer : Except HttpError Response}
    (hauth : request.authorization = "Bearer " ++ token)
    (hrest : AtRest site.env site.app.storage s) (h : site.peer request s = some (answer, t)) :
    match outcome answer with
    | .error _ => ∃ parts, Stocked site.crates site.env site.app.storage parts s t
    | .ok _ => ∃ m index, openMultipart site.crates ⟨some (some request.contentType)⟩
        ⟨site.pieces request.body, false⟩ = .ok m ∧
      ReportStored site.crates site.env site.app m index s t := by
  by_cases hurl : request.url = site.url
  · by_cases hbody : request.body.length ≤ BODY_LIMIT
    · cases hcontext : site.authenticate token with
      | none =>
        rw [site.peer_unauthorized hurl hbody hauth hcontext] at h
        obtain ⟨rfl, rfl⟩ := result_eq h
        exact ⟨[], hrest.call _ rfl rfl⟩
      | some context =>
        rw [site.peer_eq hurl hbody hauth hcontext] at h
        obtain ⟨⟨result, u⟩, hrun, hx⟩ := Option.map_eq_some_iff.mp h
        obtain ⟨rfl, rfl⟩ := Prod.mk.inj hx
        have houtcome := yields_alone (crashesInner_stores context _ _ hrest) hrun
        cases result with
        | error error =>
          obtain ⟨parts, -, hstocked⟩ := houtcome
          rw [outcome_error]
          exact ⟨parts ++ [], hstocked.trans (hstocked.rest.call _ rfl rfl)⟩
        | ok x =>
          obtain ⟨m, index, hopen, rfl, hstored⟩ := houtcome
          have hcall : Stocked site.crates site.env site.app.storage [] u
              (noted (.ok index.response, u)) := hstored.rest.call _ rfl rfl
          exact ⟨m, index, hopen, hstored.first, hstored.valid, hstored.pointers, hcall.rest, hstored.blobs,
            hstored.written, hstored.others⟩
    · rw [site.peer_tooLarge hurl (Nat.lt_of_not_le hbody)] at h
      obtain ⟨rfl, rfl⟩ := result_eq h
      exact ⟨[], .refl _ hrest⟩
  · rw [peer, if_pos hurl] at h
    obtain ⟨rfl, rfl⟩ := result_eq h
    exact ⟨[], .refl _ hrest⟩

/-- **What is acknowledged is kept**: once a report is created, the store has received it. -/
theorem peer_receives (hlink : Linked C site mime) (hsound : Sound C mime config e)
    (hdecompress : ∀ b c, C.compress config.dumpCompressionLevel b = .ok c → decompress c = b)
    (hrequest : requestFor C endpoint token config e = .ok request)
    (hrest : AtRest site.env site.app.storage s)
    (hdistinct : Distinct site.crates (blobs site.app.storage s.state.disk) parts)
    (hparts : sentParts C config e ⊆ parts) {answer : Except HttpError Response}
    (h : site.peer request s = some (answer, t)) :
    match outcome answer with
    | .error _ => Received site.crates site.env site.app.storage decompress [] [] s t
    | .ok _ => (∃ index,
        Received site.crates site.env site.app.storage decompress [e] [index] s t) ∧
          Distinct site.crates (blobs site.app.storage t.state.disk) parts := by
  obtain ⟨sent, encodings, hcompress, heq⟩ := requestFor_ok hrequest
  have hauth : request.authorization = "Bearer " ++ token := by rw [heq]
  have houtcome := site.peer_outcome hauth hrest h
  cases hanswer : outcome answer with
  | error error =>
    rw [hanswer] at houtcome
    obtain ⟨stocked, hstocked⟩ := houtcome
    exact .nothing hstocked
  | ok _ =>
    rw [hanswer] at houtcome
    obtain ⟨m, index, hopen, hstored⟩ := houtcome
    have htype : request.contentType = "multipart/form-data; boundary=" ++ DEFAULT_BOUNDARY := by rw [heq]
    rw [htype, hlink.opens] at hopen
    obtain rfl : site.multipart request = m := Except.ok.inj hopen
    have hframed := hsound.framed sent encodings hcompress
    obtain ⟨-, hfields⟩ := hlink.fields hsound.keeps hcompress hframed (congrArg HttpRequest.body heq)
    have hread : site.crates.json.metadata (site.crates.json.write sent.metadata.toJson) =
        .ok sent.metadata := by
      rw [hlink.json, compressEnvelope_metadata hcompress]
      exact hsound.keeps.read
    rw [sentParts, hcompress] at hparts
    have hdescribes := describes_of_stored hstored hread hfields hframed (compressEnvelope_metadata hcompress)
      (compressEnvelope_truthful hsound.keys hcompress) hdecompress hdistinct hparts
    have hbytes : (site.multipart request).fields.tail.map Field.bytes =
        sent.dump :: sent.attachments.map CrashAttachment.bytes := tail_bytes hfields
    refine ⟨⟨index, hstored.rest, fun digest bytes hb => ?_, .cons hdescribes .nil, fun q hq => ?_⟩, ?_⟩
    · rw [hstored.blobs]
      exact foldl_shelve_some _ hb
    · rw [indexed_one]
      by_cases hpath : q = index.path site.app.storage
      · rw [hpath, Function.update_self, hstored.written]
      · rw [Function.update_of_ne hpath, hstored.others q hq hpath]
    · rw [hstored.blobs, hbytes]
      exact hdistinct.foldl hparts

/-- How many calls a request takes at most. -/
def Site.calls (site : Site κ) : Except ShipError HttpRequest → Nat
  | .ok request => uploadCalls (site.multipart request) + 1
  | .error _ => 0

/-- The server does not run out of identifiers within that many calls. -/
def Supplied (site : Site κ) (calls : Nat) (s : ServerState Unit) : Prop :=
  ∀ n < s.history.length + calls, ∃ u, site.env.uuid n = some u

theorem ready_of_supplied (hrest : AtRest site.env site.app.storage s)
    (hsupplied : Supplied site (site.calls (.ok request)) s) :
    Ready site.env site.app.storage
      (s.history.length + uploadCalls (site.multipart request)) s := by
  refine ⟨hrest.tidy.numbered, fun n hn hN => ?_⟩
  obtain ⟨u, hu⟩ := hsupplied n (Nat.lt_succ_of_lt hN)
  exact ⟨u, hu, hrest.temps n u hn hu⟩

/-- **Every request is answered.** -/
theorem peer_answers (hlink : Linked C site mime) (hrequest : requestFor C endpoint token config e = .ok request)
    (hrest : AtRest site.env site.app.storage s)
    (hsupplied : Supplied site (site.calls (.ok request)) s) :
    ∃ answer t, site.peer request s = some (answer, t) ∧
      (outcome answer = .ok () → t.history.length ≤ s.history.length + site.calls (.ok request)) := by
  obtain ⟨sent, encodings, -, heq⟩ := requestFor_ok hrequest
  have hauth : request.authorization = "Bearer " ++ token := by rw [heq]
  by_cases hurl : request.url = site.url
  · by_cases hbody : request.body.length ≤ BODY_LIMIT
    · cases hcontext : site.authenticate token with
      | none => exact ⟨_, _, site.peer_unauthorized hurl hbody hauth hcontext, fun hok => (by cases hok)⟩
      | some context =>
        have htype : request.contentType = "multipart/form-data; boundary=" ++ DEFAULT_BOUNDARY := by rw [heq]
        have hopen := hlink.opens request
        rw [← htype] at hopen
        obtain ⟨result, t, hrun, -, hcalls, -⟩ :=
          crashesInner_alone (i := ()) context hopen s (ready_of_supplied hrest hsupplied) (Nat.le_refl _)
        have hpeer := site.peer_eq (s := s) hurl hbody hauth hcontext
        rw [hrun] at hpeer
        refine ⟨_, _, hpeer, fun hok => ?_⟩
        cases result with
        | error error =>
          rw [outcome_error] at hok
          cases hok
        | ok x => exact Nat.succ_le_succ (hcalls ⟨x, rfl⟩).2
    · exact ⟨_, s, site.peer_tooLarge hurl (Nat.lt_of_not_le hbody), fun hok => (by cases hok)⟩
  · refine ⟨.error ⟨"connection refused"⟩, s, ?_, fun hok => (by cases hok)⟩
    rw [Site.peer, if_pos hurl]

/-- **A conversation**: it goes on up to the first request that is not acknowledged, and the
server has received what was acknowledged. -/
theorem pass_receives (hlink : Linked C site mime)
    (hdecompress : ∀ b c, C.compress config.dumpCompressionLevel b = .ok c → decompress c = b)
    {reads : List (Except ShipError CrashEnvelope)} (hsound : ∀ e, .ok e ∈ reads → Sound C mime config e)
    (hparts : ∀ e, .ok e ∈ reads → sentParts C config e ⊆ parts)
    (hrest : AtRest site.env site.app.storage s)
    (hdistinct : Distinct site.crates (blobs site.app.storage s.state.disk) parts)
    (hsupplied : Supplied site ((reads.map (· >>= requestFor C endpoint token config)).map site.calls).sum s) :
    ∃ error t es indexes, site.peer.pass (reads.map (· >>= requestFor C endpoint token config)) s =
        some ((es.length, error), t) ∧ reads.take es.length = es.map .ok ∧
      Received site.crates site.env site.app.storage decompress es indexes s t := by
  induction reads generalizing s with
  | nil => exact ⟨none, s, [], [], rfl, rfl, .nothing (.refl _ hrest)⟩
  | cons read rest ih =>
    have hstop : ∀ error, (read >>= requestFor C endpoint token config) = .error error →
        ∃ error t es indexes, site.peer.pass ((read :: rest).map (· >>= requestFor C endpoint token config)) s =
            some ((List.length es, error), t) ∧ (read :: rest).take es.length = es.map .ok ∧
          Received site.crates site.env site.app.storage decompress es indexes s t := by
      intro error herror
      refine ⟨some error, s, [], [], ?_, rfl, .nothing (.refl _ hrest)⟩
      rw [List.map_cons, herror]
      rfl
    cases hread : read with
    | error error => exact hread ▸ hstop error (by rw [hread]; rfl)
    | ok e =>
      subst hread
      cases hrequest : requestFor C endpoint token config e with
      | error error => exact hstop error hrequest
      | ok request =>
        have hrequest' : ((.ok e : Except ShipError CrashEnvelope) >>=
          requestFor C endpoint token config) = .ok request := hrequest
        rw [List.map_cons, List.map_cons, List.sum_cons, hrequest'] at hsupplied
        obtain ⟨answer, u, hpeer, hcalls⟩ := peer_answers hlink hrequest hrest
          fun n hn => hsupplied n (Nat.lt_of_lt_of_le hn (by omega))
        have hreceives := peer_receives hlink (hsound e (.head _)) hdecompress hrequest hrest hdistinct
          (hparts e (.head _)) hpeer
        have hpass : site.peer.pass ((.ok e :: rest).map (· >>= requestFor C endpoint token config)) s =
            match outcome answer with
            | .error e => some ((0, some e), u)
            | .ok _ => (site.peer.pass (rest.map (· >>= requestFor C endpoint token config)) u).map
                fun x => ((x.1.1 + 1, x.1.2), x.2) := by
          rw [List.map_cons, hrequest', Peer.pass, hpeer]
          rfl
        rw [hpass]
        cases houtcome : outcome answer with
        | error error =>
          rw [houtcome] at hreceives
          exact ⟨some error, u, [], [], rfl, rfl, hreceives⟩
        | ok _ =>
          rw [houtcome] at hreceives
          obtain ⟨⟨index, hreceived⟩, hdistinct'⟩ := hreceives
          obtain ⟨error, t, es, indexes, hpass', htake, hreceived'⟩ := ih
            (fun e he => hsound e (.tail _ he)) (fun e he => hparts e (.tail _ he)) hreceived.rest hdistinct'
            fun n hn => hsupplied n (by have := hcalls houtcome; omega)
          refine ⟨error, t, e :: es, index :: indexes, ?_, ?_, hreceived.cons hreceived'⟩
          · dsimp only
            rw [hpass']
            rfl
          · rw [List.length_cons, List.take_succ_cons, List.map_cons, htake]

end Delivery

/-! ### Shipping to the server -/

section Ship
variable {κ ι : Type} {site : Site κ} {mime : Mime} {s : ServerState Unit} {C : Crates}
  {config : ShipConfig} {endpoint : Url} {token : String} {decompress : Bytes → Bytes}
  {parts : List Bytes} {env : Env} {i : ι} {w : ClientState ι} {spool : Path} {names : List String}

/-- A run that can go its way: the disk does not fail, the spool and the server are in order. -/
structure Proceeds (C : Crates) (site : Site κ) (spool : Path) (endpoint : Url) (token : String)
    (config : ShipConfig) (env : Env) (w : ClientState ι) (s : ServerState Unit)
    (names : List String) : Prop where
  faultless : ∀ n, env.faults n = none
  workable : Workable spool w
  sorted : names.Pairwise (· < ·)
  pending : ∀ x, x ∈ names ↔ ((view spool w.state.disk).pending x).isSome = true
  locals : ∀ x ∈ names, Local C w.state.disk.content (pendingAt spool x)
  rest : AtRest site.env site.app.storage s
  supplied : Supplied site (names.map fun x => site.calls
    (requestAt C w.state.disk.content endpoint token config (pendingAt spool x))).sum s

/-- **What has left the spool is with the server.** A run ends, and the entries that it has moved
from the pending ones to the sent ones are those whose reports the server has received: the
index of each was written, with the metadata of the entry, and the blobs that it names are
decoded to the dump and the attachments of the entry. -/
theorem shipPending_delivers (hlink : Linked C site mime)
    (h : Proceeds C site spool endpoint token config env w s names)
    (hdecompress : ∀ b c, C.compress config.dumpCompressionLevel b = .ok c → decompress c = b)
    (hsound : ∀ x ∈ names, ∀ e, envelopeAt C w.state.disk.content (pendingAt spool x) = .ok e →
      Sound C mime config e ∧ sentParts C config e ⊆ parts)
    (hdistinct : Distinct site.crates (blobs site.app.storage s.state.disk) parts) :
    ∃ (error : Option ShipError) (w' : ClientState ι) (t : ServerState Unit) (k : Nat)
        (es : List CrashEnvelope) (indexes : List CrashIndex),
      (shipPending C spool endpoint token config).run.run (site.peer.exec env i) (w, s) =
        some (error.elim (.ok es.length) .error, w', t) ∧ ReadsClock env i k w w' ∧
      view spool w'.state.disk = (names.take es.length).foldl SpoolView.move
        ((view spool w.state.disk).clean
          (env.clock k - retentionSpan DEFAULT_SENT_RETENTION_DAYS)) ∧
      (names.take es.length).map (fun x => envelopeAt C w.state.disk.content (pendingAt spool x)) =
        es.map .ok ∧
      Received site.crates site.env site.app.storage decompress es indexes s t := by
  let reads := names.map fun x => envelopeAt C w.state.disk.content (pendingAt spool x)
  have hreads : ∀ e, .ok e ∈ reads → Sound C mime config e ∧ sentParts C config e ⊆ parts := by
    intro e he
    obtain ⟨x, hx, hread⟩ := List.mem_map.mp he
    exact hsound x hx e hread
  have hrequests : reads.map (· >>= requestFor C endpoint token config) = names.map fun x =>
      requestAt C w.state.disk.content endpoint token config (pendingAt spool x) := List.map_map ..
  obtain ⟨error, t, es, indexes, hpass, htake, hreceived⟩ := pass_receives hlink hdecompress
    (fun e he => (hreads e he).1) (fun e he => (hreads e he).2) h.rest hdistinct
    (by rw [hrequests, List.map_map]; exact h.supplied)
  rw [hrequests] at hpass
  obtain ⟨r, u, hrun, ⟨hr, hpeer, k, hclock, hview⟩, -⟩ :=
    shipPending_leads (i := i) h.faultless h.sorted h.pending h.workable h.locals hpass
  refine ⟨error, u.1, t, k, es, indexes, ?_, hclock, hview, ?_, hreceived⟩
  · rw [hrun, hr, ← hpeer]
  · rw [List.map_take]
    exact htake

end Ship

theorem seven_sound : Sound strictCrates CrashEnvelope.fewTypes .default sevenReport where
  keeps := sevenReport_keeps
  keys := .nil
  framed sent encodings h := by
    obtain ⟨rfl, -⟩ := Prod.mk.inj (Except.ok.inj h)
    exact sevenReport_presentable

/-- The first entry is read, and the second has no dump. -/
theorem twoEntries_reads : (["a", "b"].map fun x => envelopeAt strictCrates
    twoEntries.state.disk.content (pendingAt ["spool"] x)) = [.ok sevenReport, .error (.io .notFound)] := by
  have hmetadata : ∀ x ∈ ["a", "b"],
      twoEntries.state.disk.content ((pendingAt ["spool"] x).join "metadata.json") = some [] := by
    decide +kernel
  have hdump : twoEntries.state.disk.content ((pendingAt ["spool"] "a").join "dump.bin") = some [7] := by
    decide +kernel
  have hnone : twoEntries.state.disk.content ((pendingAt ["spool"] "b").join "dump.bin") = none := by
    decide +kernel
  rw [List.map_cons, List.map_cons, List.map_nil]
  unfold envelopeAt readAt
  rw [hmetadata "a" (by decide), hmetadata "b" (by decide), hdump, hnone]
  rfl

theorem twoEntries_pass : (localSite.peer.pass (["a", "b"].map fun x => requestAt strictCrates
    twoEntries.state.disk.content ⟨"http://localhost/"⟩ "t" .default (pendingAt ["spool"] x))
      emptyState).map Prod.fst = some (1, some (.io .notFound)) := by
  decide +kernel

theorem emptyState_atRest : AtRest localSite.env localSite.app.storage emptyState :=
  ⟨⟨nofun, nofun⟩, fun _ => rfl, fun _ _ _ _ => rfl⟩

theorem emptyState_distinct : Distinct localSite.crates
    (blobs localSite.app.storage emptyState.state.disk) [[7]] := by
  refine ⟨nofun, fun p hp q hq _ => ?_⟩
  rw [List.mem_singleton.mp hp, List.mem_singleton.mp hq]

theorem twoEntries_calls : (["a", "b"].map fun x => localSite.calls (requestAt strictCrates
    twoEntries.state.disk.content ⟨"http://localhost/"⟩ "t" .default (pendingAt ["spool"] x))).sum < 256 := by
  decide +kernel

theorem twoEntries_proceeds : Proceeds strictCrates localSite ["spool"] ⟨"http://localhost/"⟩ "t" .default
    quietEnv twoEntries emptyState ["a", "b"] where
  faultless _ := rfl
  workable := twoEntries_workable
  sorted := by decide
  pending := twoEntries_pending
  locals x _ := twoEntries_local x
  rest := emptyState_atRest
  supplied n hn := by
    refine ⟨_, if_pos (Nat.lt_trans hn ?_)⟩
    rw [show emptyState.history.length = 0 from rfl, Nat.zero_add]
    exact twoEntries_calls

/-- The first entry is with the server, and the second ends the run. -/
theorem shipPending_delivers_two : ∃ w' t index,
    (shipPending strictCrates ["spool"] ⟨"http://localhost/"⟩ "t" .default).run.run
      (localSite.peer.exec quietEnv ()) (twoEntries, emptyState) = some (.error (.io .notFound), w', t) ∧
    (view ["spool"] w'.state.disk).pending "a" = none ∧
    Received localSite.crates localSite.env localSite.app.storage id [sevenReport] [index]
      emptyState t := by
  have hsound : ∀ x ∈ ["a", "b"], ∀ e, envelopeAt strictCrates twoEntries.state.disk.content
      (pendingAt ["spool"] x) = .ok e → Sound strictCrates CrashEnvelope.fewTypes .default e ∧
        sentParts strictCrates .default e ⊆ [[7]] := by
    intro x hx e he
    have hread : .ok e ∈ ["a", "b"].map fun x => envelopeAt strictCrates
      twoEntries.state.disk.content (pendingAt ["spool"] x) := List.mem_map.mpr ⟨x, hx, he⟩
    rw [twoEntries_reads] at hread
    rcases List.mem_pair.mp hread with heq | heq
    · obtain rfl := Except.ok.inj heq
      exact ⟨seven_sound, List.Subset.refl _⟩
    · cases heq
  obtain ⟨error, w', t, k, es, indexes, hrun, -, hview, hes, hreceived⟩ := shipPending_delivers (i := ()) localSite_linked
    twoEntries_proceeds (fun _ _ h => (Except.ok.inj h).symm) hsound emptyState_distinct
  obtain ⟨⟨answer, t'⟩, hpass, hanswer⟩ := Option.map_eq_some_iff.mp twoEntries_pass
  obtain rfl : answer = (1, some (.io .notFound)) := hanswer
  obtain ⟨r, u, hrun', ⟨hr, -, k', -, hview'⟩, -⟩ := shipPending_leads (i := ()) twoEntries_proceeds.faultless
    twoEntries_proceeds.sorted twoEntries_proceeds.pending twoEntries_proceeds.workable twoEntries_proceeds.locals hpass
  rw [hrun'] at hrun
  obtain ⟨hresult, rfl⟩ := result_eq hrun
  have hmoved : (view ["spool"] w'.state.disk).pending "a" = none := by
    rw [hview']
    rfl
  rw [List.map_take, twoEntries_reads] at hes
  cases es with
  | nil =>
    -- then the first entry would still be pending
    have hpending := (twoEntries_pending "a").mp (.head _)
    rw [hview] at hmoved
    rw [show (view ["spool"] twoEntries.state.disk).pending "a" = none from hmoved] at hpending
    cases hpending
  | cons e rest =>
    obtain ⟨he, hrest⟩ := List.cons.inj hes
    obtain rfl := Except.ok.inj he
    cases rest with
    | cons e' rest =>
      obtain ⟨he', -⟩ := List.cons.inj hrest
      cases he'
    | nil =>
      obtain ⟨index, indexes, -, hindexes, rfl⟩ := List.forall₂_cons_left_iff.mp hreceived.described
      obtain rfl := List.forall₂_nil_left_iff.mp hindexes
      refine ⟨w', t, index, ?_, hmoved, hreceived⟩
      rw [hrun', hr]
      rfl

end Detritus.Delivery
