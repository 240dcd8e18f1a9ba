import Detritus.Delivery.Captured

/-! Panics with long texts.

The metadata of a panic holds its text, and the endpoint has a limit of its own on the
metadata, which no setting of the receiver moves. A panic is captured whatever the length
of its text. Whether the receiver takes it depends on that length alone, once everything
else is in order; a text that is too long is refused, and since a run stops at what is
refused, it blocks the spool. -/
namespace Detritus.Delivery
open Files Protocol Process Client
open Server hiding Crates Env Response World attempt call execAs file

section Panics
variable {κ ι : Type} {site : Site κ} {mime : Mime} {C : Crates} {hook : PanicHookConfig}
  {info : PanicHookInfo} {config : ShipConfig} {env : Env} {i : ι} {w u v : ClientState ι}
  {uuid : Uuid} {m : CrashMetadata} {e : CrashEnvelope} {endpoint : Url} {token : String}
  {request : HttpRequest} {s : ServerState Unit} {context : TokenContext}

/-- The endpoint is there for a source: under a token that permits it, with room in the limiter
and without a schema for the project. -/
structure Open (site : Site κ) (context : TokenContext) (source : SourceId) (s : ServerState Unit) :
    Prop where
  project : validateComponent "project" source.project = .ok ()
  permits : context.permits ⟨source.project, source.installId.toString⟩ = true
  admits : admits site.env site.app context s ⟨source.project, source.installId.toString⟩ = true
  schema : site.app.schemaRegistry.schemas source.project .crashMetadata = none

/-- Metadata that is too long is refused, under whatever token. -/
theorem hopeless_of_long (hlink : Linked C site mime)
    (hlong : METADATA_MAX_BYTES < (C.json.write e.metadata.toJson).length) : Hopeless C site token config e := by
  intro sent encodings hcompress
  refine .inr fun context _ admitted ha => ?_
  have hsize := ha.metadata
  rw [compressEnvelope_metadata hcompress, hlink.json] at hsize
  omega

/-- **A panic with a long text blocks the spool.** Once it has been captured, the entry and those
behind it stay where they are however often they are shipped, and every run ends with an error. -/
theorem long_panic_blocks {rs : List (Except ShipError Nat)}
    (hlink : Linked C site mime) (hmime : mime.normal "application/json" = some "application/json")
    (hw : Prepared hook env w)
    (hcapture : ((Capture.crash info).write C hook).alone env i w = some (.ok (), u))
    (huuid : env.uuid w.history.length = some uuid)
    (hm : m = (Capture.crash info).storedMetadata C hook w.state.disk.content
      ((Capture.crash info).moment env w.history.length))
    (hsurvives : Survives C m) (hunmarked : Unmarked C config u.state.disk.content (hook.entry uuid))
    (hlong : METADATA_MAX_BYTES < (utf8 (panicText info)).length)
    (hrounds : Rounds C site hook.spoolDir endpoint token config u rs v) :
    ((view hook.spoolDir v.state.disk).pending uuid.toString).isSome = true ∧
      (∀ y entry, uuid.toString ≤ y → (view hook.spoolDir u.state.disk).pending y = some entry →
        (view hook.spoolDir v.state.disk).pending y = some entry) ∧ ∀ r ∈ rs, ∃ error, r = .error error := by
  obtain ⟨e, hread, rfl, hsound⟩ := captured_sound hmime hw hcapture huuid hm hsurvives hunmarked
  have hlocal := captured_local hw hcapture huuid hm hsurvives.spooled
  have hthere := (captured_pending hw hcapture huuid uuid.toString).mpr (.inl rfl)
  obtain ⟨first, hfirst⟩ := Option.isSome_iff_exists.mp hthere
  rw [entry_pending] at hread hlocal
  have htext : e.metadata.panicText = some (panicText info) := by rw [hm]; rfl
  have hhopeless : Hopeless C site token config e :=
    hopeless_of_long hlink (Nat.lt_of_lt_of_le hlong (hsurvives.length_le htext))
  obtain ⟨hstay, hfail⟩ := hrounds.blocked hfirst fun hproceeds hstill => shipPending_blocked hlink hproceeds
    ((hproceeds.pending _).mpr (Option.isSome_of_mem hstill)) ((envelopeAt_of_pending hlocal hfirst hstill).trans hread)
    hsound hhopeless
  exact ⟨Option.isSome_of_mem (hstay _ first (le_refl _) hfirst), hstay, hfail⟩

end Panics

/-! A short panic and a long one, before a receiver that reads every text of metadata as that of the panic. -/

def longPanic : PanicHookInfo := ⟨some (String.ofList (List.replicate 65537 'a')), none⟩

theorem longPanic_long : METADATA_MAX_BYTES < (utf8 (panicText longPanic)).length := by
  have htext : utf8 (panicText longPanic) = (List.replicate 65537 'a').flatMap String.utf8EncodeChar := by
    rw [utf8_eq]
    exact congrArg (List.flatMap _) String.toList_ofList
  have hlength : (String.utf8EncodeChar 'a').length = 1 := by decide
  rw [htext, List.length_flatMap, List.map_replicate, List.sum_replicate, hlength]
  decide

section Sample
variable (info : PanicHookInfo)

def panicMetadata : CrashMetadata :=
  (Capture.crash info).storedMetadata strictCrates (sampleConfig []) (fun _ => none) 0

def panicCrates : Crates :=
  {strictCrates with json := {strictCrates.json with metadata := fun _ => .ok (panicMetadata info)}}

def panicSite : Site Unit :=
  {localSite with crates := {localSite.crates with json := (panicCrates info).json}}

def panicReport : CrashEnvelope := ⟨panicMetadata info, [3], [⟨"sdk-config", "application/json",
  JsonText.print .pretty 0 (StoredUploadConfig.fromConfig (sampleConfig [])).toJson⟩]⟩

theorem panic_survives : Survives (panicCrates info) (panicMetadata info) where
  spooled := rfl
  sent := by
    have hline := JsonText.print_oneLine 0 (panicMetadata info).toJson
    exact ⟨rfl, fun h => absurd (hline _ h) (by decide), fun h => absurd (hline _ h) (by decide)⟩
  text _ h := panicText_infix h

theorem panicSite_linked : Linked (panicCrates info) (panicSite info) CrashEnvelope.fewTypes :=
  ⟨rfl, rfl, plainParser_labelling _⟩

variable {info}

theorem plainParser_chunks {mime : Mime} {boundary : String} {body : Body} {f : Field}
    (hf : f ∈ (plainParser mime boundary body).fields) : f.chunks.length = 1 := by
  unfold plainParser at hf
  split at hf
  · cases hf
  · obtain ⟨p, -, rfl⟩ := List.mem_map.mp hf
    rfl

/-- A report with one attachment takes few calls, however long it is. -/
theorem panicSite_calls {e : CrashEnvelope} (endpoint : Url) (token : String)
    (hsound : Sound (panicCrates info) CrashEnvelope.fewTypes .default e) (hone : e.attachments.length = 1) :
    (panicSite info).calls (requestFor (panicCrates info) endpoint token .default e) ≤ 40 := by
  cases hrequest : requestFor (panicCrates info) endpoint token .default e with
  | error error => exact Nat.zero_le _
  | ok request =>
    obtain ⟨sent, encodings, hcompress, heq⟩ := requestFor_ok hrequest
    obtain ⟨-, hfields⟩ := (panicSite_linked info).fields hsound.keeps hcompress
      (hsound.framed sent encodings hcompress) (congrArg HttpRequest.body heq)
    have hlength : ((panicSite info).multipart request).fields.length = 3 := by
      have hsheets := hfields.length_eq
      have hsent := (compressEnvelope_truthful hsound.keys hcompress).length
      simp only [CrashEnvelope.sheets, List.length_cons, List.length_map, List.length_zipIdx] at hsheets
      omega
    have hcalls : ((panicSite info).multipart request).fields.map partCalls = List.replicate 3 11 := by
      refine List.eq_replicate_iff.mpr ⟨by rw [List.length_map, hlength], fun n hn => ?_⟩
      obtain ⟨f, hf, rfl⟩ := List.mem_map.mp hn
      rw [partCalls, plainParser_chunks hf]
    rw [Site.calls, uploadCalls, hcalls]
    decide

/-- What is sent beside the metadata does not depend on the panic. -/
theorem panicReport_sent : sentParts (panicCrates info) .default (panicReport info) =
    [[3], JsonText.print .pretty 0 (StoredUploadConfig.fromConfig (sampleConfig [])).toJson] := rfl

theorem panicReport_unmarked : ∀ p ∈ sentParts (panicCrates info) .default (panicReport info),
    ¬ delimiter DEFAULT_BOUNDARY <:+: p := by
  rw [panicReport_sent]
  decide +kernel

section Captured
variable {u : ClientState Unit} (hcapture : ((Capture.crash info).write (panicCrates info)
  (sampleConfig [])).alone quietEnv () (sampleState .empty) = some (.ok (), u))
include hcapture

theorem panic_read : envelopeAt (panicCrates info) u.state.disk.content
    ((sampleConfig []).entry (Uuid.repeated 0)) = .ok (panicReport info) := by
  obtain ⟨dump, hdump, hcontent⟩ := captured_content empty_prepared hcapture empty_uuid
  obtain rfl : [3] = dump := Except.ok.inj hdump
  refine (envelopeAt_captured hcontent (m := panicMetadata info) rfl rfl).trans (congrArg Except.ok ?_)
  show (⟨panicMetadata info, [3], [⟨"sdk-config", "application/json", ((some "sdk-config.json").bind fun name =>
    u.state.disk.content (((sampleConfig []).entry (Uuid.repeated 0)).join name)).getD []⟩]⟩ : CrashEnvelope) = _
  rw [Option.bind_some, sdkConfig_there hcontent]
  rfl

theorem panic_unmarked : Unmarked (panicCrates info) .default u.state.disk.content
    ((sampleConfig []).entry (Uuid.repeated 0)) := by
  intro e he
  obtain rfl := Except.ok.inj ((panic_read hcapture).symm.trans he)
  exact panicReport_unmarked

theorem panic_sound : Sound (panicCrates info) CrashEnvelope.fewTypes .default (panicReport info) := by
  have hmime : CrashEnvelope.fewTypes.normal "application/json" = some "application/json" := rfl
  obtain ⟨e, hread, -, hsound⟩ := captured_sound hmime empty_prepared hcapture empty_uuid rfl (panic_survives info)
    (panic_unmarked hcapture)
  obtain rfl := Except.ok.inj ((panic_read hcapture).symm.trans hread)
  exact hsound

theorem panic_supplied : Supplied (panicSite info) ((panicSite info).calls
    (requestFor (panicCrates info) ⟨"http://localhost/"⟩ "t" .default (panicReport info))) emptyState := by
  intro n hn
  have hcalls := panicSite_calls ⟨"http://localhost/"⟩ "t" (panic_sound hcapture) rfl
  have hlength : emptyState.history.length = 0 := rfl
  exact ⟨_, if_pos (by omega)⟩

theorem panic_proceeds (hfree : u.state.holder (lockPath ["spool"]) = none) :
    Proceeds (panicCrates info) (panicSite info) ["spool"] ⟨"http://localhost/"⟩ "t" .default quietEnv u emptyState
      [(Uuid.repeated 0).toString] where
  faultless _ := rfl
  workable := captured_workable empty_prepared hcapture empty_uuid hfree ⟨fun _ => rfl, fun x hx => (by cases hx)⟩
  sorted := List.pairwise_singleton ..
  pending x := by
    have hnone : ((view ["spool"] (sampleState .empty).state.disk).pending x).isSome = true ↔ False :=
      ⟨fun h => (by cases h), False.elim⟩
    have hpending := captured_pending empty_prepared hcapture empty_uuid x
    rw [show (sampleConfig []).spoolDir = ["spool"] from rfl, hnone, or_false] at hpending
    exact List.mem_singleton.trans hpending.symm
  locals x hx := by
    rw [List.mem_singleton.mp hx]
    have hlocal := captured_local empty_prepared hcapture empty_uuid rfl (panic_survives info).spooled
    rwa [entry_pending] at hlocal
  rest := emptyState_atRest
  supplied := by
    have hrequest : requestAt (panicCrates info) u.state.disk.content ⟨"http://localhost/"⟩ "t" .default
        (pendingAt ["spool"] (Uuid.repeated 0).toString) =
          requestFor (panicCrates info) ⟨"http://localhost/"⟩ "t" .default (panicReport info) := by
      have hread := panic_read hcapture
      rw [entry_pending] at hread
      exact congrArg (· >>= _) hread
    rw [List.map_singleton, List.sum_singleton, hrequest]
    exact panic_supplied hcapture

end Captured

end Sample

theorem long_captured : ∃ u, ((Capture.crash longPanic).write (panicCrates longPanic)
    (sampleConfig [])).alone quietEnv () (sampleState .empty) = some (.ok (), u) ∧
      u.state.holder (lockPath ["spool"]) = none := by
  have h : (((Capture.crash longPanic).write (panicCrates longPanic) (sampleConfig [])).alone
      quietEnv () (sampleState .empty)).map (fun x => (x.1, x.2.state.holder (lockPath ["spool"]))) =
        some (.ok (), none) := by decide +kernel
  obtain ⟨⟨r, u⟩, hrun, hr⟩ := Option.map_eq_some_iff.mp h
  obtain ⟨rfl, hholder⟩ := Prod.mk.inj hr
  exact ⟨u, hrun, hholder⟩

/-- The panic stays, and the run that meets it fails. -/
theorem long_panic_blocks_long : ∃ u w' error,
    ((Capture.crash longPanic).write (panicCrates longPanic) (sampleConfig [])).alone quietEnv ()
      (sampleState .empty) = some (.ok (), u) ∧
    Rounds (panicCrates longPanic) (panicSite longPanic) ["spool"] ⟨"http://localhost/"⟩ "t" .default u [.error error] w' ∧
    ((view ["spool"] w'.state.disk).pending (Uuid.repeated 0).toString).isSome = true := by
  obtain ⟨u, hcapture, hfree⟩ := long_captured
  have hproceeds := panic_proceeds hcapture hfree
  have hread := panic_read hcapture
  rw [entry_pending] at hread
  have hhopeless : Hopeless (panicCrates longPanic) (panicSite longPanic) "t" .default (panicReport longPanic) :=
    hopeless_of_long (panicSite_linked longPanic)
      (Nat.lt_of_lt_of_le longPanic_long ((panic_survives longPanic).length_le rfl))
  obtain ⟨error, w', t, hrun, -⟩ := shipPending_blocked (i := ()) (panicSite_linked longPanic) hproceeds (.head _) hread
    (panic_sound hcapture) hhopeless
  have hrounds := Rounds.ship (.none u) hproceeds hrun
  exact ⟨u, w', error, hcapture, hrounds, (long_panic_blocks (panicSite_linked longPanic) rfl empty_prepared hcapture
    empty_uuid rfl (panic_survives longPanic) (panic_unmarked hcapture) longPanic_long hrounds).1⟩

end Detritus.Delivery
