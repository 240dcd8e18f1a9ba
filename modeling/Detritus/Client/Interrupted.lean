import Detritus.Client.Manifest
import Detritus.Client.SpoolHooks

/-! Captures that fail.

A capture makes the directory of its entry first and the upload configuration last, and it
takes nothing back when a step between them fails. The shipper takes every directory below
`pending` for an entry. So a failure leaves the spool as it was only if it comes with the
directory itself; any later one leaves an entry without a configuration, or with the
beginning of one, at which every later run stops. -/
namespace Detritus.Client
open Files Protocol Process

/-! ### What a shipper finds -/

section Finding
variable {ι : Type} (C : Crates)

/-- The directories among what is in a directory. -/
def IsEntry (pending : Path) (d : Disk) (q : Path) : Prop := q ≠ [] ∧ q.parent = pending ∧ (d.dir q).isSome = true

/-- What `read_stored_upload_config` answers on a disk at rest. -/
def storedConfigAt (d : Disk) (entry : Path) : Except ShipError (Option StoredUploadConfig) :=
  if d.occupied (entry.join "sdk-config.json") then do
    let bytes ← readAt d.content (entry.join "sdk-config.json")
    let config ← (C.uploadConfig bytes).mapError .json
    return some config
  else .ok none

/-- Where an entry is to go, as a function of the disk. -/
def endpointAt (d : Disk) (entry : Path) : Except ShipError (Url × UInt64) := do
  let stored ← storedConfigAt C d entry
  match stored with
  | none => .error (.missingStoredConfig entry)
  | some config => match C.parseUrl config.endpoint with
    | none => .error (.missingStoredConfig entry)
    | some endpoint => .ok (endpoint, config.sentRetentionDays)

/-- Both parts of an entry can be read. -/
def Loads (i : ι) (w : ClientState ι) (entry : Path) : Prop :=
  ∀ env : Env, (∀ n, env.faults n = none) →
    (∃ e, Gives env i (readEnvelope C entry) w (.ok e)) ∧
      ∃ r, Gives env i (resolveStoredEndpoint C entry) w (.ok r)

/-- The entries can be listed, and each that is listed can be read. -/
def Shippable (i : ι) (pending : Path) (w : ClientState ι) : Prop :=
  ∀ env : Env, (∀ n, env.faults n = none) →
    ∃ entries, Gives env i (pendingEntries pending) w (.ok entries) ∧ ∀ entry ∈ entries, Loads C i w entry

end Finding

section Reading
variable {ι : Type} {C : Crates} {env : Env} {i : ι} {w : ClientState ι}

theorem Gives.unique {ε α : Type} {p : Action ε α} {r r' : Except ε α} (h : Gives env i p w r)
    (h' : Gives env i p w r') : r = r' := by
  obtain ⟨u, hu, -⟩ := h
  obtain ⟨u', hu', -⟩ := h'
  exact congrArg Prod.fst (Option.some.inj (hu.symm.trans hu'))

theorem gives_pendingEntries (hfaults : ∀ n, env.faults n = none) (pending : Path) :
    Gives env i (pendingEntries pending) w (.ok (sortedDirs
      (((env.order w.history.length).arrange (w.state.disk.children pending)).map
        fun q => (q, (w.state.disk.dir q).isSome)))) := by
  have hexec : execFile env w.history.length (.readDir pending) w.state.disk =
      (.ok (((env.order w.history.length).arrange (w.state.disk.children pending)).map
        fun q => (q, (w.state.disk.dir q).isSome)), w.state.disk) := by
    rw [execFile, hfaults]
    rfl
  refine ⟨after env i w (.readDir pending), ?_, by rw [after, hexec]⟩
  unfold pendingEntries
  rw [alone_attempt, hexec]
  rfl

/-- What is listed are the directories in the directory. -/
theorem mem_listing {order : FileOp.Order} {d : Disk} {pending q : Path} :
    q ∈ sortedDirs ((order.arrange (d.children pending)).map fun q => (q, (d.dir q).isSome)) ↔
      IsEntry pending d q := by
  have hmem : q ∈ sortedDirs ((order.arrange (d.children pending)).map fun q => (q, (d.dir q).isSome)) ↔
      q ∈ d.children pending ∧ (d.dir q).isSome = true := by
    unfold sortedDirs
    rw [(List.mergeSort_perm _ _).mem_iff]
    simp only [List.mem_map, List.mem_filter, (order.perm _).mem_iff]
    constructor
    · rintro ⟨_, ⟨⟨p, hp, rfl⟩, hdir⟩, rfl⟩
      exact ⟨hp, hdir⟩
    · rintro ⟨hp, hdir⟩
      exact ⟨_, ⟨⟨q, hp, rfl⟩, hdir⟩, rfl⟩
  rw [hmem, Disk.mem_children]
  constructor
  · rintro ⟨⟨hne, hparent, -⟩, hdir⟩
    exact ⟨hne, hparent, hdir⟩
  · rintro ⟨hne, hparent, hdir⟩
    refine ⟨⟨hne, hparent, ?_⟩, hdir⟩
    rw [Disk.occupied, hdir, Bool.or_true]

theorem shippable_iff {pending : Path} :
    Shippable C i pending w ↔ ∀ q, IsEntry pending w.state.disk q → Loads C i w q := by
  constructor
  · intro h q hq env hfaults
    obtain ⟨entries, hgives, hloads⟩ := h env hfaults
    have hentries := Except.ok.inj (hgives.unique (gives_pendingEntries hfaults pending))
    rw [hentries] at hloads
    exact hloads q (mem_listing.mpr hq) env hfaults
  · intro h env hfaults
    exact ⟨_, gives_pendingEntries hfaults pending, fun q hq => h q (mem_listing.mp hq)⟩

theorem gives_tryExists (hfaults : ∀ n, env.faults n = none) (p : Path) :
    Gives env i (attempt (.tryExists p) : Action ShipError (Except IoError Bool)) w
      (.ok (.ok (w.state.disk.occupied p))) := by
  have hexec : execFile env w.history.length (.tryExists p) w.state.disk =
      ((.ok (w.state.disk.occupied p) : Except IoError Bool), w.state.disk) := by
    rw [execFile, hfaults]
    rfl
  exact ⟨after env i w (.tryExists p),
    congrArg (fun x : Except IoError Bool × Disk => some (Except.ok x.1, after env i w (.tryExists p))) hexec,
    by rw [after, hexec]⟩

theorem gives_readStoredUploadConfig (hfaults : ∀ n, env.faults n = none) (entry : Path) :
    Gives env i (readStoredUploadConfig C entry) w (storedConfigAt C w.state.disk entry) := by
  obtain ⟨u, hrun, hu⟩ := gives_tryExists (i := i) (w := w) hfaults (entry.join "sdk-config.json")
  have hrest : Gives env i
      (if (.ok (w.state.disk.occupied (entry.join "sdk-config.json")) : Except IoError Bool) = .ok true then (do
        let bytes : Bytes ← file .io (.read (entry.join "sdk-config.json"))
        let config ← liftExcept ((C.uploadConfig bytes).mapError ShipError.json)
        return some config)
      else return none) u (storedConfigAt C w.state.disk entry) := by
    unfold storedConfigAt
    cases w.state.disk.occupied (entry.join "sdk-config.json") with
    | false => exact .pure _
    | true =>
      rw [if_pos rfl, if_pos rfl, ← hu]
      exact (gives_read hfaults _).bind fun bytes _ _ _ => (Gives.lift _).bind fun config _ _ _ => .pure _
  obtain ⟨v, hrun', hv⟩ := hrest
  exact ⟨v, (Program.run_bind_ok _ hrun).trans hrun', hv.trans hu⟩

theorem gives_resolveStoredEndpoint (hfaults : ∀ n, env.faults n = none) (entry : Path) :
    Gives env i (resolveStoredEndpoint C entry) w (endpointAt C w.state.disk entry) := by
  unfold resolveStoredEndpoint endpointAt
  refine (gives_readStoredUploadConfig hfaults entry).bind fun stored u _ _ => ?_
  cases stored with
  | none => exact .lift (.error _)
  | some config =>
    dsimp only
    cases C.parseUrl config.endpoint with
    | none => exact .lift (.error _)
    | some endpoint => exact .pure _

theorem loads_iff {entry : Path} : Loads C i w entry ↔
    (∃ e, envelopeAt C w.state.disk.content entry = .ok e) ∧ ∃ r, endpointAt C w.state.disk entry = .ok r := by
  constructor
  · intro h
    obtain ⟨⟨e, he⟩, r, hr⟩ := h quietEnv fun _ => rfl
    exact ⟨⟨e, (gives_readEnvelope C (fun _ => rfl) entry).unique he⟩,
      r, (gives_resolveStoredEndpoint (fun _ => rfl) entry).unique hr⟩
  · rintro ⟨⟨e, he⟩, r, hr⟩ env hfaults
    exact ⟨⟨e, he ▸ gives_readEnvelope C hfaults entry⟩, r, hr ▸ gives_resolveStoredEndpoint hfaults entry⟩

/-- Whether a spool can be shipped is a matter of its disk. -/
theorem Shippable.same {pending : Path} {u : ClientState ι} (h : Shippable C i pending w)
    (hdisk : u.state.disk = w.state.disk) : Shippable C i pending u := by
  rw [shippable_iff] at h ⊢
  intro q hq
  rw [hdisk] at hq
  have hq := h q hq
  rw [loads_iff] at hq ⊢
  rwa [hdisk]

/-- An entry that loads has a configuration that can be read. -/
theorem Loads.config {entry : Path} (h : Loads C i w entry) : ∃ bytes config,
    w.state.disk.content (entry ++ ["sdk-config.json"]) = some bytes ∧ C.uploadConfig bytes = .ok config := by
  obtain ⟨-, r, hr⟩ := loads_iff.mp h
  unfold endpointAt storedConfigAt readAt at hr
  rw [component_names.2.2.join] at hr
  split at hr
  · cases hcontent : w.state.disk.content (entry ++ ["sdk-config.json"]) with
    | none =>
      rw [hcontent] at hr
      cases hr
    | some bytes =>
      cases hconfig : C.uploadConfig bytes with
      | error e =>
        rw [hcontent] at hr
        change ((Except.mapError ShipError.json (C.uploadConfig bytes) >>= fun c => pure (some c)) >>= _) = _ at hr
        rw [hconfig] at hr
        cases hr
      | ok config => exact ⟨bytes, config, rfl, hconfig⟩
  · cases hr

end Reading

/-! ### What is left of the configuration -/

/-- No text that breaks off is read as a configuration. -/
def RejectsParts (C : Crates) (text : Bytes) : Prop :=
  ∀ part, part <+: text.dropLast → ∃ e, C.uploadConfig part = .error e

/-- The file is missing, or it breaks off. -/
def Broken (text : Bytes) (content : Option Bytes) : Prop :=
  ∀ bytes, content = some bytes → bytes <+: text.dropLast

section Failing
variable {ι : Type} {C : Crates} {config : PanicHookConfig} {env : Env} {i : ι} {w u : ClientState ι} {entry : Path}
  {e : IoError}

/-- A file that was not written whole. -/
theorem writeFile_error {p : Path} {bytes : Bytes} (hmissing : Broken bytes (w.state.disk.content p))
    (h : (writeFile p bytes).alone env i w = some (.error e, u)) : Broken bytes (u.state.disk.content p) := by
  unfold writeFile at h
  rcases file_some h with ⟨handle, hcreate, h⟩ | ⟨e, hcreate, -, rfl⟩
  · obtain ⟨-, -, heq⟩ := execFile_ok hcreate
    have hdisk : (after env i w (.create p)).state.disk =
        (w.state.disk.create p (env.clock w.history.length)).2 := by
      rw [after_disk, heq]
      rfl
    obtain rfl : (w.state.disk.create p (env.clock w.history.length)).1 = handle := by
      rw [heq] at hcreate
      exact Except.ok.inj hcreate
    rcases file_some h with ⟨handle', -, h⟩ | ⟨e, hwrite, -, rfl⟩
    · cases (pure_some h).1
    · obtain ⟨fault, heq'⟩ := execFile_write_error hwrite
      rw [after_disk, heq', hdisk, Disk.create_write_content]
      intro part hpart
      rw [← Option.some.inj hpart]
      exact List.take_prefix ..
  · rw [after_disk, execFile_error (by simp) hcreate]
    exact hmissing

/-- The configuration comes last. -/
theorem writeEntry_error {metadata : CrashMetadata} {dump : Bytes} (hw : w.state.disk.Tidy entry)
    (hmissing : w.state.disk.content (entry ++ ["sdk-config.json"]) = none)
    (h : (writeEntry C config entry metadata dump).alone env i w = some (.error e, u)) :
    Broken (C.json.writePretty (StoredUploadConfig.fromConfig config).toJson)
      (u.state.disk.content (entry ++ ["sdk-config.json"])) := by
  obtain ⟨hmetadata, hdump, hsdk⟩ := component_names
  have hbroken : Broken (C.json.writePretty (StoredUploadConfig.fromConfig config).toJson) none :=
    fun _ h => by cases h
  unfold writeEntry at h
  obtain ⟨r₁, w₁, hwrite₁, h⟩ := bind_some h
  have hw₁ := writeFile_writing hmetadata hw hwrite₁
  have h₁ := hw₁.others "sdk-config.json" (by decide)
  rw [hmissing] at h₁
  cases r₁ with
  | error e =>
    rw [h.2, h₁]
    exact hbroken
  | ok _ =>
    obtain ⟨r₂, w₂, hwrite₂, h⟩ := bind_some h
    have h₂ := (writeFile_writing hdump hw₁.tidy hwrite₂).others "sdk-config.json" (by decide)
    rw [h₁] at h₂
    cases r₂ with
    | error e =>
      rw [h.2, h₂]
      exact hbroken
    | ok _ =>
      rw [hsdk.join] at h
      exact writeFile_error (h₂ ▸ hbroken) h

theorem finish_error {metadata : List AttachmentManifest → CrashMetadata} {dump : Bytes}
    (h : (finish C config entry metadata dump).alone env i w = some (.error e, u)) (hw : w.state.disk.Tidy entry)
    (hnames : "sdk-config.json" ∉ contextNames config)
    (hmissing : w.state.disk.content (entry ++ ["sdk-config.json"]) = none) :
    (∃ names, Writing entry names w.state.disk u.state.disk) ∧
      Broken (C.json.writePretty (StoredUploadConfig.fromConfig config).toJson)
        (u.state.disk.content (entry ++ ["sdk-config.json"])) := by
  obtain ⟨r, v, hcopy, h⟩ := bind_some h
  have hwriting := copyContextFiles_writing hw hcopy
  have hcontent := hwriting.others "sdk-config.json" hnames
  rw [hmissing] at hcontent
  cases r with
  | error e =>
    rw [h.2]
    refine ⟨⟨_, hwriting⟩, ?_⟩
    rw [hcontent]
    exact fun _ h => by cases h
  | ok ms => exact ⟨⟨_, hwriting.trans (writeEntry_writing hwriting.tidy h)⟩, writeEntry_error hwriting.tidy hcontent h⟩

/-- A capture that fails in its directory leaves the directory, and no configuration in it. -/
theorem fill_error {capture : Capture} {n : Nat} (hn : w.history.length = n + 2) (hw : w.state.disk.Tidy entry)
    (hnames : "sdk-config.json" ∉ contextNames config)
    (hmissing : w.state.disk.content (entry ++ ["sdk-config.json"]) = none)
    (h : (capture.fill C config entry).alone env i w = some (.error e, u)) :
    (∃ names, Writing entry names w.state.disk u.state.disk) ∧
      Broken (C.json.writePretty (StoredUploadConfig.fromConfig config).toJson)
        (u.state.disk.content (entry ++ ["sdk-config.json"])) := by
  rcases fill_some hn h with ⟨e, -, hu⟩ | ⟨dump, v, -, hv, h⟩
  · rw [hu]
    refine ⟨⟨[], .refl hw⟩, ?_⟩
    rw [hmissing]
    exact fun _ h => by cases h
  · rw [← hv] at hw hmissing ⊢
    exact finish_error h hw hnames hmissing

/-- The directory of a capture that fails in it is an entry that does not load. -/
theorem not_shippable_of_made {capture : Capture} (hnumbered : w.state.disk.Numbered)
    (hfree : ∀ uuid, env.uuid w.history.length = some uuid →
      ∀ p, config.entry uuid <+: p → w.state.disk.file p = none) (hnames : "sdk-config.json" ∉ contextNames config)
    (hparts : RejectsParts C (C.json.writePretty (StoredUploadConfig.fromConfig config).toJson))
    (hmade : env.faults (w.history.length + 1) = none)
    (h : (capture.write C config).alone env i w = some (.error e, u)) :
    ¬ Shippable C i (config.spoolDir.join "pending") u := by
  rw [Capture.write_eq] at h
  obtain ⟨uuid, huuid, h⟩ := newUuid_some h
  rcases file_some h with ⟨_, hdir, h⟩ | ⟨e, hdir, -, -⟩
  · have hdisk : (after env i (called i w .newUuid uuid) (.createDirAll (config.entry uuid))).state.disk =
        w.state.disk.createDirAll (config.entry uuid) (env.clock (w.history.length + 1)) := by
      rw [after_disk, (execFile_ok hdir).2.2]
      rfl
    have htidy := Disk.Tidy.of_free hnumbered (hfree uuid huuid)
    have hmissing : w.state.disk.content (config.entry uuid ++ ["sdk-config.json"]) = none := by
      rw [Disk.content, hfree uuid huuid _ (List.prefix_append ..)]
      rfl
    obtain ⟨⟨names, hwriting⟩, hbroken⟩ := fill_error rfl (hdisk ▸ ⟨htidy.numbered, htidy.own⟩) hnames (hdisk ▸ hmissing) h
    intro hship
    have hentry : IsEntry (config.spoolDir.join "pending") u.state.disk (config.entry uuid) := by
      refine ⟨by rw [config.entry_eq]; simp, ?_, ?_⟩
      · rw [PanicHookConfig.entry, (uuid_component uuid).join, Path.parent, List.dropLast_concat]
      · rw [hwriting.within.dir, hdisk, Disk.createDirAll_dir]
        exact .inl (List.prefix_refl _)
    obtain ⟨bytes, stored, hcontent, hread⟩ := (shippable_iff.mp hship _ hentry).config
    obtain ⟨error, herror⟩ := hparts bytes (hbroken bytes hcontent)
    rw [herror] at hread
    cases hread
  · rw [called_calls, execFile, hmade] at hdir
    cases hdir

/-- **A capture that fails leaves the spool shippable if it is its directory that cannot be
made**, and otherwise leaves an entry that does not load, unless a context file has taken
the name of the configuration. -/
theorem failed_capture_shippable {capture : Capture} {e : IoError}
    (hbefore : Shippable C i (config.spoolDir.join "pending") w)
    (h : (capture.write C config).alone env i w = some (.error e, u)) :
    ((env.faults (w.history.length + 1)).isSome = true → Shippable C i (config.spoolDir.join "pending") u) ∧
      (w.state.disk.Numbered →
        (∀ uuid, env.uuid w.history.length = some uuid →
          ∀ p, config.entry uuid <+: p → w.state.disk.file p = none) →
        RejectsParts C (C.json.writePretty (StoredUploadConfig.fromConfig config).toJson) →
        "sdk-config.json" ∉ contextNames config →
        Shippable C i (config.spoolDir.join "pending") u → (env.faults (w.history.length + 1)).isSome = true) := by
  constructor
  · intro hfault
    obtain ⟨fault, hfault⟩ := Option.isSome_iff_exists.mp hfault
    rw [Capture.write_eq] at h
    obtain ⟨uuid, -, h⟩ := newUuid_some h
    rcases file_some h with ⟨_, hdir, -⟩ | ⟨e, hdir, -, rfl⟩
    · have hnone := (execFile_ok hdir).1
      rw [called_calls, hfault] at hnone
      cases hnone
    · exact hbefore.same (by rw [after_disk, execFile_error (by simp) hdir, called_state])
  · intro hnumbered hfree hparts hnames hship
    by_contra hmade
    rw [Option.not_isSome_iff_eq_none] at hmade
    exact not_shippable_of_made hnumbered hfree hnames hparts hmade h hship

end Failing

/-! A capture whose dump cannot be written, and one whose directory cannot be made. -/

/-- One text is read as a configuration, the one that is written. -/
def strictCrates : Crates :=
  {sampleCrates (sampleMetadata []) with
    uploadConfig := fun bytes =>
      if bytes = JsonText.print .pretty 0 (StoredUploadConfig.fromConfig (sampleConfig [])).toJson then
        .ok (.fromConfig (sampleConfig []))
      else .error ⟨"EOF while parsing"⟩
    parseUrl := fun text => some ⟨text⟩}

theorem strictCrates_rejects : RejectsParts strictCrates
    (strictCrates.json.writePretty (StoredUploadConfig.fromConfig (sampleConfig [])).toJson) := by
  intro part hpart
  have hlength : (strictCrates.json.writePretty
      (StoredUploadConfig.fromConfig (sampleConfig [])).toJson).length = 66 := by decide +kernel
  refine ⟨_, if_neg fun heq => ?_⟩
  have hle := hpart.length_le
  rw [List.length_dropLast, hlength, heq] at hle
  exact absurd (hlength ▸ hle) (by decide)

/-- The file operation at one place fails. -/
def faultyEnv (n : Nat) : Env := {quietEnv with faults := fun m => if m = n then some ⟨.other, 0⟩ else none}

theorem empty_shippable :
    Shippable strictCrates () ((sampleConfig []).spoolDir.join "pending") (sampleState .empty) := by
  rw [shippable_iff]
  rintro q ⟨-, -, hdir⟩
  cases hdir

/-- A spool with an entry of an earlier capture. -/
def oneEntry : ClientState Unit := sampleState (sampleFile "spool/pending/a/sdk-config.json"
    (strictCrates.json.writePretty (StoredUploadConfig.fromConfig (sampleConfig [])).toJson)
  (sampleFile "spool/pending/a/dump.bin" [7] (sampleFile "spool/pending/a/metadata.json" []
    (Disk.empty.createDirAll ["spool", "pending", "a"] 0))))

theorem oneEntry_shippable : Shippable strictCrates () ((sampleConfig []).spoolDir.join "pending") oneEntry := by
  have honly : ∀ q ∈ oneEntry.state.disk.known, q.parent = ["spool", "pending"] →
      (oneEntry.state.disk.dir q).isSome = true → q = ["spool", "pending", "a"] := by decide +kernel
  have hloads : (envelopeAt strictCrates oneEntry.state.disk.content ["spool", "pending", "a"]).toOption.isSome = true ∧
      (endpointAt strictCrates oneEntry.state.disk ["spool", "pending", "a"]).toOption.isSome = true := by decide +kernel
  rw [shippable_iff]
  rintro q ⟨-, hparent, hdir⟩
  rw [honly q (oneEntry.state.disk.listed q (.inr hdir)) hparent hdir, loads_iff]
  constructor
  · cases h : envelopeAt strictCrates oneEntry.state.disk.content ["spool", "pending", "a"] with
    | ok e => exact ⟨e, rfl⟩
    | error e => rw [h] at hloads; cases hloads.1
  · cases h : endpointAt strictCrates oneEntry.state.disk ["spool", "pending", "a"] with
    | ok r => exact ⟨r, rfl⟩
    | error e => rw [h] at hloads; cases hloads.2

/-- The entry is there, and still loads, when the directory of another cannot be made. -/
theorem failed_capture_shippable_directory : ∃ u,
    ((Capture.minidump [8]).write strictCrates (sampleConfig [])).alone (faultyEnv 1) () oneEntry =
      some (.error .other, u) ∧
    IsEntry ["spool", "pending"] u.state.disk ["spool", "pending", "a"] ∧
    Shippable strictCrates () ((sampleConfig []).spoolDir.join "pending") u := by
  have h : (((Capture.minidump [8]).write strictCrates (sampleConfig [])).alone (faultyEnv 1) () oneEntry).any
      (fun x => decide (x.1 = .error .other) && (x.2.state.disk.dir ["spool", "pending", "a"]).isSome) = true := by
    decide +kernel
  obtain ⟨⟨r, u⟩, hrun, hu⟩ := (Option.any_eq_true _ _).mp h
  rw [Bool.and_eq_true, decide_eq_true_eq] at hu
  obtain ⟨rfl, hdir⟩ := hu
  exact ⟨u, hrun, ⟨by decide, rfl, hdir⟩, (failed_capture_shippable oneEntry_shippable hrun).1 rfl⟩

/-- The directory and the metadata are there when the dump cannot be written. -/
theorem dump_fails_not_shippable : ∃ u,
    Shippable strictCrates () ((sampleConfig []).spoolDir.join "pending") (sampleState .empty) ∧
    ((Capture.minidump [7]).write strictCrates (sampleConfig [])).alone (faultyEnv 6) () (sampleState .empty) =
      some (.error .other, u) ∧
    ¬ Shippable strictCrates () ((sampleConfig []).spoolDir.join "pending") u := by
  have h : (((Capture.minidump [7]).write strictCrates (sampleConfig [])).alone (faultyEnv 6) ()
      (sampleState .empty)).map Prod.fst = some (.error .other) := by decide +kernel
  obtain ⟨⟨_, u⟩, hrun, rfl⟩ := Option.map_eq_some_iff.mp h
  refine ⟨u, empty_shippable, hrun, ?_⟩
  exact not_shippable_of_made (fun _ _ h => by cases h) (fun _ _ _ _ => rfl) (by decide) strictCrates_rejects rfl hrun

end Detritus.Client
