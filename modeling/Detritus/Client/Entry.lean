import Detritus.Files.Region
import Detritus.Client.Capture

/-! What a capture leaves in its entry.

Each step of a capture writes one file of the entry. `stored` is what the files of a disk
hold after some have been written one by one: of two under the same name the later
stays. -/
namespace Detritus.Client
open Files Protocol Process

theorem uuid_component (u : Uuid) : Component u.toString := by
  have hdash := u.dash_mem_toString
  refine ⟨?_, ?_, u.toString_slash⟩
  · intro h
    rw [h] at hdash
    exact absurd hdash (by decide)
  · intro h
    rw [h] at hdash
    exact absurd hdash (by decide)

theorem PanicHookConfig.entry_eq (config : PanicHookConfig) (u : Uuid) :
    config.entry u = config.spoolDir ++ ["pending", u.toString] := by
  rw [entry, (uuid_component u).join, Component.join ⟨by decide, by decide, by decide⟩, List.append_assoc]
  rfl

/-- What the files hold once some of an entry have been written. -/
def stored (entry : Path) (files : List (String × Bytes)) (content : Path → Option Bytes) : Path → Option Bytes :=
  files.foldl (fun c f => Function.update c (entry ++ [f.1]) (some f.2)) content

theorem stored_append (entry : Path) (a b : List (String × Bytes)) (content : Path → Option Bytes) :
    stored entry (a ++ b) content = stored entry b (stored entry a content) := List.foldl_append

/-- The last file of a name is the one that is there. -/
theorem stored_apply (entry : Path) (files : List (String × Bytes)) (content : Path → Option Bytes) (name : String) :
    stored entry files content (entry ++ [name]) =
      (files.reverse.lookup name).or (content (entry ++ [name])) := by
  induction files using List.reverseRecOn with
  | nil => rfl
  | append_singleton files f ih =>
    rw [stored_append, List.reverse_append, List.reverse_singleton, List.singleton_append, Json.lookup_pair]
    show Function.update (stored entry files content) (entry ++ [f.1]) (some f.2) (entry ++ [name]) = _
    by_cases hname : name = f.1
    · rw [hname, Function.update_self, if_pos rfl]
      rfl
    · have hne : entry ++ [name] ≠ entry ++ [f.1] := by simpa using hname
      rw [Function.update_of_ne hne, if_neg hname, ih]

/-! ### One file -/

section Steps
variable {ι ε : Type} {env : Env} {i : ι} {w u : ClientState ι} {entry : Path} {r : Except IoError Unit}
  {index : Nat} {bytes : Bytes}

/-- A file is written, or fails to be; nothing else changes. -/
theorem writeFile_some {p : Path} (hw : w.state.disk.Tidy entry) (hp : entry <+: p)
    (h : (writeFile p bytes).alone env i w = some (r, u)) :
    u.state.disk.Tidy entry ∧ w.state.disk.Only p u.state.disk ∧
      (r = .ok () → u.state.disk.content p = some bytes) := by
  unfold writeFile at h
  let now := env.clock w.history.length
  obtain ⟨tidy, only⟩ : (w.state.disk.create p now).2.Tidy entry ∧ w.state.disk.Only p (w.state.disk.create p now).2 :=
    hw.create hp
  rcases file_some h with ⟨handle, hcreate, h⟩ | ⟨e, hcreate, rfl, rfl⟩
  · obtain ⟨-, -, heq⟩ := execFile_ok hcreate
    have hdisk : (after env i w (.create p)).state.disk = (w.state.disk.create p now).2 := by
      rw [after_disk, heq]
      rfl
    obtain rfl : (w.state.disk.create p now).1 = handle := by
      rw [heq] at hcreate
      exact Except.ok.inj hcreate
    have hfile : (w.state.disk.create p now).2.file p = some (w.state.disk.create p now).1.inode := Disk.create_file
    rcases file_some h with ⟨handle', hwrite, h⟩ | ⟨e, hwrite, rfl, rfl⟩
    · obtain ⟨-, -, heq'⟩ := execFile_ok hwrite
      obtain ⟨rfl, rfl⟩ := pure_some h
      rw [after_disk, heq', hdisk]
      obtain ⟨tidy', only'⟩ := tidy.write hp hfile
      exact ⟨tidy', only.trans only', fun _ => Disk.create_write_content _⟩
    · obtain ⟨fault, heq'⟩ := execFile_write_error hwrite
      rw [after_disk, heq', hdisk]
      obtain ⟨tidy', only'⟩ := tidy.write hp hfile
      exact ⟨tidy', only.trans only', nofun⟩
  · rw [after_disk, execFile_error (by simp) hcreate]
    exact ⟨hw, .refl .., nofun⟩

/-- A file that has been written is as `stored` has it. -/
theorem writeFile_ok {name : String} (hname : Component name) (hw : w.state.disk.Tidy entry)
    (h : (writeFile (entry.join name) bytes).alone env i w = some (.ok (), u)) :
    u.state.disk.content = stored entry [(name, bytes)] w.state.disk.content := by
  rw [hname.join] at h
  obtain ⟨-, only, hbytes⟩ := writeFile_some hw (List.prefix_append ..) h
  funext q
  show _ = Function.update w.state.disk.content (entry ++ [name]) (some bytes) q
  by_cases hq : q = entry ++ [name]
  · rw [hq, Function.update_self]
    exact hbytes rfl
  · rw [Function.update_of_ne hq]
    exact only.content q hq

/-- What any step of a capture keeps to that writes files of these names. -/
structure Writing (entry : Path) (names : List String) (d e : Disk) : Prop where
  tidy : e.Tidy entry
  within : d.Within entry e
  others : ∀ x ∉ names, e.content (entry ++ [x]) = d.content (entry ++ [x])

theorem Writing.refl {names : List String} {d : Disk} (h : d.Tidy entry) : Writing entry names d d :=
  ⟨h, .refl .., fun _ _ => rfl⟩

theorem Writing.trans {c d e : Disk} {names more : List String} (a : Writing entry names c d)
    (b : Writing entry more d e) : Writing entry (names ++ more) c e where
  tidy := b.tidy
  within := a.within.trans b.within
  others x hx := by
    rw [List.mem_append, not_or] at hx
    rw [b.others x hx.2, a.others x hx.1]

theorem Writing.mono {d e : Disk} {names more : List String} (a : Writing entry names d e) (h : names ⊆ more) :
    Writing entry more d e :=
  ⟨a.tidy, a.within, fun x hx => a.others x fun hmem => hx (h hmem)⟩

/-- Whatever comes of it, only that file is touched. -/
theorem writeFile_writing {name : String} (hname : Component name) (hw : w.state.disk.Tidy entry)
    (h : (writeFile (entry.join name) bytes).alone env i w = some (r, u)) :
    Writing entry [name] w.state.disk u.state.disk := by
  rw [hname.join] at h
  obtain ⟨tidy, only, -⟩ := writeFile_some hw (List.prefix_append ..) h
  refine ⟨tidy, only.within (List.prefix_append ..), fun x hx => only.content _ fun heq => hx ?_⟩
  simpa using heq

/-! ### The context files -/

theorem contextName_component (index : Nat) (text : String) : Component (contextName index (components text)) := by
  unfold contextName Path.fileName
  have hdefault : Component ("context-" ++ toString index ++ ".json") := by
    refine .of_append ?_ (by decide) (by decide)
    rw [String.toList_append, List.mem_append, not_or]
    refine ⟨by decide, fun hmem => ?_⟩
    rw [Nat.toString_eq_repr, Nat.toList_repr] at hmem
    have hdigit : '/'.isDigit = true := Nat.isDigit_of_mem_toDigits (by decide) (by decide) hmem
    exact absurd hdigit (by decide)
  cases hlast : (components text).getLast? with
  | none => exact hdefault
  | some name =>
    rw [Option.filter_some]
    split
    · next h =>
      rw [Bool.and_eq_true, decide_eq_true_eq, decide_eq_true_eq] at h
      exact (mem_components (List.mem_of_getLast? hlast)).resolve_left h.2
    · exact hdefault

/-- The bytes of a file, none if it is not there. -/
def bytesAt (content : Path → Option Bytes) (p : Path) : Bytes := (content p).getD []

/-- The copies of the context files, by name. -/
def contextCopies (content : Path → Option Bytes) : Nat → List String → List (String × Bytes)
  | _, [] => []
  | index, text :: rest =>
    (contextName index (components text), bytesAt content (components text)) :: contextCopies content (index + 1) rest

def contextManifests (content : Path → Option Bytes) : Nat → List String → List AttachmentManifest
  | _, [] => []
  | index, text :: rest =>
    contextManifest index (components text) (bytesAt content (components text)) ::
      contextManifests content (index + 1) rest

theorem copyContextFile_writing {text : String} {r : Except IoError AttachmentManifest}
    (hw : w.state.disk.Tidy entry) (h : (copyContextFile index (components text) entry).alone env i w = some (r, u)) :
    Writing entry [contextName index (components text)] w.state.disk u.state.disk := by
  unfold copyContextFile at h
  rcases file_some h with ⟨bytes, hread, h⟩ | ⟨e, hread, rfl, rfl⟩
  · have hdisk : (after env i w (.read (components text))).state.disk = w.state.disk := by
      rw [after_disk, (execFile_ok hread).2.2]
      rfl
    obtain ⟨r', v, hwrite, h⟩ := bind_some h
    have hv := writeFile_writing (contextName_component index text) (hdisk ▸ hw) hwrite
    rw [hdisk] at hv
    cases r' with
    | ok _ =>
      obtain ⟨rfl, rfl⟩ := pure_some h
      exact hv
    | error e =>
      obtain ⟨rfl, rfl⟩ := h
      exact hv
  · rw [after_disk, execFile_error (by simp) hread]
    exact .refl hw

/-- A copy that went well: the source was there, and its bytes are in the entry. -/
theorem copyContextFile_ok {text : String} {m : AttachmentManifest} (hw : w.state.disk.Tidy entry)
    (h : (copyContextFile index (components text) entry).alone env i w = some (.ok m, u)) :
    (w.state.disk.content (components text)).isSome = true ∧
      m = contextManifest index (components text) (bytesAt w.state.disk.content (components text)) ∧
      u.state.disk.content = stored entry
        [(contextName index (components text), bytesAt w.state.disk.content (components text))]
        w.state.disk.content := by
  unfold copyContextFile at h
  rcases file_some h with ⟨bytes, hread, h⟩ | ⟨e, hread, hr, -⟩
  · obtain ⟨-, -, heq⟩ := execFile_ok hread
    have hdisk : (after env i w (.read (components text))).state.disk = w.state.disk := by
      rw [after_disk, heq]
      rfl
    have hbytes : w.state.disk.content (components text) = some bytes := by
      rw [heq] at hread
      have hread : w.state.disk.read (components text) = .ok bytes := hread
      unfold Disk.read at hread
      cases hc : w.state.disk.content (components text) with
      | none =>
        rw [hc] at hread
        cases hread
      | some b =>
        rw [hc] at hread
        rw [Except.ok.inj hread]
    obtain ⟨r', v, hwrite, h⟩ := bind_some h
    cases r' with
    | ok _ =>
      obtain ⟨hm, rfl⟩ := pure_some h
      have hcontent := writeFile_ok (contextName_component index text) (hdisk ▸ hw) hwrite
      rw [hdisk] at hcontent
      rw [hcontent, bytesAt, hbytes]
      exact ⟨rfl, Except.ok.inj hm, rfl⟩
    | error e =>
      obtain ⟨hr, -⟩ := h
      cases hr
  · cases hr

theorem copyContextFiles_writing {files : List String} {r : Except IoError (List AttachmentManifest)}
    (hw : w.state.disk.Tidy entry) (h : (copyContextFiles entry index files).alone env i w = some (r, u)) :
    Writing entry ((files.zipIdx index).map fun f => contextName f.2 (components f.1)) w.state.disk u.state.disk := by
  induction files generalizing index w u r with
  | nil =>
    obtain ⟨-, rfl⟩ := pure_some h
    exact .refl hw
  | cons text rest ih =>
    unfold copyContextFiles at h
    obtain ⟨r', v, hcopy, h⟩ := bind_some h
    have hv := copyContextFile_writing hw hcopy
    cases r' with
    | error e =>
      obtain ⟨-, rfl⟩ := h
      exact hv.mono (List.cons_subset_cons _ (List.nil_subset _))
    | ok m =>
      obtain ⟨r'', x, hrest, h⟩ := bind_some h
      have hx := hv.trans (ih hv.tidy hrest)
      cases r'' with
      | error e =>
        obtain ⟨-, rfl⟩ := h
        exact hx
      | ok ms =>
        obtain ⟨-, rfl⟩ := pure_some h
        exact hx

/-- Copies do not change what lies outside the entry, so later files are read as they were. -/
theorem contextCopies_congr {c c' : Path → Option Bytes} (index : Nat) {files : List String}
    (h : ∀ f ∈ files, c' (components f) = c (components f)) :
    contextCopies c' index files = contextCopies c index files ∧
      contextManifests c' index files = contextManifests c index files := by
  induction files generalizing index with
  | nil => exact ⟨rfl, rfl⟩
  | cons text rest ih =>
    obtain ⟨hcopies, hmanifests⟩ := ih (index + 1) fun f hf => h f (.tail _ hf)
    have htext : bytesAt c' (components text) = bytesAt c (components text) := by
      rw [bytesAt, h text (.head _), bytesAt]
    unfold contextCopies contextManifests
    rw [htext, hcopies, hmanifests]
    exact ⟨rfl, rfl⟩

/-- The same for a list of files, none of them in the entry. -/
theorem copyContextFiles_ok {files : List String} {ms : List AttachmentManifest} (hw : w.state.disk.Tidy entry)
    (hout : ∀ f ∈ files, ¬ entry <+: components f)
    (h : (copyContextFiles entry index files).alone env i w = some (.ok ms, u)) :
    (∀ f ∈ files, (w.state.disk.content (components f)).isSome = true) ∧
      ms = contextManifests w.state.disk.content index files ∧
      u.state.disk.content = stored entry (contextCopies w.state.disk.content index files) w.state.disk.content := by
  induction files generalizing index w u ms with
  | nil =>
    obtain ⟨hr, rfl⟩ := pure_some h
    exact ⟨nofun, Except.ok.inj hr, rfl⟩
  | cons text rest ih =>
    unfold copyContextFiles at h
    obtain ⟨r', v, hcopy, h⟩ := bind_some h
    cases r' with
    | error e => cases h.1
    | ok m =>
      obtain ⟨r'', x, hrest, h⟩ := bind_some h
      cases r'' with
      | error e => cases h.1
      | ok ms' =>
        obtain ⟨hr, rfl⟩ := pure_some h
        have hv := copyContextFile_writing hw hcopy
        obtain ⟨hthere, rfl, hcontent⟩ := copyContextFile_ok hw hcopy
        have hrests : ∀ f ∈ rest, v.state.disk.content (components f) = w.state.disk.content (components f) :=
          fun f hf => hv.within.content _ (hout f (.tail _ hf))
        obtain ⟨hall, rfl, hcontent'⟩ := ih hv.tidy (fun f hf => hout f (.tail _ hf)) hrest
        obtain ⟨hcopies, hmanifests⟩ := contextCopies_congr (index + 1) hrests
        refine ⟨fun f hf => ?_, ?_, ?_⟩
        · rcases List.mem_cons.mp hf with rfl | hf
          · exact hthere
          · rw [← hrests f hf]
            exact hall f hf
        · rw [Except.ok.inj hr, hmanifests]
          rfl
        · rw [hcontent', hcopies, hcontent]
          rfl

/-! ### The whole entry -/

section Whole
variable {C : Crates} {config : PanicHookConfig}

theorem component_names : Component "metadata.json" ∧ Component "dump.bin" ∧ Component "sdk-config.json" :=
  ⟨⟨by decide, by decide, by decide⟩, ⟨by decide, by decide, by decide⟩, ⟨by decide, by decide, by decide⟩⟩

/-- The files that a capture writes itself. -/
def ownFiles (C : Crates) (config : PanicHookConfig) (metadata : CrashMetadata) (dump : Bytes) :
    List (String × Bytes) :=
  [("metadata.json", C.json.writePretty metadata.toJson), ("dump.bin", dump),
    ("sdk-config.json", C.json.writePretty (StoredUploadConfig.fromConfig config).toJson)]

theorem writeEntry_writing {metadata : CrashMetadata} {dump : Bytes} (hw : w.state.disk.Tidy entry)
    (h : (writeEntry C config entry metadata dump).alone env i w = some (r, u)) :
    Writing entry ["metadata.json", "dump.bin", "sdk-config.json"] w.state.disk u.state.disk := by
  obtain ⟨hmetadata, hdump, hsdk⟩ := component_names
  unfold writeEntry at h
  obtain ⟨r₁, w₁, hwrite₁, h⟩ := bind_some h
  have h₁ := writeFile_writing hmetadata hw hwrite₁
  cases r₁ with
  | error e =>
    obtain ⟨-, rfl⟩ := h
    exact h₁.mono (by simp)
  | ok _ =>
    obtain ⟨r₂, w₂, hwrite₂, h⟩ := bind_some h
    have h₂ := h₁.trans (writeFile_writing hdump h₁.tidy hwrite₂)
    cases r₂ with
    | error e =>
      obtain ⟨-, rfl⟩ := h
      exact h₂.mono (by simp)
    | ok _ => exact h₂.trans (writeFile_writing hsdk h₂.tidy h)

/-- The three files of an entry. -/
theorem writeEntry_ok {metadata : CrashMetadata} {dump : Bytes} (hw : w.state.disk.Tidy entry)
    (h : (writeEntry C config entry metadata dump).alone env i w = some (.ok (), u)) :
    u.state.disk.content = stored entry (ownFiles C config metadata dump) w.state.disk.content := by
  obtain ⟨hmetadata, hdump, hsdk⟩ := component_names
  unfold writeEntry at h
  obtain ⟨r₁, w₁, hwrite₁, h⟩ := bind_some h
  cases r₁ with
  | error e => cases h.1
  | ok _ =>
    obtain ⟨r₂, w₂, hwrite₂, h⟩ := bind_some h
    cases r₂ with
    | error e => cases h.1
    | ok _ =>
      have h₁ := writeFile_writing hmetadata hw hwrite₁
      have h₂ := writeFile_writing hdump h₁.tidy hwrite₂
      rw [writeFile_ok hsdk h₂.tidy h, writeFile_ok hdump h₁.tidy hwrite₂, writeFile_ok hmetadata hw hwrite₁]
      rfl

/-- What a report is made from. -/
inductive Capture where
  | crash (info : PanicHookInfo)
  | minidump (dump : Bytes)

variable (C config) in
def Capture.write : Capture → Action IoError Unit
  | crash info => writePendingCrash C config info
  | minidump dump => writePendingMinidump C config dump

variable (C config) in
/-- The metadata that is stored. -/
def Capture.metadata (now : Time) (contextAttachments : List AttachmentManifest) : Capture → CrashMetadata
  | crash info => {newMetadata C config now config.kind.panicCrashKind with
      panicText := some (panicText info), attachments := sdkConfigManifest C config :: contextAttachments}
  | minidump _ => {newMetadata C config now .minidump with attachments := contextAttachments}

variable (C config) in
/-- All files of an entry, in the order in which they are written. -/
def Capture.files (capture : Capture) (content : Path → Option Bytes) (now : Time) (dump : Bytes) :
    List (String × Bytes) :=
  contextCopies content 0 config.contextFiles ++
    ownFiles C config (capture.metadata C config now (contextManifests content 0 config.contextFiles)) dump

/-- The moment that the metadata has, of a capture that begins at a call. -/
def Capture.moment (env : Env) (n : Nat) : Capture → Time
  | crash _ => env.clock (n + 3)
  | minidump _ => env.clock (n + 2)

/-- The dump that is stored: of a panic, what `panic_tarball` gives. -/
def Capture.dump (env : Env) (n : Nat) : Capture → Except IoError Bytes
  | crash info => env.tarball (n + 2) (panicText info)
  | minidump dump => .ok dump

/-- The state before a capture: its directory is not there, and the context files are. -/
structure Prepared (config : PanicHookConfig) (env : Env) (w : ClientState ι) : Prop where
  numbered : w.state.disk.Numbered
  free : ∀ uuid, env.uuid w.history.length = some uuid → ∀ p, config.entry uuid <+: p → w.state.disk.file p = none
  readable : ∀ f ∈ config.contextFiles, (w.state.disk.content (components f)).isSome = true

theorem Prepared.out (hw : Prepared config env w) {uuid : Uuid} (huuid : env.uuid w.history.length = some uuid) :
    ∀ f ∈ config.contextFiles, ¬ config.entry uuid <+: components f := by
  intro f hf hp
  have hthere := hw.readable f hf
  rw [Disk.content, hw.free uuid huuid _ hp] at hthere
  cases hthere

variable (C config) in
/-- The copies, and the files that are written last. -/
def finish (dir : Path) (metadata : List AttachmentManifest → CrashMetadata) (dump : Bytes) : Action IoError Unit := do
  let contextAttachments ← copyContextFiles dir 0 config.contextFiles
  writeEntry C config dir (metadata contextAttachments) dump

variable (C config) in
/-- What a capture does once its directory is there. -/
def Capture.fill (dir : Path) : Capture → Action IoError Unit
  | crash info => do
    let tarball : Except IoError Bytes ← call (.panicTarball (panicText info))
    let dump ← liftExcept tarball
    let now : Time ← call .now
    finish C config dir (fun attachments => (crash info).metadata C config now attachments) dump
  | minidump dump => do
    let now : Time ← call .now
    finish C config dir (fun attachments => (minidump dump).metadata C config now attachments) dump

theorem Capture.write_eq (capture : Capture) : capture.write C config = (do
    let u : Uuid ← call .newUuid
    file id (.createDirAll (config.entry u))
    capture.fill C config (config.entry u)) := by
  cases capture with
  | crash info => rfl
  | minidump dump => rfl

/-- A capture ends with its dump, or it comes to its files. -/
theorem fill_some {capture : Capture} {n : Nat} (hn : w.history.length = n + 2)
    (h : (capture.fill C config entry).alone env i w = some (r, u)) :
    (∃ e, r = .error e ∧ u.state = w.state) ∨ ∃ dump v, capture.dump env n = .ok dump ∧ v.state = w.state ∧
      (finish C config entry (fun ms => capture.metadata C config (capture.moment env n) ms) dump).alone env i v =
        some (r, u) := by
  cases capture with
  | minidump dump =>
    unfold Capture.fill at h
    rw [alone_now, hn] at h
    exact .inr ⟨dump, called i w .now (env.clock (n + 2)), rfl, rfl, h⟩
  | crash info =>
    unfold Capture.fill at h
    rw [alone_panicTarball, hn] at h
    obtain ⟨r', v, hlift, h⟩ := bind_some h
    obtain ⟨rfl, rfl⟩ := lift_some hlift
    cases htarball : env.tarball (n + 2) (panicText info) with
    | error e =>
      simp only [htarball] at h
      exact .inl ⟨e, h.1, by rw [h.2]; rfl⟩
    | ok dump =>
      simp only [htarball] at h
      rw [alone_now, called_calls, hn] at h
      exact .inr ⟨dump, called i (called i w (.panicTarball (panicText info)) (.ok dump)) .now (env.clock (n + 3)),
        htarball, rfl, h⟩

/-- An entry that was finished holds the copies and its own files. -/
theorem finish_ok {metadata : List AttachmentManifest → CrashMetadata} {dump : Bytes}
    (h : (finish C config entry metadata dump).alone env i w = some (.ok (), u)) (hw : w.state.disk.Tidy entry)
    (hout : ∀ f ∈ config.contextFiles, ¬ entry <+: components f) :
    u.state.disk.content = stored entry (contextCopies w.state.disk.content 0 config.contextFiles ++
      ownFiles C config (metadata (contextManifests w.state.disk.content 0 config.contextFiles)) dump)
      w.state.disk.content := by
  obtain ⟨r, v, hcopy, h⟩ := bind_some h
  cases r with
  | error e => cases h.1
  | ok ms =>
    have hv := copyContextFiles_writing hw hcopy
    obtain ⟨-, rfl, hcontent⟩ := copyContextFiles_ok hw hout hcopy
    rw [writeEntry_ok hv.tidy h, hcontent, stored_append]

theorem entry_made (hw : Prepared config env w) {uuid : Uuid} (huuid : env.uuid w.history.length = some uuid)
    {v : ClientState ι} (hv : v.state = w.state) {x : Unit}
    (h : (execFile env v.history.length (.createDirAll (config.entry uuid)) v.state.disk).1 = .ok x) :
    (after env i v (.createDirAll (config.entry uuid))).state.disk.Tidy (config.entry uuid) ∧
      (after env i v (.createDirAll (config.entry uuid))).state.disk.content = w.state.disk.content := by
  rw [after_disk, (execFile_ok h).2.2, hv]
  exact ⟨Disk.Tidy.of_free hw.numbered (hw.free uuid huuid), rfl⟩

/-- **The files of the entry that a capture leaves.** -/
theorem capture_ok {capture : Capture} (hw : Prepared config env w)
    (h : (capture.write C config).alone env i w = some (.ok (), u)) : ∃ uuid dump,
      env.uuid w.history.length = some uuid ∧ capture.dump env w.history.length = .ok dump ∧
      u.state.disk.content = stored (config.entry uuid)
        (capture.files C config w.state.disk.content (capture.moment env w.history.length) dump)
        w.state.disk.content := by
  rw [Capture.write_eq] at h
  obtain ⟨uuid, huuid, h⟩ := newUuid_some h
  rcases file_some h with ⟨_, hdir, h⟩ | ⟨e, -, hr, -⟩
  · obtain ⟨htidy, hcontent⟩ := entry_made (i := i) hw huuid (v := called i w .newUuid uuid) rfl hdir
    rcases fill_some rfl h with ⟨e, hr, -⟩ | ⟨dump, v, hdump, hv, h⟩
    · cases hr
    · rw [← hv] at htidy hcontent
      have hfiles := finish_ok h htidy (hw.out huuid)
      rw [hcontent] at hfiles
      exact ⟨uuid, dump, huuid, hdump, hfiles⟩
  · cases hr

end Whole

end Steps

end Detritus.Client
