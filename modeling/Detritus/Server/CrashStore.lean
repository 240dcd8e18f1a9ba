import Mathlib.Data.List.Forall2
import Detritus.Protocol.Envelope
import Detritus.Server.Confinement
import Detritus.Server.Cycles

/-! The crash store as a whole.

Uploads and cycles keep to their contracts, each call of one is within what the others
rely on, and a prepared store satisfies the invariant: what was proved of each task
holds of all of them together (`specification`). The results are about that system:
which indexes have their blobs, and what a store without a janitor is. -/
namespace Detritus.Server
open Files Protocol Process Contract Discipline

namespace CrashSystem
variable {ι : Type} [DecidableEq ι] {Y : CrashSystem ι} {w : ServerState ι}

/-! ### The tasks together -/

variable (Y) in
/-- What a task leaves. -/
def Left (i : ι) (r : Reply) (w : ServerState ι) : Prop :=
  Y.Inv w ∧ ∀ token headers body, Y.jobs i = .upload token headers body →
    ∃ result, r = .upload result ∧ Y.Ended i headers body result w

theorem left_stable (i : ι) (r : Reply) : (Y.contract i).Stable (Y.Left i r) := by
  intro s t hr h
  refine ⟨(hr h.1).1, fun token headers body hjob => ?_⟩
  obtain ⟨result, he, hended⟩ := h.2 token headers body hjob
  exact ⟨result, he, ended_stable s t hr hended⟩

theorem program_holds {i : ι} {s : ServerState ι} (hs : Y.Idle i s) :
    (Y.contract i).Holds (Y.Left i) (Y.program (Y.jobs i)) s := by
  cases hjob : Y.jobs i with
  | upload token headers body =>
    refine Holds.andThen (crashesHandler_holds hjob hs) fun r t ht => ?_
    refine Holds.done (left_stable i _) ⟨ht.inv, fun token' headers' body' hj => ⟨r, rfl, ?_⟩⟩
    obtain ⟨-, rfl, rfl⟩ := Job.upload.inj (hjob.symm.trans hj)
    exact ht
  | cycle config =>
    refine Holds.andThen (runJanitorCycle_yields hs) fun r t ht => ?_
    have idle : Y.Idle i t := by cases r <;> exact ht
    exact Holds.done (left_stable i _) ⟨idle.inv, fun _ _ _ hj => absurd (hjob.symm.trans hj) (by simp)⟩

variable (Y) in
def specification : Y.pool.Specification Y.Patient where
  rely i := (Y.contract i).rely
  guarantee i := (Y.contract i).guarantee
  refl i := (Y.contract i).refl
  trans i := (Y.contract i).trans
  head _ v := v.elim
  result := Y.Left
  within i j hij s t hg hs := by
    obtain ⟨ht, hm, -⟩ := hg hs
    exact ⟨ht, hm j (Ne.symm hij)⟩
  stops _ _ _ hs := absurd hs (by simp [pool])

theorem specification_turns : Y.specification.Turns := fun _ v => v.elim

/-! ### The start -/

omit [DecidableEq ι] in
/-- A prepared store has no file and no directory where a blob would be. -/
theorem inv_initial (now : Time) (buckets : Buckets) : Y.Inv (Y.initial now buckets) := by
  have hfile : ∀ p, (Y.app.storage.prepare now .empty).file p = none := fun _ => rfl
  have hshort : ∀ p, ((Y.app.storage.prepare now .empty).dir p).isSome = true →
      p.length ≤ Y.app.storage.dataDir.length + 2 := by
    intro p hp
    simp only [StoragePaths.prepare, Disk.createDirAll_dir, Y.app.storage.logsDir_eq, Y.app.storage.byHash_eq,
      Y.app.storage.bySource_eq, Y.app.storage.tmpDir_eq, Disk.empty, Option.isSome_none, Bool.false_eq_true,
      or_false] at hp
    rcases hp with hp | hp | hp | hp
    all_goals
      have hlen := hp.length_le
      simp only [List.length_append, List.length_cons, List.length_nil] at hlen
      omega
  have hdirs : Y.Dirs (Y.app.storage.prepare now .empty) := by
    refine ⟨fun s => ?_, fun p _ hp => ?_⟩
    · rw [← Bool.not_eq_true]
      intro hp
      have hlen := hshort _ hp
      rw [blob, Y.app.storage.blobPath_eq, List.length_append] at hlen
      simp only [List.length_cons, List.length_nil] at hlen
      omega
    · have hlen := hshort p hp
      rw [indexDepth, Y.app.storage.bySource_eq, List.length_append]
      simp only [List.length_cons, List.length_nil]
      omega
  refine ⟨⟨?_, ?_, ?_, ?_, ?_, hdirs⟩, ⟨?_, ?_, .nil, ?_, ?_, ?_, ?_⟩, ⟨?_, ?_, ?_, ?_, ?_, ?_, ?_, ?_⟩⟩
  all_goals simp [hfile, Issued, Linked, Finalized, Took, Found, Lost, Opened, Disk.content, initial]

theorem start_at (now : Time) (buckets : Buckets) :
    Y.specification.At (Y.pool.start (Y.initial now buckets)) := by
  intro i p hp
  obtain rfl := Option.some.inj hp
  refine Holds.bind ((program_holds ⟨inv_initial now buckets, by simp [Answered, initial],
    by simp [Opened, initial]⟩).mono ?_)
  exact fun r t ht u hu => left_stable i r t u hu ht

theorem reach_inv {now : Time} {buckets : Buckets} {c : Config Y.pool}
    (h : (Y.pool.start (Y.initial now buckets)).Reach Y.Patient c) : Y.Inv c.world :=
  Y.specification.reach_invariant specification_turns Y.Inv (fun _ _ _ hs hg => (hg hs).1) h
    (start_at now buckets) (inv_initial now buckets)

/-! ### Indexes and their blobs -/

variable (Y) in
/-- No upload is between its first and its last step. -/
def AtRest (c : Config Y.pool) : Prop :=
  ∀ i token headers body, Y.jobs i = .upload token headers body →
    (∀ e ∈ c.world.history, e.task ≠ i) ∨ ∃ r, c.Finished i r

variable (Y) in
/-- Every file below `by-source` is the index that an upload wrote and was answered 201 for, and the blobs that the
index points to are there. -/
def NoDangling (c : Config Y.pool) : Prop :=
  ∀ q, Y.app.storage.bySource <+: q → (c.world.state.disk.file q).isSome = true →
    ∃ i x r, c.Finished i (.upload (.ok (201, r))) ∧ Wrote i (Y.encode x) c.world.history ∧
      c.world.state.disk.content q = some (Y.encode x) ∧ Y.Backed x c.world.state.disk

/-- **Indexes have their blobs**, if every cycle is patient and no index file is opened twice before it is
written. -/
theorem patient_noDangling (hj : PrettyLawful Y.crates.json) {now : Time} {buckets : Buckets} {c : Config Y.pool}
    (h : (Y.pool.start (Y.initial now buckets)).Reach Y.Patient c)
    (hsep : Separate Y.app.storage c.world.history) (hrest : Y.AtRest c) : Y.NoDangling c := by
  have hat := Y.specification.reach_at specification_turns h (start_at now buckets)
  have hw := reach_inv h
  intro q hq hfile
  obtain ⟨n, hn⟩ := Option.isSome_iff_exists.mp hfile
  obtain ⟨e, R⟩ := hw.stored.recent q n hq hn
  -- who called last on the file is an upload, and has ended
  obtain ⟨token, headers, body, hjob⟩ := hw.ledger.openers e.task R.opener
  obtain ⟨f, hf, hft, -⟩ := R.opener
  obtain ⟨reply, hfin⟩ := (hrest e.task token headers body hjob).resolve_left fun hnone => hnone f hf hft
  obtain ⟨result, rfl, hended⟩ := (Y.specification.finished_result hat hfin).2 token headers body hjob
  cases result with
  | error error => exact absurd R.opener (hended.refused error rfl)
  | ok answer =>
    obtain ⟨⟨-, -, -, index, -, -, -, rfl⟩, hclosed⟩ := hended.stored answer rfl
    rcases R.settled hsep with ⟨hopens, -⟩ | ⟨-, x, hx, hwrote⟩
    · rw [hclosed n e R.last rfl] at hopens
      cases hopens
    · have hcontent : c.world.state.disk.content q = some (Y.encode x) := by
        rw [Disk.content, hn, Option.map_some, hx]
      exact ⟨e.task, x, _, hfin, hwrote, hcontent, hw.stored.backed hj q x hq hcontent⟩

/-! ### Runs that keep to the conditions -/

section Check
variable {i : ι} {h : List (ServerEvent ι)}

/-- The call writes these bytes. -/
def stores (i : ι) (bytes : Bytes) : ServerEvent ι → Bool
  | ⟨j, .file (.write _ b), _⟩ => j = i && b = bytes
  | _ => false

theorem wrote_iff {bytes : Bytes} : Wrote i bytes h ↔ ∃ e ∈ h, stores i bytes e = true := by
  constructor
  · rintro ⟨handle, x, hm⟩
    exact ⟨_, hm, by simp [stores]⟩
  · rintro ⟨e, hm, he⟩
    unfold stores at he
    split at he
    · next handle b x =>
      simp only [Bool.and_eq_true, decide_eq_true_eq] at he
      obtain ⟨rfl, rfl⟩ := he
      exact ⟨handle, x, hm⟩
    · cases he

/-- The path at which a call may have seen a blob. -/
def sees : ServerOp → Option Path
  | .file (.tryExists p) => some p
  | .file (.hardLink _ p) => some p
  | _ => none

variable (Y) in
/-- Who may have seen the file that is removed had answered before the cycle listed the indexes. -/
def patiently (k : ι) (op : ServerOp) (w : ServerState ι) : Bool :=
  match op with
  | .file (.removeFile p) => w.history.all fun e => sees e.op ≠ some p ||
      (upTo (lists Y.app.storage k) w.history).any fun f => f.task = e.task && answers f
  | _ => true

theorem patient_of_patiently {op : ServerOp} (hp : Y.patiently i op w = true) : Y.Patient i op w := by
  unfold Patient
  split
  · next p =>
    rintro d rfl j htook
    obtain ⟨e, he, hsees, rfl⟩ : ∃ e ∈ w.history, sees e.op = some (Y.blob d) ∧ e.task = j := by
      rcases htook with hm | ⟨temp, hm⟩ | ⟨temp, hm⟩
      all_goals exact ⟨_, hm, rfl, rfl⟩
    have hall := List.all_eq_true.mp hp e he
    rw [hsees] at hall
    obtain ⟨f, hf, htask, hanswers⟩ : ∃ f ∈ upTo (lists Y.app.storage i) w.history,
        f.task = e.task ∧ answers f = true := by simpa using hall
    exact answered_iff.mpr ⟨f, hf, hanswers, htask⟩
  · trivial

end Check

/-! ### A sweep between a link and an index

An upload of the bytes `abc`, and what the other crates make of it. -/

/-- SHA-256 of `abc` -/
def abcDigest : Sha256 :=
  ⟨[0xba, 0x78, 0x16, 0xbf, 0x8f, 0x01, 0xcf, 0xea, 0x41, 0x41, 0x40, 0xde, 0x5d, 0xae, 0x22, 0x23,
    0xb0, 0x03, 0x61, 0xa3, 0x96, 0x17, 0x7a, 0x9c, 0xb4, 0x10, 0xff, 0x61, 0xf2, 0x00, 0x15, 0xad], rfl⟩

/-- SHA-256 of no bytes -/
def emptyDigest : Sha256 :=
  ⟨[0xe3, 0xb0, 0xc4, 0x42, 0x98, 0xfc, 0x1c, 0x14, 0x9a, 0xfb, 0xf4, 0xc8, 0x99, 0x6f, 0xb9, 0x24,
    0x27, 0xae, 0x41, 0xe4, 0x64, 0x9b, 0x93, 0x4c, 0xa4, 0x95, 0x99, 0x1b, 0x78, 0x52, 0xb8, 0x55], rfl⟩

def abcMetadata : CrashMetadata := CrashEnvelope.abcReport.metadata

def abcField : Field := ⟨some "dump", none, none, [[0x61, 0x62, 0x63]], none⟩

/-- The text and the fields of this upload only; JSON is as it is written. -/
def abcCrates : Crates where
  sha256 b := if b = abcField.bytes then abcDigest else emptyDigest
  json := ⟨JsonText.print .compact 0, JsonText.print .pretty 0, JsonText.read, fun _ => .ok abcMetadata⟩
  parseBoundary _ := some "X"
  multipart _ _ :=
    ⟨[⟨some "metadata", none, none, [JsonText.print .compact 0 abcMetadata.toJson], none⟩, abcField], none⟩

/-- Identifiers that differ in their first byte. -/
def abcEnv : Env where
  uuid := Uuid.numbered
  fresh := Uuid.numbered_fresh
  clock n := 1767323045000000000 + n
  instant n := n
  order _ := ⟨id, fun l => .refl l⟩

/-- The bytes `abc` with some metadata. -/
def bodyOf (metadata : CrashMetadata) : Bytes :=
  utf8 "--X\r\nContent-Disposition: form-data; name=\"metadata\"\r\n\r\n" ++
    JsonText.print .compact 0 metadata.toJson ++
    utf8 "\r\n--X\r\nContent-Disposition: form-data; name=\"dump\"\r\n\r\nabc\r\n--X--\r\n"

def abcBody : Bytes := bodyOf abcMetadata

def abcApp : AppState := ⟨⟨["data"]⟩, 1024, .default, .empty⟩

def abcToken : TokenContext := ⟨"token", "app", "app/", ""⟩

def abcHeaders : Headers := ⟨some (some "multipart/form-data; boundary=X")⟩

def abcUpload : Job := .upload abcToken abcHeaders ⟨[abcBody], false⟩

def abcSystem {ι : Type} (jobs : ι → Job) : CrashSystem ι := ⟨abcCrates, abcApp, abcEnv, jobs, 8⟩

/-- The upload beside a cycle that keeps everything for thirty days. -/
def abcSweep : CrashSystem Bool := abcSystem fun i => if i then abcUpload else .cycle ⟨30, 30⟩

def abcIndex : CrashIndex :=
  ⟨abcMetadata, ⟨abcDigest.hex, 3, Path.display (["crashes", "by-hash", "ba", abcDigest.hex ++ ".bin"]), false, none⟩, []⟩

def abcIndexPath : Path := abcSweep.app.storage.indexPath ⟨"app", abcMetadata.source.installId.toString⟩
  abcMetadata.timestamp.format abcDigest.hex

theorem abc_prettyLawful : PrettyLawful abcCrates.json where
  read v := by
    show (JsonText.read (JsonText.print .pretty 0 v)).bind indexRef = indexRef v
    rw [JsonText.read_print]
    rfl
  separate _ _ := JsonText.print_separate

def abcStart {ι : Type} (Y : CrashSystem ι) : Config Y.pool := Y.pool.start (Y.initial 0 fun _ => none)

/-- The upload links its blob, the cycle takes its list of blobs and lists the indexes, the
upload ends, the cycle sweeps. -/
def abcMoves : List (Move Bool) :=
  List.replicate 12 (.run true) ++ List.replicate 7 (.run false) ++ List.replicate 5 (.run true) ++
    List.replicate 2 (.run false)

/-- The upload was answered 201, the cycle has removed a blob of three bytes, and the blob
that the index points to is not there. -/
theorem abc_dangles : ∃ c, (abcStart abcSweep).Reach (fun _ _ _ => True) c ∧ abcSweep.AtRest c ∧
    c.Finished true (.upload (.ok (201, ⟨abcDigest.hex, false⟩))) ∧
    c.Finished false (.cycle (.ok ⟨0, 0, 1, 3⟩)) ∧ Wrote true (abcSweep.encode abcIndex) c.world.history ∧
    c.world.state.disk.content abcIndexPath = some (abcSweep.encode abcIndex) ∧
    ¬ abcSweep.Backed abcIndex c.world.state.disk := by
  obtain ⟨c, hreach, hc⟩ : ∃ c, (abcStart abcSweep).Reach (fun _ _ _ => True) c ∧ _ = true :=
    Config.runs_any (fun _ _ _ _ => trivial) abcMoves (fun c : Config abcSweep.pool =>
      c.result true = some (.upload (.ok (201, ⟨abcDigest.hex, false⟩))) &&
        c.result false = some (.cycle (.ok ⟨0, 0, 1, 3⟩)) &&
        c.world.history.any (stores true (abcSweep.encode abcIndex)) &&
        c.world.state.disk.content abcIndexPath = some (abcSweep.encode abcIndex) &&
        c.world.state.disk.file (abcSweep.blob abcDigest) = none)
    (show ((abcStart abcSweep).runs (fun _ _ _ => true) abcMoves).any _ = true by decide +kernel)
  simp only [Bool.and_eq_true, decide_eq_true_eq] at hc
  obtain ⟨⟨⟨⟨hupload, hcycle⟩, hwrote⟩, hindex⟩, hblob⟩ := hc
  refine ⟨c, hreach, fun i _ _ _ hjob => ?_, Config.finished_of_result hupload, Config.finished_of_result hcycle,
    wrote_iff.mpr (List.any_eq_true.mp hwrote), hindex, fun h => ?_⟩
  · cases i with
    | true => exact .inr ⟨_, Config.finished_of_result hupload⟩
    | false => cases hjob
  · have hsome := h abcDigest.hex (.head _)
    rw [show abcSweep.app.storage.blobPath abcDigest.hex = abcSweep.blob abcDigest from rfl, hblob] at hsome
    exact absurd hsome (by decide)

/-- The upload, a cycle that keeps no index, and the upload once more. -/
def abcThrice : CrashSystem (Fin 3) := abcSystem fun i => if i = 1 then .cycle ⟨30, 0⟩ else abcUpload

/-- The cycle removes the index and its blob, and the second upload brings them back. -/
theorem patient_noDangling_abc : ∃ c, (abcStart abcThrice).Reach abcThrice.Patient c ∧
    c.Finished 0 (.upload (.ok (201, ⟨abcDigest.hex, false⟩))) ∧
    c.Finished 1 (.cycle (.ok ⟨0, 1, 1, 688⟩)) ∧
    c.Finished 2 (.upload (.ok (201, ⟨abcDigest.hex, false⟩))) ∧
    c.world.state.disk.content abcIndexPath = some (abcThrice.encode abcIndex) ∧ abcThrice.NoDangling c := by
  obtain ⟨c, hreach, hc⟩ := Config.runs_any (fun _ _ _ => patient_of_patiently)
    (List.replicate 17 (.run 0) ++ List.replicate 14 (.run 1) ++ List.replicate 17 (.run 2))
    (fun c : Config abcThrice.pool =>
      c.result 0 = some (.upload (.ok (201, ⟨abcDigest.hex, false⟩))) &&
        c.result 1 = some (.cycle (.ok ⟨0, 1, 1, 688⟩)) &&
        c.result 2 = some (.upload (.ok (201, ⟨abcDigest.hex, false⟩))) &&
        c.world.state.disk.content abcIndexPath = some (abcThrice.encode abcIndex) &&
        Separate abcThrice.app.storage c.world.history)
    (show ((abcStart abcThrice).runs abcThrice.patiently _).any _ = true by decide +kernel)
  simp only [Bool.and_eq_true, decide_eq_true_eq] at hc
  obtain ⟨⟨⟨⟨hfirst, hcycle⟩, hsecond⟩, hindex⟩, hsep⟩ := hc
  have hrest : abcThrice.AtRest c := by
    intro i token headers body hjob
    have hthree : ∀ i : Fin 3, i = 0 ∨ i = 1 ∨ i = 2 := by decide
    rcases hthree i with rfl | rfl | rfl
    · exact .inr ⟨_, Config.finished_of_result hfirst⟩
    · cases hjob
    · exact .inr ⟨_, Config.finished_of_result hsecond⟩
  exact ⟨c, hreach, Config.finished_of_result hfirst, Config.finished_of_result hcycle,
    Config.finished_of_result hsecond, hindex, patient_noDangling abc_prettyLawful hreach hsep hrest⟩

/-! ### Without a janitor -/

variable (Y) in
/-- The sources an upload may be for. -/
def Serves (i : ι) (source : SourceKey) (_ : List (ServerEvent ι)) : Prop :=
  ∃ token headers body, Y.jobs i = .upload token headers body ∧ source.Valid ∧ token.permits source = true

variable (Y) in
def reachable : Discipline serverInterface ι :=
  confinement Y.app.storage ⟨Y.Serves, fun _ h => h, fun _ _ _ => True, fun _ _ _ => True, fun _ => []⟩

omit [DecidableEq ι] in
theorem start_kept (hup : ∀ i, ∃ token headers body, Y.jobs i = .upload token headers body) (w : ServerState ι) :
    Y.reachable.Kept (fun _ _ _ => True) (Y.pool.start w) := by
  intro i p hp
  obtain rfl := Option.some.inj hp
  obtain ⟨token, headers, body, hjob⟩ := hup i
  show Y.reachable.Obeys i _ (Y.program (Y.jobs i) >>= _) _
  rw [hjob]
  refine Obeys.bind (Q := fun _ _ => True) (Obeys.bind (Q := fun _ _ => True)
    (crashesHandler_obeys ⟨fun source hv hp _ => ?_, fun _ _ _ _ => trivial⟩) fun _ _ _ _ => trivial)
    fun _ _ _ _ => trivial
  exact ⟨token, headers, body, hjob, hv, hp⟩

/-- Uploads alone are patient: they remove no blob. -/
theorem uploads_patient {c d : Config Y.pool} (hc : Y.reachable.Kept (fun _ _ _ => True) c)
    (h : c.Reach (fun _ _ _ => True) d) : c.Reach Y.Patient d ∧ Y.reachable.Kept (fun _ _ _ => True) d ∧
      ((∀ s, ¬ Removed Y.app.storage s c.world.history) → ∀ s, ¬ Removed Y.app.storage s d.world.history) := by
  obtain ⟨hr, hd⟩ := Discipline.reach_may (P := Y.pool) (M := World.exec Y.env) rfl (fun _ _ => rfl) exec_fits
    (fun _ _ _ _ _ _ => trivial) (fun _ v => v.elim) h hc
  have temp_only : ∀ i p w, Y.reachable.may i (.file (.removeFile p)) w → ∀ s, p ≠ Y.blob s := by
    rintro i p w ⟨u, rfl⟩ s he
    exact blob_ne_temp s u he.symm
  refine ⟨hr.mono fun i op s hm => ?_, hd, fun h0 => ?_⟩
  · unfold Patient
    split
    · exact fun d hp => absurd hp (temp_only i _ _ hm d)
    · trivial
  · refine hr.invariant (fun w => ∀ s, ¬ Removed Y.app.storage s w.history) ?_
      (fun _ _ _ hs => absurd hs (by simp [pool])) h0
    rintro i op w x w' hm hx hw s ⟨j, hmem⟩
    obtain ⟨-, hh⟩ := record_eq_some.mp hx
    rw [hh] at hmem
    rcases List.mem_cons.mp hmem with he | hmem
    · obtain ⟨-, rfl, -⟩ := Event.mk.inj he
      exact temp_only i _ _ hm s rfl
    · exact hw s ⟨j, hmem⟩

variable (Y) in
/-- A pointer leads to the bytes of a part. -/
structure Leads (d : Disk) (bytes : Bytes) (sha256 path : String) (len : Nat) : Prop where
  path : Y.app.storage.dataDir.join path = Y.app.storage.blobPath sha256
  content : d.content (Y.app.storage.blobPath sha256) = some bytes
  len : len = bytes.length

omit [DecidableEq ι] in
theorem Points.leads {i : ι} {bytes : Bytes} {p : BlobPointer} (hw : Y.Inv w)
    (hsha : ∀ a b, Y.Part a → Y.Part b → Y.crates.sha256 a = Y.crates.sha256 b → a = b) (hb : Y.Part bytes)
    (hr : ∀ s, ¬ Removed Y.app.storage s w.history) (hp : Y.Points i bytes p w.history) :
    Y.Leads w.state.disk bytes p.sha256 p.path p.len := by
  obtain ⟨n, hn⟩ := Option.isSome_iff_exists.mp ((hw.stored.kept i _ hp.took).resolve_right (hr _))
  obtain ⟨s, -, -, hs, -, -, hc, hpart⟩ := hw.names.blob _ n (Y.app.storage.byHash_blobPath _) hn
  obtain rfl := blob_injective hs
  refine ⟨by rw [hp.path, hp.sha256]; rfl, ?_, hp.len⟩
  rw [hp.sha256]
  show (w.state.disk.file (Y.blob (Y.crates.sha256 bytes))).map _ = _
  rw [hn, Option.map_some, hsha _ _ hpart hb hc]

omit [DecidableEq ι] in
/-- A digest is reported new at most once. -/
theorem reports_le_one {d : Sha256} (hw : Y.Inv w) (hr : ¬ Removed Y.app.storage d w.history) :
    w.history.countP (reports d.hex false) ≤ 1 := by
  have linked : ∀ e ∈ w.history, reports d.hex false e = true → ∃ i temp, e = ⟨i, .finalized temp d.hex false, ()⟩ ∧
      Linked Y.app.storage i temp d w.history := by
    intro e he hrep
    obtain ⟨i, temp, rfl⟩ := reports_iff.mp hrep
    obtain ⟨u, s, -, hs, -, -, hl⟩ := hw.ledger.finalized i temp d.hex false he
    obtain rfl := Sha256.hex_injective hs
    exact ⟨i, temp, rfl, hl.mp rfl⟩
  rcases Nat.eq_zero_or_pos (w.history.countP (reports d.hex false)) with h0 | hpos
  · rw [h0]
    exact Nat.zero_le _
  · obtain ⟨e, he, hrep⟩ := List.countP_pos_iff.mp hpos
    obtain ⟨i, temp, rfl, hl⟩ := linked e he hrep
    -- all of them are about the one temporary file that was linked
    refine le_trans (List.countP_mono_left fun f hf hrep' => ?_) (hw.ledger.once temp)
    obtain ⟨j, temp', rfl, hl'⟩ := linked f hf hrep'
    obtain rfl := hw.stored.single d i j temp temp' hr hl hl'
    simp [finishes]

omit [DecidableEq ι] in
/-- Once every call for a digest has returned, one of them has reported it new. -/
theorem reports_pos {d : Sha256} (hw : Y.Inv w) (hr : ¬ Removed Y.app.storage d w.history)
    (hsome : ∃ i temp, Began i temp d.hex w.history)
    (hall : ∀ i temp, Began i temp d.hex w.history → ∃ b, Finalized i temp d.hex b w.history) :
    0 < w.history.countP (reports d.hex false) := by
  obtain ⟨i, temp, hbegan⟩ := hsome
  obtain ⟨b, hfin⟩ := hall i temp hbegan
  obtain ⟨-, s, -, hs, -, htook, -⟩ := hw.ledger.finalized i temp d.hex b hfin
  obtain rfl := Sha256.hex_injective hs
  obtain ⟨n, hn⟩ := Option.isSome_iff_exists.mp ((hw.stored.kept i _ htook).resolve_right hr)
  obtain ⟨s, u, j, hs, -, hl, -, -⟩ := hw.names.blob _ n (Y.app.storage.byHash_blobPath _) hn
  obtain rfl := blob_injective hs
  -- the call that linked the blob has returned too
  obtain ⟨-, -, -, hbegan'⟩ := hw.ledger.linked j _ d hl
  obtain ⟨b', hfin'⟩ := hall j _ hbegan'
  obtain ⟨-, s, -, hs, -, -, hflag⟩ := hw.ledger.finalized j _ d.hex b' hfin'
  obtain rfl := Sha256.hex_injective hs
  obtain rfl := hflag.mpr hl
  exact List.countP_pos_iff.mpr ⟨_, hfin', reports_iff.mpr ⟨j, _, rfl⟩⟩

/-- **The store under uploads alone.** A file under `by-hash` has the content that its name
is the digest of, for good; a digest is reported new once; a temporary file is gone when
its call has returned; and the pointers of an upload that was answered 201 lead to the
bytes of its parts, in their order. -/
theorem uploads_contentAddressed (hup : ∀ i, ∃ token headers body, Y.jobs i = .upload token headers body)
    (hsha : ∀ a b, Y.Part a → Y.Part b → Y.crates.sha256 a = Y.crates.sha256 b → a = b) {now : Time}
    {buckets : Buckets} {c : Config Y.pool}
    (h : (Y.pool.start (Y.initial now buckets)).Reach (fun _ _ _ => True) c) :
    (∀ q content, Y.app.storage.byHash <+: q → c.world.state.disk.content q = some content →
      q = Y.app.storage.blobPath (Y.crates.sha256 content).hex ∧ Y.Part content ∧
        ∀ c' : Config Y.pool, c.Reach (fun _ _ _ => True) c' → c'.world.state.disk.content q = some content) ∧
    (∀ d : Sha256, c.world.history.countP (reports d.hex false) ≤ 1 ∧
      ((∃ i temp, Began i temp d.hex c.world.history) →
        (∀ i temp, Began i temp d.hex c.world.history → ∃ b, Finalized i temp d.hex b c.world.history) →
          c.world.history.countP (reports d.hex false) = 1)) ∧
    (∀ i temp sha b, Finalized i temp sha b c.world.history → c.world.state.disk.file temp = none) ∧
    ∀ i token headers body x, Y.jobs i = .upload token headers body → c.Finished i (.upload (.ok x)) →
      ∃ multipart metadata fields index f, openMultipart Y.crates headers body = .ok multipart ∧
        readFirst Y.crates multipart = .ok (metadata, fields) ∧ Wrote i (Y.encode index) c.world.history ∧
        fields.filter Field.isDump = [f] ∧
        Y.Leads c.world.state.disk f.bytes index.dump.sha256 index.dump.path index.dump.len ∧
        List.Forall₂ (fun g a => Y.Leads c.world.state.disk g.bytes a.sha256 a.path a.len)
          (fields.filter Field.isAttachment) index.attachments := by
  obtain ⟨hr, hkept, hrem⟩ := uploads_patient (start_kept hup _) h
  have hat := Y.specification.reach_at specification_turns hr (start_at now buckets)
  have hw := reach_inv hr
  replace hrem := hrem (by simp [Removed, Pool.start, initial])
  refine ⟨fun q content hq hc => ?_, fun d => ⟨reports_le_one hw (hrem d), fun hsome hall => ?_⟩,
    hw.stored.closed, fun i token headers body x hjob hfin => ?_⟩
  · obtain ⟨n, hn, rfl⟩ := Option.map_eq_some_iff.mp hc
    obtain ⟨s, u, j, rfl, -, -, rfl, hpart⟩ := hw.names.blob q n hq hn
    refine ⟨rfl, hpart, fun c' h' => ?_⟩
    obtain ⟨hr', -, hrem'⟩ := uploads_patient hkept h'
    have hevolves := Y.specification.reach_related specification_turns
      (fun s t => Y.Inv s → Y.Inv t ∧ Evolves Y s t) (fun s hs => ⟨hs, .refl s⟩)
      (fun i s t u hst hg hs => ⟨(hg (hst hs).1).1, (hst hs).2.trans (hg (hst hs).1).2.2⟩) hr' hat hw
    obtain ⟨hn', hi⟩ := (hevolves.2.blob _ n hn).resolve_right (hrem' hrem _)
    show (c'.world.state.disk.file _).map _ = _
    rw [hn', Option.map_some, hi]
  · exact le_antisymm (reports_le_one hw (hrem d)) (reports_pos hw (hrem d) hsome hall)
  · obtain ⟨-, hleft⟩ := Y.specification.finished_result hat hfin
    obtain ⟨_, hresult, hended⟩ := hleft token headers body hjob
    obtain rfl := Reply.upload.inj hresult
    obtain ⟨⟨multipart, metadata, fields, index, hm, hf, hidx, -⟩, -⟩ := hended.stored x rfl
    have hpart : ∀ f ∈ fields, Y.Part f.bytes := fun f hmem =>
      ⟨i, f, by rw [hjob, CrashSystem.fields, hm]; exact readFirst_fields Y.crates hf hmem, rfl⟩
    obtain ⟨f, hdump, hp⟩ := hidx.dump
    have hmem : f ∈ fields := (List.mem_filter.mp (hdump ▸ List.mem_singleton_self f)).1
    refine ⟨multipart, metadata, fields, index, f, hm, hf, hidx.wrote, hdump,
      hp.leads hw hsha (hpart f hmem) hrem, ?_⟩
    refine ((List.forall₂_and_left _ _).mpr ⟨fun g hg => hpart g (List.mem_filter.mp hg).1, hidx.attachments⟩).imp ?_
    rintro g a ⟨hg, key, p, rfl, hp⟩
    exact hp.leads hw hsha hg hrem

/-- The upload twice, at the same time. -/
def abcTwice : CrashSystem Bool := abcSystem fun _ => abcUpload

theorem abc_part {b : Bytes} (h : abcTwice.Part b) :
    b = JsonText.print .compact 0 abcMetadata.toJson ∨ b = abcField.bytes := by
  obtain ⟨i, f, hf, rfl⟩ := h
  rcases List.mem_pair.mp (show f ∈ [_, abcField] from hf) with rfl | rfl
  · exact .inl (List.append_nil _)
  · exact .inr rfl

/-- Both uploads find the blob missing, one links it, the other comes too late. -/
theorem uploads_contentAddressed_abc : ∃ c, (abcStart abcTwice).Reach (fun _ _ _ => True) c ∧
    c.Finished true (.upload (.ok (201, ⟨abcDigest.hex, false⟩))) ∧
    c.Finished false (.upload (.ok (201, ⟨abcDigest.hex, true⟩))) ∧
    c.world.history.countP (reports abcDigest.hex false) ≤ 1 := by
  obtain ⟨c, hreach, hc⟩ : ∃ c, (abcStart abcTwice).Reach (fun _ _ _ => True) c ∧ _ = true :=
    Config.runs_any (fun _ _ _ _ => trivial)
    ((List.replicate 17 [.run true, .run false]).flatten ++ [.run false]) (fun c : Config abcTwice.pool =>
      c.result true = some (.upload (.ok (201, ⟨abcDigest.hex, false⟩))) &&
        c.result false = some (.upload (.ok (201, ⟨abcDigest.hex, true⟩))))
    (show ((abcStart abcTwice).runs (fun _ _ _ => true) _).any _ = true by decide +kernel)
  simp only [Bool.and_eq_true, decide_eq_true_eq] at hc
  have hsha : ∀ a b, abcTwice.Part a → abcTwice.Part b → abcTwice.crates.sha256 a = abcTwice.crates.sha256 b →
      a = b := by
    have hmeta : JsonText.print .compact 0 abcMetadata.toJson ≠ abcField.bytes := by decide +kernel
    have hdigest : emptyDigest ≠ abcDigest := by decide
    intro a b ha hb hab
    rcases abc_part ha with rfl | rfl <;> rcases abc_part hb with rfl | rfl <;>
      simp_all [abcTwice, abcSystem, abcCrates, Ne.symm]
  exact ⟨c, hreach, Config.finished_of_result hc.1, Config.finished_of_result hc.2,
    ((uploads_contentAddressed (fun _ => ⟨_, _, _, rfl⟩) hsha hreach).2.1 abcDigest).1⟩

end CrashSystem

end Detritus.Server
