import Detritus.Files.Region
import Detritus.Server.LogExport
import Detritus.Server.Verdict

/-! Runs of the crash endpoint.

A run of the endpoint by itself comes to the verdict's answer. Until the index is written
nothing below `by-source` changes; so an upload that is refused leaves that tree as it
was, and one that is accepted adds its index and nothing else. -/
namespace Detritus.Server
open Files Protocol Process Discipline
variable {β : Type} {n : Nat}

/-! ### Runs -/

section Run
variable {ι ε : Type} {env : Env} {i : ι}

theorem alone_lift_ok {α β : Type} (a : α) (f : α → Handler ε β) (w : ServerState ι) :
    Handler.alone env i (liftExcept (.ok a) >>= f) w = (f a).alone env i w := rfl

theorem alone_lift_error {α β : Type} (e : ε) (f : α → Handler ε β) (w : ServerState ι) :
    Handler.alone env i (liftExcept (.error e) >>= f) w = some (.error e, w) := rfl

theorem ok_bind {α β : Type} (a : α) (f : α → Except ε β) : (Except.ok a >>= f) = f a := rfl

/-- A run only adds to the calls. -/
theorem alone_calls {α : Type} {p : Handler ε α} {w t : ServerState ι} {r : Except ε α}
    (h : p.alone env i w = some (r, t)) : w.history.length ≤ t.history.length := by
  obtain ⟨new, hnew, -⟩ := Obeys.run (h := []) (Obeys.of_free p.run) h
  rw [hnew, List.length_append]
  omega

/-- A file operation, at the time of the call. -/
def ServerState.execFile (env : Env) (w : ServerState ι) (op : FileOp) : op.Answer × Disk :=
  op.exec (env.clock w.history.length) (env.order w.history.length) w.state.disk

/-- The state after it. -/
def ServerState.after (env : Env) (i : ι) (w : ServerState ι) (op : FileOp) : ServerState ι :=
  ⟨{w.state with disk := (w.execFile env op).2}, ⟨i, .file op, (w.execFile env op).1⟩ :: w.history⟩

@[simp] theorem ServerState.after_disk (w : ServerState ι) (op : FileOp) :
    (w.after env i op).state.disk = (w.execFile env op).2 := rfl

@[simp] theorem ServerState.after_calls (w : ServerState ι) (op : FileOp) :
    (w.after env i op).history.length = w.history.length + 1 := rfl

/-- After a call that changes nothing. -/
def ServerState.called (w : ServerState ι) (i : ι) (op : ServerOp) (x : op.Answer) : ServerState ι :=
  ⟨w.state, ⟨i, op, x⟩ :: w.history⟩

theorem alone_call (op : ServerOp) {x : op.Answer} {w : ServerState ι}
    (h : World.exec env w.history.length op w.state = some (x, w.state)) (f : op.Answer → Handler ε β) :
    Handler.alone env i (call op >>= f) w = (f x).alone env i (w.called i op x) := alone_step h f

theorem alone_check (key : RateKey) (perMinute burst : UInt32) (f : Bool → Handler ε β) (w : ServerState ι) :
    ∃ t : ServerState ι, Handler.alone env i (call (.check key perMinute burst) >>= f) w =
        (f (w.state.buckets.check key perMinute burst (env.instant w.history.length)).1).alone env i t ∧
      t.state.disk = w.state.disk ∧ t.history.length = w.history.length + 1 := by
  have hexec : World.exec env w.history.length (.check key perMinute burst) w.state = some (_, _) := rfl
  exact ⟨_, alone_step hexec f, rfl, rfl⟩

theorem ServerState.execFile_removeFile (env : Env) (w : ServerState ι) {p : Path}
    (h : w.state.disk.file p = some n) :
    w.execFile env (.removeFile p) =
      (.ok (), (w.state.disk.unlink p).touch p (env.clock w.history.length)) := Disk.removeFile_some h

theorem ServerState.execFile_create_none (env : Env) (w : ServerState ι) {p : Path} (h : w.state.disk.file p = none) :
    w.execFile env (.create p) = ((.ok ⟨w.state.disk.next, 0, false⟩ : Except IoError Handle),
      w.state.disk.fresh p (env.clock w.history.length)) := by
  show ((.ok (w.state.disk.create p (env.clock w.history.length)).1 : Except IoError Handle),
    (w.state.disk.create p (env.clock w.history.length)).2) = _
  rw [Disk.create_none h]

theorem ServerState.execFile_hardLink (env : Env) (w : ServerState ι) {src dst : Path}
    (hs : w.state.disk.file src = some n) (hd : w.state.disk.occupied dst = false) :
    w.execFile env (.hardLink src dst) =
      (.ok (), (w.state.disk.link dst n).touch dst (env.clock w.history.length)) := Disk.hardLink_ok hs hd

theorem alone_attempt (op : FileOp) (f : op.Answer → Handler ε β) (w : ServerState ι) :
    Handler.alone env i (attempt op >>= f) w = (f (w.execFile env op).1).alone env i (w.after env i op) :=
  alone_step (show World.exec env w.history.length (.file op) w.state = some (_, _) from rfl) f

theorem alone_file (op : FileOp) {wrap : IoError → ε} {v : op.Value} {w : ServerState ι}
    (h : (w.execFile env op).1 = .ok v) (f : op.Value → Handler ε β) :
    Handler.alone env i (file wrap op >>= f) w = (f v).alone env i (w.after env i op) := by
  show (ExceptT.bindCont f ((w.execFile env op).1.mapError wrap)).run (execAs env i) (w.after env i op) = _
  rw [h]
  rfl

end Run

/-! ### Bodies that break off -/

/-- The bytes of a part end with an error before they exceed the limit. -/
structure CutShort (max : Nat) (f : Field) : Prop where
  failure : f.failure ≠ none
  size : f.bytes.length ≤ max

/-- Parts of which some can be stored and the next one breaks off. -/
inductive BreaksOff (max : Nat) : Bool → List Field → Prop
  | here {dumped f rest} (hf : Storable dumped f) (hcut : CutShort max f) : BreaksOff max dumped (f :: rest)
  | later {dumped f rest} (hf : Storable dumped f) (hwhole : Whole max f)
      (hrest : BreaksOff max (dumped || f.isDump) rest) : BreaksOff max dumped (f :: rest)

/-- A request that is let in and then breaks off. -/
def Interrupted (C : Crates) (state : AppState) (token : TokenContext) (admits : SourceKey → Bool)
    (headers : Headers) (body : Body) : Prop :=
  ∃ m metadata fields source, openMultipart C headers body = .ok m ∧ readFirst C m = .ok (metadata, fields) ∧
    admitSource token metadata = .ok source ∧ admits source = true ∧
    state.schemaRegistry.validate metadata.source.project .crashMetadata metadata.toJson = .ok () ∧
    BreaksOff state.maxDumpBytes false fields

theorem breaksOff_nil (max : Nat) (dumped : Bool) : ¬ BreaksOff max dumped [] := nofun

/-- The first part decides, or it is whole and the others do. -/
theorem breaksOff_cons {max : Nat} {dumped : Bool} {f : Field} {rest : List Field} :
    BreaksOff max dumped (f :: rest) ↔ Storable dumped f ∧
      (CutShort max f ∨ Whole max f ∧ BreaksOff max (dumped || f.isDump) rest) := by
  constructor
  · rintro (⟨hf, hcut⟩ | ⟨hf, hwhole, hrest⟩)
    · exact ⟨hf, .inl hcut⟩
    · exact ⟨hf, .inr ⟨hwhole, hrest⟩⟩
  · rintro ⟨hf, hcut | ⟨hwhole, hrest⟩⟩
    · exact .here hf hcut
    · exact .later hf hwhole hrest

/-! ### Temporary files -/

/-- Paths in `tmp` lead where they did. -/
def SameTemps (P : StoragePaths) (d e : Disk) : Prop := ∀ p, P.tmpDir <+: p → e.file p = d.file p

theorem SameTemps.trans {P : StoragePaths} {c d e : Disk} (h : SameTemps P c d) (h' : SameTemps P d e) :
    SameTemps P c e := fun p hp => (h' p hp).trans (h p hp)

/-- A temporary file more. -/
def LeftBehind (P : StoragePaths) (d e : Disk) : Prop :=
  ∃ u, d.file (P.tempPath u) = none ∧ e.file (P.tempPath u) ≠ none

theorem LeftBehind.after {P : StoragePaths} {c d e : Disk} (h : SameTemps P c d) (h' : LeftBehind P d e) :
    LeftBehind P c e := by
  obtain ⟨u, hnone, hsome⟩ := h'
  exact ⟨u, (h _ (P.tmpDir_tempPath u)).symm.trans hnone, hsome⟩

/-- What is left in `tmp`: a file more if a part has broken off, and otherwise what was there. -/
def TempsLeft (P : StoragePaths) (broken : Prop) (d e : Disk) : Prop :=
  SameTemps P d e ∧ ¬ broken ∨ LeftBehind P d e ∧ broken

namespace TempsLeft
variable {P : StoragePaths} {broken broken' : Prop} {c d e : Disk}

theorem refl (h : ¬ broken) : TempsLeft P broken d d := .inl ⟨fun _ _ => rfl, h⟩

theorem same (h : TempsLeft P broken d e) (hnot : ¬ broken) : SameTemps P d e :=
  h.elim (·.1) fun h => absurd h.2 hnot

theorem congr (h : TempsLeft P broken d e) (hiff : broken ↔ broken') : TempsLeft P broken' d e := by
  rwa [TempsLeft, ← hiff]

theorem after (hsame : SameTemps P c d) (h : TempsLeft P broken d e) : TempsLeft P broken c e := by
  rcases h with ⟨h, hnot⟩ | ⟨h, hbroken⟩
  · exact .inl ⟨hsame.trans h, hnot⟩
  · exact .inr ⟨h.after hsame, hbroken⟩

theorem kept (h : TempsLeft P broken c d) (hsame : SameTemps P d e) : TempsLeft P broken c e := by
  rcases h with ⟨h, hnot⟩ | ⟨⟨u, hnone, hsome⟩, hbroken⟩
  · exact .inl ⟨h.trans hsame, hnot⟩
  · exact .inr ⟨⟨u, hnone, by rwa [hsame _ (P.tmpDir_tempPath u)]⟩, hbroken⟩

end TempsLeft

section Upload
variable {ι : Type} {env : Env} {i : ι} {C : Crates} {state : AppState} {P : StoragePaths} {N : Nat} {u : Uuid}

/-- What a run finds and leaves as far as the index tree goes. -/
abbrev Calm (state : AppState) (w t : ServerState ι) : Prop :=
  Disk.SameBelow state.storage.bySource w.state.disk t.state.disk

/-- Bytes have been written, and where paths lead is as before. -/
structure Written (w t : ServerState ι) : Prop where
  file : t.state.disk.file = w.state.disk.file
  dir : t.state.disk.dir = w.state.disk.dir
  next : t.state.disk.next = w.state.disk.next

theorem Written.occupied {w t : ServerState ι} (h : Written w t) (p : Path) :
    t.state.disk.occupied p = w.state.disk.occupied p := by
  rw [Disk.occupied, h.file, h.dir, Disk.occupied]

/-- The chunks of a part go to its temporary file. -/
theorem writeChunks_alone (temp : Path) (failure : Option MultipartError) (chunks : List Bytes) (handle : Handle)
    (written : Bytes) (w : ServerState ι) (hlimit : written.length ≤ state.maxDumpBytes)
    (htemp : w.state.disk.file temp = some handle.inode) (hapart : ¬ state.storage.bySource <+: temp)
    (hout : ∀ p, state.storage.bySource <+: p → w.state.disk.file p ≠ some handle.inode) :
    ∃ r t, (writeChunks state temp failure chunks handle written).alone env i w = some (r, t) ∧ Calm state w t ∧
      match limited state.maxDumpBytes failure (written ++ chunks.flatten) with
      | .error e => r = .error e ∧ t.state.disk.file =
          if state.maxDumpBytes < (written ++ chunks.flatten).length then (w.state.disk.unlink temp).file
          else w.state.disk.file
      | .ok bytes => ∃ handle', r = .ok (handle', bytes) ∧ Written w t ∧
          t.history.length = w.history.length + chunks.length := by
  induction chunks generalizing handle written w with
  | nil =>
    unfold writeChunks limited
    rw [List.flatten_nil, List.append_nil, if_neg (Nat.not_lt.mpr hlimit)]
    cases failure with
    | some error => exact ⟨_, w, rfl, .refl .., rfl, (if_neg (Nat.not_lt.mpr hlimit)).symm⟩
    | none => exact ⟨_, w, rfl, .refl .., handle, rfl, ⟨rfl, rfl, rfl⟩, rfl⟩
  | cons chunk rest ih =>
    unfold writeChunks
    by_cases hover : state.maxDumpBytes < written.length + chunk.length
    · rw [if_pos hover]
      have hlong : state.maxDumpBytes < (written ++ (chunk :: rest).flatten).length := by
        simp only [List.length_append, List.flatten_cons]
        omega
      have hlimited : limited state.maxDumpBytes failure (written ++ (chunk :: rest).flatten) =
          .error (.payloadTooLarge state.maxDumpBytes) := if_pos hlong
      rw [hlimited]
      refine ⟨_, _, alone_attempt (.removeFile temp) _ w, ?_, rfl, ?_⟩
      · rw [Calm, ServerState.after_disk, ServerState.execFile_removeFile env w htemp]
        exact (Disk.unlink_sameBelow hapart).trans (Disk.touch_sameBelow hapart)
      · rw [if_pos hlong, ServerState.after_disk, ServerState.execFile_removeFile env w htemp]
        rfl
    · rw [if_neg hover, alone_file (.write handle chunk) rfl]
      obtain ⟨r, t, hrun, hcalm, hr⟩ := ih (w.state.disk.write handle chunk (env.clock w.history.length)).1
        (written ++ chunk) (w.after env i (.write handle chunk)) (by rw [List.length_append]; omega) htemp hout
      refine ⟨r, t, hrun, (Disk.store_sameBelow hout).trans hcalm, ?_⟩
      rw [List.flatten_cons, ← List.append_assoc]
      cases hl : limited state.maxDumpBytes failure (written ++ chunk ++ rest.flatten) with
      | error e =>
        rw [hl] at hr
        exact hr
      | ok bytes =>
        rw [hl] at hr
        obtain ⟨handle', hr, ⟨hfile, hdir, hnext⟩, hcalls⟩ := hr
        refine ⟨handle', hr, ⟨hfile, hdir, hnext⟩, hcalls.trans ?_⟩
        rw [ServerState.after_calls, List.length_cons]
        omega

/-- A part has been put in its place: its temporary file is gone, others are as they were. -/
structure Placed (P : StoragePaths) (u : Uuid) (d e : Disk) : Prop where
  calm : Disk.SameBelow P.bySource d e
  numbered : e.Numbered
  temps : SameTemps P (d.unlink (P.tempPath u)) e

theorem placed_of_remove (P : StoragePaths) (u : Uuid) {d : Disk} {now : Time} (hd : d.Numbered) :
    Placed P u d ((d.unlink (P.tempPath u)).touch (P.tempPath u) now) where
  calm := (Disk.unlink_sameBelow (P.bySource_not_tempPath u)).trans (Disk.touch_sameBelow (P.bySource_not_tempPath u))
  numbered := hd.unlink.touch
  temps _ _ := rfl

/-- Without the temporary file `tmp` is as it was before that. -/
theorem sameTemps_unlink {d e : Disk} (hfree : d.file (P.tempPath u) = none)
    (h : ∀ p, P.tmpDir <+: p → p ≠ P.tempPath u → e.file p = d.file p) : SameTemps P d (e.unlink (P.tempPath u)) := by
  intro p hp
  rw [Disk.unlink_file]
  by_cases hpu : p = P.tempPath u
  · rw [hpu, Function.update_self, hfree]
  · rw [Function.update_of_ne hpu, h p hp hpu]

/-- Something that touches neither tree may come before it. -/
theorem Placed.before {c d e : Disk} (hcalm : Disk.SameBelow P.bySource c d) (htemps : SameTemps P c d)
    (h : Placed P u d e) : Placed P u c e where
  calm := hcalm.trans h.calm
  numbered := h.numbered
  temps p hp := by
    rw [h.temps p hp, Disk.unlink_file, Disk.unlink_file, Function.update_apply, Function.update_apply, htemps p hp]

theorem blobPath_ne_tempPath (P : StoragePaths) (d : Sha256) (u : Uuid) : P.blobPath d.hex ≠ P.tempPath u := by
  intro h
  exact P.byHash_not_tempPath u (h ▸ P.byHash_blobPath d)

theorem knows_remove (P : StoragePaths) (u : Uuid) (d : Disk) (now : Time) :
    knows P ((d.unlink (P.tempPath u)).touch (P.tempPath u) now) = knows P d := by
  funext s
  rw [knows, Disk.touch_occupied, Disk.unlink_occupied (blobPath_ne_tempPath P s u), knows]

/-- A link adds one digest. -/
theorem knows_link (P : StoragePaths) (d : Disk) (s : Sha256) (n : Nat) (now : Time) :
    knows P ((d.link (P.blobPath s.hex) n).touch (P.blobPath s.hex) now) = fun s' => knows P d s' || s' = s := by
  funext s'
  rw [knows, Disk.touch_occupied]
  by_cases h : s' = s
  · subst h
    simp [Disk.link_occupied_self]
  · have hne : P.blobPath s'.hex ≠ P.blobPath s.hex := fun heq => h (P.blobPath_injective heq)
    simp [Disk.link_occupied hne, knows, h]

/-- The temporary file becomes the blob, or goes because there is one. -/
theorem placeBlob_alone (u : Uuid) (d : Sha256) (w : ServerState ι) (hw : w.state.disk.Numbered)
    (htemp : w.state.disk.file (state.storage.tempPath u) = some n) :
    ∃ t, (placeBlob (state.storage.tempPath u) (state.storage.blobPath d.hex)).alone env i w =
        some (.ok (knows state.storage w.state.disk d), t) ∧ Placed state.storage u w.state.disk t.state.disk ∧
      (knows state.storage t.state.disk = fun s => knows state.storage w.state.disk s || s = d) ∧
      t.history.length ≤ w.history.length + 3 := by
  let v := w.after env i (.tryExists (state.storage.blobPath d.hex))
  unfold placeBlob
  rw [alone_file (.tryExists _) rfl]
  cases hocc : w.state.disk.occupied (state.storage.blobPath d.hex) with
  | true =>
    have hknown : knows state.storage w.state.disk d = true := hocc
    have hremove := ServerState.execFile_removeFile env v htemp
    rw [if_pos rfl, alone_file (.removeFile _) (by rw [hremove]), hknown]
    refine ⟨_, rfl, ?_, ?_, by simp⟩
    · rw [ServerState.after_disk, hremove]
      exact placed_of_remove _ u hw
    · rw [ServerState.after_disk, hremove, knows_remove]
      funext s
      by_cases hs : s = d
      · subst hs
        simp only [decide_true, Bool.or_true]
        exact hknown
      · simp only [hs, decide_false, Bool.or_false]
        rfl
  | false =>
    have hknown : knows state.storage w.state.disk d = false := hocc
    let x := v.after env i (.hardLink (state.storage.tempPath u) (state.storage.blobPath d.hex))
    have hlink := ServerState.execFile_hardLink env v htemp hocc
    have hdisk : x.state.disk = (w.state.disk.link (state.storage.blobPath d.hex) n).touch
        (state.storage.blobPath d.hex) (env.clock v.history.length) := by
      rw [ServerState.after_disk, hlink]
      rfl
    have htemps : SameTemps state.storage w.state.disk x.state.disk := by
      intro p hp
      rw [hdisk, Disk.touch_file, Disk.link_file, Function.update_of_ne]
      exact fun h => state.storage.tmpDir_not_blobPath d (h ▸ hp)
    have hremove := ServerState.execFile_removeFile env x ((htemps _ (state.storage.tmpDir_tempPath u)).trans htemp)
    rw [if_neg (by simp), alone_attempt, hlink, hknown]
    dsimp only
    rw [alone_file (.removeFile _) (by rw [hremove])]
    refine ⟨_, rfl, ?_, ?_, by simp⟩
    · rw [ServerState.after_disk, hremove]
      have hblob := state.storage.bySource_not_blobPath d
      refine Placed.before ?_ htemps (placed_of_remove _ u ?_)
      · rw [hdisk]
        exact (Disk.link_sameBelow hblob).trans (Disk.touch_sameBelow hblob)
      · rw [hdisk]
        exact (hw.link (hw _ _ htemp)).touch
    · rw [ServerState.after_disk, hremove, knows_remove, hdisk, knows_link]

/-- The temporary file becomes the blob, or goes because the blob is there. -/
theorem finalizeBlob_alone (u : Uuid) (d : Sha256) (w : ServerState ι) (hw : w.state.disk.Numbered)
    (htemp : w.state.disk.file (state.storage.tempPath u) = some n) :
    ∃ t, (finalizeBlob state (state.storage.tempPath u) d.hex).alone env i w =
        some (.ok (Path.display (state.storage.relativeToDataDir (state.storage.blobPath d.hex)),
          knows state.storage w.state.disk d), t) ∧ Placed state.storage u w.state.disk t.state.disk ∧
      (knows state.storage t.state.disk = fun s => knows state.storage w.state.disk s || s = d) ∧
      t.history.length ≤ w.history.length + 6 := by
  let v := (w.called i (.finalizing (state.storage.tempPath u) d.hex) ()).after env i
    (.createDirAll (state.storage.blobPath d.hex).parent)
  have hdir : Disk.SameBelow state.storage.bySource w.state.disk v.state.disk := by
    apply Disk.createDirAll_sameBelow
    intro h
    exact state.storage.bySource_not_blobPath d (h.trans (List.dropLast_prefix _))
  have hknows : knows state.storage v.state.disk = knows state.storage w.state.disk := by
    funext s
    exact Disk.createDirAll_occupied (state.storage.blobPath_not_parent s d)
  obtain ⟨t, hrun, hplaced, hblobs, hcalls⟩ := placeBlob_alone u d v hw htemp
  rw [hknows] at hrun hblobs
  unfold finalizeBlob
  rw [alone_call (.finalizing _ _) rfl, alone_file (.createDirAll _) rfl, alone_bind_ok hrun,
    alone_call (.finalized _ _ _) rfl]
  refine ⟨_, rfl, Placed.before hdir (fun _ _ => rfl) hplaced, hblobs, ?_⟩
  have hv : v.history.length = w.history.length + 2 := rfl
  show t.history.length + 1 ≤ _
  omega

/-- Identifiers for the calls up to the `N`th whose temporary files are not there. -/
def Supply (env : Env) (P : StoragePaths) (N : Nat) (w : ServerState ι) : Prop :=
  ∀ n, w.history.length ≤ n → n < N → ∃ u, env.uuid n = some u ∧ w.state.disk.file (P.tempPath u) = none

theorem Supply.later {w t : ServerState ι} (h : Supply env P N w) (hcalls : w.history.length ≤ t.history.length)
    (htemps : SameTemps P w.state.disk t.state.disk) : Supply env P N t := by
  intro n hn hnN
  obtain ⟨u, hu, hnone⟩ := h n (Nat.le_trans hcalls hn) hnN
  exact ⟨u, hu, (htemps _ (P.tmpDir_tempPath u)).trans hnone⟩

/-- What one part takes. -/
def partCalls (f : Field) : Nat := f.chunks.length + 10

/-- A temporary file has been opened. -/
structure TempOpen (P : StoragePaths) (u : Uuid) (handle : Handle) (d e : Disk) : Prop where
  calm : Disk.SameBelow P.bySource d e
  numbered : e.Numbered
  file : e.file (P.tempPath u) = some handle.inode
  out : ∀ p, P.bySource <+: p → e.file p ≠ some handle.inode
  temps : ∀ p, p ≠ P.tempPath u → e.file p = d.file p
  blobs : knows P e = knows P d

/-- A new temporary file. -/
theorem tempOpen_fresh (P : StoragePaths) {d : Disk} {now : Time} (hd : d.Numbered) :
    TempOpen P u ⟨d.next, 0, false⟩ d (d.fresh (P.tempPath u) now) := by
  have hcalm : Disk.SameBelow P.bySource d (d.fresh (P.tempPath u) now) :=
    Disk.fresh_sameBelow hd (P.bySource_not_tempPath u)
  refine ⟨hcalm, hd.fresh, by rw [Disk.fresh_file, Function.update_self], ?_, ?_, ?_⟩
  · intro p hp h
    rw [hcalm.file p hp] at h
    exact Nat.lt_irrefl _ (hd p _ h)
  · intro p hp
    rw [Disk.fresh_file, Function.update_of_ne hp]
  · funext s
    exact Disk.fresh_occupied (blobPath_ne_tempPath P s u)

/-- The first calls for a part. -/
theorem openTemp_alone (w : ServerState ι) (hw : w.state.disk.Numbered)
    (hu : env.uuid (w.history.length + 1) = some u) (hfree : w.state.disk.file (state.storage.tempPath u) = none)
    (k : Uuid → Handle → Handler CrashError β) :
    ∃ handle t, TempOpen state.storage u handle w.state.disk t.state.disk ∧
      t.history.length = w.history.length + 3 ∧
      Handler.alone env i (do
        file .io (.createDirAll state.storage.tmpDir)
        let id : Uuid ← call .newUuid
        let handle : Handle ← file .io (.create (state.storage.tempPath id))
        k id handle) w = (k u handle).alone env i t := by
  let w₁ := w.after env i (.createDirAll state.storage.tmpDir)
  let w₂ := w₁.called i .newUuid u
  have hnew : World.exec env w₁.history.length .newUuid w₁.state = some (u, w₁.state) := by
    show (env.uuid (w.history.length + 1)).map _ = _
    rw [hu]
    rfl
  have hdir : Disk.SameBelow state.storage.bySource w.state.disk w₂.state.disk := by
    apply Disk.createDirAll_sameBelow
    intro h
    have hstart : state.storage.tmpDir <+: state.storage.tempPath u := by
      rw [StoragePaths.tempPath_eq, StoragePaths.tmpDir_eq]
      simp
    exact state.storage.bySource_not_tempPath u (h.trans hstart)
  have hknows : knows state.storage w₂.state.disk = knows state.storage w.state.disk := by
    funext s
    exact Disk.createDirAll_occupied (state.storage.blobPath_not_tmpDir s)
  have hcreate := ServerState.execFile_create_none env w₂ hfree
  have hopen : TempOpen state.storage u ⟨w₂.state.disk.next, 0, false⟩ w₂.state.disk
      (w₂.state.disk.fresh (state.storage.tempPath u) (env.clock w₂.history.length)) := tempOpen_fresh _ hw
  refine ⟨⟨w₂.state.disk.next, 0, false⟩, w₂.after env i (.create (state.storage.tempPath u)), ?_, rfl, ?_⟩
  · rw [ServerState.after_disk, hcreate]
    exact ⟨hdir.trans hopen.calm, hopen.numbered, hopen.file, hopen.out, hopen.temps, hopen.blobs.trans hknows⟩
  · rw [alone_file (.createDirAll _) rfl, alone_call .newUuid hnew, alone_file (.create _) (by rw [hcreate])]

/-- What the run of an upload leaves for what follows it. -/
structure Ready (env : Env) (P : StoragePaths) (N : Nat) (w : ServerState ι) : Prop where
  numbered : w.state.disk.Numbered
  supply : Supply env P N w

/-- **A part is stored, or refused for its size or its end.** -/
theorem writePartToBlob_alone (f : Field) (w : ServerState ι) (hw : Ready env state.storage N w)
    (hN : w.history.length + partCalls f ≤ N) :
    ∃ r t, (writePartToBlob C state f).alone env i w = some (r, t) ∧ Calm state w t ∧
      TempsLeft state.storage (CutShort state.maxDumpBytes f) w.state.disk t.state.disk ∧
      match limited state.maxDumpBytes f.failure f.bytes with
      | .error e => r = .error e
      | .ok _ => r = .ok (blobPointer C state.storage (knows state.storage w.state.disk) f) ∧
          (knows state.storage t.state.disk = fun s => knows state.storage w.state.disk s || s = C.sha256 f.bytes) ∧
          Ready env state.storage N t ∧ t.history.length ≤ w.history.length + partCalls f := by
  unfold partCalls at hN ⊢
  obtain ⟨u, hu, hfree⟩ := hw.supply (w.history.length + 1) (by omega) (by omega)
  unfold writePartToBlob
  obtain ⟨handle, w₁, hopen, hcalls₁, heq⟩ := openTemp_alone w hw.numbered hu hfree _
  rw [heq]
  obtain ⟨r, t, hrun, hcalm, hr⟩ := writeChunks_alone (state.storage.tempPath u) f.failure f.chunks handle [] w₁
    (Nat.zero_le _) hopen.file (state.storage.bySource_not_tempPath u) hopen.out
  rw [List.nil_append] at hr
  have hback : SameTemps state.storage w.state.disk (w₁.state.disk.unlink (state.storage.tempPath u)) :=
    sameTemps_unlink hfree fun p _ hp => hopen.temps p hp
  cases hl : limited state.maxDumpBytes f.failure f.bytes with
  | error e =>
    rw [← Field.bytes, hl] at hr
    obtain ⟨rfl, hfile⟩ := hr
    refine ⟨_, t, alone_bind_error hrun _, hopen.calm.trans hcalm, ?_, rfl⟩
    by_cases hsize : state.maxDumpBytes < f.bytes.length
    · rw [if_pos hsize] at hfile
      refine .inl ⟨fun p hp => ?_, fun hcut => Nat.not_le.mpr hsize hcut.size⟩
      rw [hfile, hback p hp]
    · rw [if_neg hsize] at hfile
      refine .inr ⟨⟨u, hfree, ?_⟩, fun hfailure => ?_, Nat.not_lt.mp hsize⟩
      · rw [hfile, hopen.file]
        exact Option.some_ne_none _
      · rw [limited_ok_iff.mpr ⟨hfailure, Nat.not_lt.mp hsize, rfl⟩] at hl
        cases hl
  | ok bytes =>
    rw [← Field.bytes, hl] at hr
    obtain ⟨handle', rfl, hwritten, hcalls⟩ := hr
    obtain ⟨hfailure, -, rfl⟩ := limited_ok_iff.mp hl
    let t₁ := t.after env i (.sync handle')
    have hnumbered : t₁.state.disk.Numbered := by
      intro p n hn
      rw [show t₁.state.disk.next = w₁.state.disk.next from hwritten.next]
      exact hopen.numbered p n ((congrFun hwritten.file p).symm.trans hn)
    have hknows : knows state.storage t₁.state.disk = knows state.storage w.state.disk := by
      rw [← hopen.blobs]
      funext s
      exact hwritten.occupied _
    obtain ⟨z, hz, hplaced, hblobs, hzcalls⟩ := finalizeBlob_alone u (C.sha256 f.bytes) t₁ hnumbered
      ((congrFun hwritten.file _).trans hopen.file)
    rw [hknows] at hz hblobs
    rw [alone_bind_ok hrun]
    dsimp only
    rw [alone_file (.sync _) rfl, alone_bind_ok hz]
    have ht₁ : t₁.history.length = t.history.length + 1 := rfl
    have hgrown := alone_calls hz
    have hsame : SameTemps state.storage w.state.disk z.state.disk := by
      intro p hp
      rw [hplaced.temps p hp, Disk.unlink_file, show t₁.state.disk.file = w₁.state.disk.file from hwritten.file,
        ← Disk.unlink_file, hback p hp]
    exact ⟨_, z, rfl, (hopen.calm.trans hcalm).trans hplaced.calm, .inl ⟨hsame, fun hcut => hcut.failure hfailure⟩, rfl,
      hblobs, ⟨hplaced.numbered, hw.supply.later (by omega) hsame⟩, by omega⟩

/-- The outcome of the loop over the parts, for what the verdict says of them. -/
def PartsOutcome (env : Env) (P : StoragePaths) (N last : Nat) (failure : Option MultipartError)
    (taken : Except CrashError (Option Bytes × List CrashAttachment))
    (pointers : Option BlobPointer × List AttachmentPointer)
    (r : Except CrashError (Option BlobPointer × List AttachmentPointer)) (t : ServerState ι) : Prop :=
  match taken, failure with
  | .error e, _ => r = .error e
  | .ok _, some error => r = .error (.multipart error)
  | .ok _, none => r = .ok pointers ∧ Ready env P N t ∧ t.history.length ≤ last

theorem PartsOutcome.mono {N last last' : Nat} {failure : Option MultipartError}
    {taken : Except CrashError (Option Bytes × List CrashAttachment)}
    {pointers : Option BlobPointer × List AttachmentPointer}
    {r : Except CrashError (Option BlobPointer × List AttachmentPointer)} {t : ServerState ι} (hlast : last ≤ last')
    (h : PartsOutcome env P N last failure taken pointers r t) :
    PartsOutcome env P N last' failure taken pointers r t := by
  cases taken with
  | error e => exact h
  | ok taken =>
    cases failure with
    | some error => exact h
    | none => exact ⟨h.1, h.2.1, Nat.le_trans h.2.2 hlast⟩

theorem placePart_isSome (f : Field) (p : BlobPointer) (stored : Option BlobPointer × List AttachmentPointer) :
    (placePart f p stored).1.isSome = (stored.1.isSome || f.isDump) := by
  unfold placePart
  cases f.isDump <;> simp

theorem keepPart_isSome (f : Field) (bytes : Bytes) (taken : Option Bytes × List CrashAttachment) :
    (keepPart f bytes taken).1.isSome = (taken.1.isSome || f.isDump) := by
  unfold keepPart
  cases f.isDump <;> simp

/-- **The loop over the parts, from any state that is ready for it**: what it answers, what it leaves in
`tmp` and what it needs. -/
theorem readParts_alone (failure : Option MultipartError) (fs : List Field)
    (stored : Option BlobPointer × List AttachmentPointer) (taken : Option Bytes × List CrashAttachment)
    (hsome : stored.1.isSome = taken.1.isSome) (w : ServerState ι) (hw : Ready env state.storage N w)
    (hN : w.history.length + (fs.map partCalls).sum ≤ N) :
    ∃ r t, (readParts C state failure fs stored.1 stored.2).alone env i w = some (r, t) ∧ Calm state w t ∧
      TempsLeft state.storage (BreaksOff state.maxDumpBytes stored.1.isSome fs) w.state.disk t.state.disk ∧
      PartsOutcome env state.storage N (w.history.length + (fs.map partCalls).sum) failure
        (fs.foldlM (takePart state.maxDumpBytes) taken)
        (pointers C state.storage (knows state.storage w.state.disk) fs stored) r t := by
  induction fs generalizing stored taken w with
  | nil =>
    unfold readParts
    cases failure with
    | some error => exact ⟨_, w, rfl, .refl .., .refl (breaksOff_nil _ _), rfl⟩
    | none => exact ⟨_, w, rfl, .refl .., .refl (breaksOff_nil _ _), rfl, hw, Nat.le_add_right _ _⟩
  | cons f rest ih =>
    rw [List.map_cons, List.sum_cons] at hN ⊢
    rw [readParts_cons, List.foldlM_cons, takePart_eq, ← hsome]
    cases hrefusal : refusal stored.1.isSome f with
    | some e =>
      refine ⟨.error e, w, rfl, .refl .., .refl fun h => ?_, rfl⟩
      rw [refusal_eq_none_iff.mpr (breaksOff_cons.mp h).1] at hrefusal
      cases hrefusal
    | none =>
      have hf := refusal_eq_none_iff.mp hrefusal
      obtain ⟨r, t, hrun, hcalm, hleft, hr⟩ := writePartToBlob_alone (C := C) f w hw (by omega)
      cases hl : limited state.maxDumpBytes f.failure f.bytes with
      | error e =>
        rw [hl] at hr
        obtain rfl : r = .error e := hr
        refine ⟨_, t, alone_bind_error hrun _, hcalm, hleft.congr ?_, rfl⟩
        have hnot : ¬ Whole state.maxDumpBytes f := fun hwhole => by
          rw [limited_ok_iff.mpr ⟨hwhole.failure, hwhole.size, rfl⟩] at hl
          cases hl
        rw [breaksOff_cons]
        exact ⟨fun hcut => ⟨hf, .inl hcut⟩, fun h => h.2.resolve_right fun h => hnot h.1⟩
      | ok bytes =>
        rw [hl] at hr
        obtain ⟨rfl, hblobs, hready, hcalls⟩ := hr
        obtain ⟨hfailure, hsize, -⟩ := limited_ok_iff.mp hl
        have hnot : ¬ CutShort state.maxDumpBytes f := fun hcut => hcut.failure hfailure
        obtain ⟨r', t', hrun', hcalm', hleft', hr'⟩ := ih
          (placePart f (blobPointer C state.storage (knows state.storage w.state.disk) f) stored) (keepPart f bytes taken)
          (by rw [placePart_isSome, keepPart_isSome, hsome]) t hready (by omega)
        rw [hblobs] at hr'
        refine ⟨r', t', (alone_bind_ok hrun _).trans hrun', hcalm.trans hcalm',
          (TempsLeft.after (hleft.same hnot) hleft').congr ?_, hr'.mono (by omega)⟩
        rw [breaksOff_cons, placePart_isSome]
        exact ⟨fun h => ⟨hf, .inr ⟨⟨hfailure, hsize⟩, h⟩⟩, fun h => (h.2.resolve_left hnot).2⟩

/-! ### The index -/

/-- One file below `by-source` is written, and nothing else there. Its inode is the one that was there or one
that no path there led to; a path that shared it shares what is written. -/
structure AddsIndex (P : StoragePaths) (path : Path) (bytes : Bytes) (d e : Disk) : Prop where
  content : e.content path = some bytes
  own : ∀ n, e.file path = some n → d.file path = some n ∨ ∀ p, P.bySource <+: p → d.file p ≠ some n
  files : ∀ p, P.bySource <+: p → p ≠ path → e.file p = d.file p
  others : ∀ p, P.bySource <+: p → p ≠ path → (∀ n, d.file path = some n → d.file p ≠ some n) →
    e.content p = d.content p

theorem AddsIndex.after {path : Path} {bytes : Bytes} {c d e : Disk} (hpath : P.bySource <+: path)
    (hcalm : Disk.SameBelow P.bySource c d) (h : AddsIndex P path bytes d e) : AddsIndex P path bytes c e where
  content := h.content
  own n hn := by
    rcases h.own n hn with hown | hnew
    · exact .inl ((hcalm.file path hpath).symm.trans hown)
    · exact .inr fun p hp hpn => hnew p hp ((hcalm.file p hp).trans hpn)
  files p hp hne := (h.files p hp hne).trans (hcalm.file p hp)
  others p hp hne hshare := by
    rw [h.others p hp hne, hcalm.content hp]
    intro n hn
    rw [hcalm.file p hp]
    exact hshare n ((hcalm.file path hpath).symm.trans hn)

/-- The index is written, and below `by-source` nothing else. -/
theorem writeIndex_alone (source : SourceKey) (metadata : CrashMetadata) (dump : BlobPointer)
    (as : List AttachmentPointer) (w : ServerState ι) (hw : Ready env state.storage N w)
    (hpath : state.storage.bySource <+: state.storage.indexPath source metadata.timestamp.format dump.sha256) :
    ∃ t, (writeIndex C state source metadata dump as).alone env i w = some (.ok (), t) ∧
      AddsIndex state.storage (state.storage.indexPath source metadata.timestamp.format dump.sha256)
        (C.json.writePretty (CrashIndex.mk metadata dump as).toJson) w.state.disk t.state.disk ∧
      SameTemps state.storage w.state.disk t.state.disk ∧
      Ready env state.storage N t ∧ t.history.length = w.history.length + 3 := by
  let path := state.storage.indexPath source metadata.timestamp.format dump.sha256
  let w₁ := w.after env i (.createDirAll path.parent)
  let bytes := C.json.writePretty (CrashIndex.mk metadata dump as).toJson
  let e := ((w₁.state.disk.create path (env.clock w₁.history.length)).2.write
    (w₁.state.disk.create path (env.clock w₁.history.length)).1 bytes (env.clock (w₁.history.length + 1))).2
  have hfile : ∀ q, e.file q = if q = path then some ((w.state.disk.file path).getD w.state.disk.next)
      else w.state.disk.file q := fun q => Disk.create_write_file (d := w₁.state.disk) bytes q
  unfold writeIndex
  have htemps : SameTemps state.storage w.state.disk e := by
    refine fun p hp => (hfile p).trans (if_neg ?_)
    rintro rfl
    exact state.storage.tmpDir_not_bySource hpath hp
  rw [alone_file (.createDirAll _) rfl, alone_file (.create _) rfl, alone_file (.write _ _) rfl]
  refine ⟨_, rfl, ⟨Disk.create_write_content (d := w₁.state.disk) bytes, ?_, ?_, ?_⟩, htemps,
    ⟨?_, hw.supply.later (Nat.le_add_right _ 3) htemps⟩, rfl⟩
  · intro n hn
    have hn : e.file path = some n := hn
    rw [hfile, if_pos rfl] at hn
    cases hold : w.state.disk.file path with
    | some m =>
      rw [hold] at hn
      exact .inl (by rw [← hn]; rfl)
    | none =>
      rw [hold] at hn
      obtain rfl : w.state.disk.next = n := Option.some.inj hn
      exact .inr fun p _ hp => Nat.lt_irrefl _ (hw.numbered p _ hp)
  · exact fun p _ hne => (hfile p).trans (if_neg hne)
  · exact fun p _ hne hshare => Disk.create_write_other (d := w₁.state.disk) bytes hw.numbered hne hshare
  · exact Disk.Numbered.create_write (d := w₁.state.disk) hw.numbered

/-- Where an index goes. -/
def CrashIndex.path (P : StoragePaths) (index : CrashIndex) : Path :=
  P.indexPath ⟨index.metadata.source.project, index.metadata.source.installId.toString⟩
    index.metadata.timestamp.format index.dump.sha256

/-- What the limiter would say now. -/
def admits (env : Env) (state : AppState) (token : TokenContext) (w : ServerState ι) (source : SourceKey) : Bool :=
  (w.state.buckets.check ⟨.crashes, token.id, source.canonical⟩ state.rateLimit.crashesPerMinute
    state.rateLimit.crashesBurst (env.instant w.history.length)).1

/-- What is answered and left behind, for a verdict. -/
def Outcome (C : Crates) (state : AppState) (m : Multipart) (w t : ServerState ι)
    (v : Except CrashError CrashEnvelope) (r : Except CrashError (Nat × CrashResponse)) : Prop :=
  match v with
  | .error e => r = .error e ∧ Calm state w t
  | .ok e => ∃ index : CrashIndex, index.Describes C e ∧
      pointers C state.storage (knows state.storage w.state.disk) m.fields.tail (none, []) =
        (some index.dump, index.attachments) ∧
      r = .ok (201, ⟨index.dump.sha256, index.dump.dedup⟩) ∧ state.storage.bySource <+: index.path state.storage ∧
      AddsIndex state.storage (index.path state.storage) (C.json.writePretty index.toJson) w.state.disk t.state.disk

theorem observeDedup_alone (dump : BlobPointer) (w : ServerState ι) :
    ∃ t, (observeDedup dump).alone env i w = some (.ok (), t) ∧ t.state = w.state ∧
      t.history.length ≤ w.history.length + 1 := by
  unfold observeDedup
  split
  · exact ⟨_, rfl, rfl, Nat.le_refl _⟩
  · exact ⟨w, rfl, rfl, Nat.le_succ _⟩

/-- The same with the counters, which the disk does not see, and the answer. -/
theorem storeIndex_alone (source : SourceKey) (metadata : CrashMetadata) (dump : BlobPointer)
    (as : List AttachmentPointer) (w : ServerState ι) (hw : Ready env state.storage N w)
    (hpath : state.storage.bySource <+: state.storage.indexPath source metadata.timestamp.format dump.sha256) :
    ∃ t, (storeIndex C state source metadata dump as).alone env i w = some (.ok (201, ⟨dump.sha256, dump.dedup⟩), t) ∧
      AddsIndex state.storage (state.storage.indexPath source metadata.timestamp.format dump.sha256)
        (C.json.writePretty (CrashIndex.mk metadata dump as).toJson) w.state.disk t.state.disk ∧
      SameTemps state.storage w.state.disk t.state.disk ∧
      Ready env state.storage N t ∧ t.history.length ≤ w.history.length + 5 := by
  let w₀ := w.called i (.observe (.bytes .crashes dump.len)) ()
  obtain ⟨w₁, hrun₁, hstate, hfew⟩ := observeDedup_alone dump w₀
  have hdisk : w₁.state.disk = w.state.disk := by
    rw [hstate]
    rfl
  have hcalls : w.history.length ≤ w₁.history.length := Nat.le_trans (Nat.le_succ _) (alone_calls hrun₁)
  have hready : Ready env state.storage N w₁ := by
    refine ⟨hdisk ▸ hw.numbered, hw.supply.later hcalls fun p _ => ?_⟩
    rw [hdisk]
  obtain ⟨t, hrun, hadds, htemps, ht, hlast⟩ := writeIndex_alone (C := C) source metadata dump as w₁ hready hpath
  unfold storeIndex
  rw [alone_call (.observe _) rfl, alone_bind_ok hrun₁, alone_bind_ok hrun]
  have hw₀ : w₀.history.length = w.history.length + 1 := rfl
  exact ⟨t, rfl, hdisk ▸ hadds, hdisk ▸ htemps, ht, by omega⟩

/-- What an upload takes. -/
def uploadCalls (m : Multipart) : Nat := 6 + (m.fields.map partCalls).sum

theorem of_error_ok {ε α : Type} {e : ε} {P : Prop} (h : ∃ x : α, (.error e : Except ε α) = .ok x) : P := by
  obtain ⟨x, hx⟩ := h
  cases hx

/-- **A run of the endpoint by itself comes to the verdict**, and changes the index tree by the one
index of a report that it accepts. It leaves a temporary file just when it breaks off. -/
theorem crashesInner_alone (token : TokenContext) {headers : Headers} {body : Body} {m : Multipart}
    (hm : openMultipart C headers body = .ok m) (w : ServerState ι) (hw : Ready env state.storage N w)
    (hN : w.history.length + uploadCalls m ≤ N) :
    ∃ r t, (crashesInner C state token headers body).alone env i w = some (r, t) ∧
      Outcome C state m w t (verdict C state token (admits env state token w) m) r ∧
      ((∃ x, r = .ok x) → Ready env state.storage N t ∧ t.history.length ≤ w.history.length + uploadCalls m) ∧
      TempsLeft state.storage (Interrupted C state token (admits env state token w) headers body) w.state.disk
        t.state.disk := by
  unfold crashesInner verdict
  unfold uploadCalls at hN ⊢
  rw [hm, alone_lift_ok]
  cases hfirst : readFirst C m with
  | error e => exact ⟨_, w, rfl, ⟨rfl, .refl ..⟩, of_error_ok, .refl (by simp [Interrupted, hm, hfirst])⟩
  | ok first =>
  obtain ⟨metadata, fields⟩ := first
  obtain ⟨f, hfields, -⟩ := readFirst_reads hfirst
  rw [hfields, List.map_cons, List.sum_cons] at hN
  rw [alone_lift_ok, ok_bind, hfields, List.map_cons, List.sum_cons]
  dsimp only
  cases hsource : admitSource token metadata with
  | error e => exact ⟨_, w, rfl, ⟨rfl, .refl ..⟩, of_error_ok, .refl (by simp [Interrupted, hm, hfirst, hsource])⟩
  | ok source =>
  have hiff : Interrupted C state token (admits env state token w) headers body ↔
      admits env state token w source = true ∧
        state.schemaRegistry.validate metadata.source.project .crashMetadata metadata.toJson = .ok () ∧
        BreaksOff state.maxDumpBytes false fields := by
    simp [Interrupted, hm, hfirst, hsource]
  obtain ⟨-, rfl, hvalid, -⟩ := admitSource_ok hsource
  let source : SourceKey := ⟨metadata.source.project, metadata.source.installId.toString⟩
  rw [alone_lift_ok, ok_bind]
  obtain ⟨w₁, heq, hdisk, hcalls⟩ := alone_check ⟨.crashes, token.id, source.canonical⟩
    state.rateLimit.crashesPerMinute state.rateLimit.crashesBurst _ w
  rw [heq]
  have hcalm : Calm state w w₁ := by
    rw [Calm, hdisk]
    exact Disk.SameBelow.refl ..
  have hsame : SameTemps state.storage w.state.disk w₁.state.disk := fun p _ => by rw [hdisk]
  rw [hiff]
  show ∃ r t, Handler.alone env i (if !admits env state token w source then _ else _) w₁ = _ ∧ _
  cases admits env state token w source with
  | false => exact ⟨_, w₁, rfl, ⟨rfl, hcalm⟩, of_error_ok, .inl ⟨hsame, by simp⟩⟩
  | true =>
  simp only [Bool.not_true, Bool.false_eq_true, if_false]
  cases state.schemaRegistry.validate metadata.source.project .crashMetadata metadata.toJson with
  | error e => exact ⟨_, _, rfl, ⟨rfl, hcalm⟩, of_error_ok, .inl ⟨hsame, by simp⟩⟩
  | ok _ =>
  dsimp only
  simp only [true_and]
  have hready : Ready env state.storage N w₁ := ⟨hdisk ▸ hw.numbered, hw.supply.later (by omega) hsame⟩
  obtain ⟨r, t, hrun, hcalm', hleft, hr⟩ := readParts_alone (C := C) (i := i) m.failure fields (none, []) (none, []) rfl w₁
    hready (by omega)
  have hcalm := hcalm.trans hcalm'
  have hleft := TempsLeft.after hsame hleft
  cases htaken : fields.foldlM (takePart state.maxDumpBytes) (none, []) with
  | error e =>
    rw [htaken] at hr
    obtain rfl : r = .error e := hr
    exact ⟨_, t, alone_bind_error hrun _, ⟨rfl, hcalm⟩, of_error_ok, hleft⟩
  | ok taken =>
  have hnothing : Kept C (none, []) (none, []) := ⟨.none, .nil⟩
  have hkept := hnothing.pointers state.storage (knows state.storage w₁.state.disk) fields htaken
  obtain ⟨bytes, attachments⟩ := taken
  rw [htaken] at hr
  rw [ok_bind]
  dsimp only
  cases hfailure : m.failure with
  | some error =>
    rw [hfailure] at hr hrun
    obtain rfl : r = .error (.multipart error) := hr
    exact ⟨_, t, alone_bind_error hrun _, ⟨rfl, hcalm⟩, of_error_ok, hleft⟩
  | none =>
  rw [hfailure] at hr hrun
  obtain ⟨rfl, hready, hlast⟩ := hr
  rw [alone_bind_ok hrun]
  rw [hdisk] at hkept ⊢
  cases hpointers : pointers C state.storage (knows state.storage w.state.disk) fields (none, []) with
  | mk dump as =>
  rw [hpointers] at hkept
  obtain ⟨hdump, hattachments⟩ := hkept
  dsimp only at hdump hattachments ⊢
  cases hdump with
  | none => exact ⟨_, t, rfl, ⟨rfl, hcalm⟩, of_error_ok, hleft⟩
  | @some p bytes hp =>
  have hpath : state.storage.bySource <+: state.storage.indexPath source metadata.timestamp.format p.sha256 := by
    rw [hp.sha256]
    exact state.storage.bySource_indexPath hvalid _ _
  obtain ⟨z, hz, hadds, htemps, hz', hzlast⟩ := storeIndex_alone source metadata p as t hready hpath
  refine ⟨_, z, hz, ⟨⟨metadata, p, as⟩, ⟨rfl, hp, hattachments⟩, ?_, rfl, hpath, hadds.after hpath hcalm⟩,
    fun _ => ⟨hz', by omega⟩, hleft.kept htemps⟩
  rw [hfields]
  exact hpointers

end Upload

end Detritus.Server
