import Detritus.Server.Janitor

/-! The crash store as a system: any number of uploads and janitor cycles, whose steps
interleave in any order, on one disk.

What is said of such a system is said of its disk and its history. The vocabulary for
that is here: which task was issued an identifier, which took a blob for its own
(found it, linked it, or lost the race to link it), which has answered its client. -/
namespace Detritus.Server
open Files Protocol Process

/-- What a task of the crash store is for. -/
inductive Job where
  | upload (token : TokenContext) (headers : Headers) (body : Body)
  | cycle (config : RetentionConfig)

/-- What it comes to. -/
inductive Reply where
  | upload (result : Except CrashError (Nat × CrashResponse))
  | cycle (result : Except JanitorError JanitorStats)
  deriving DecidableEq

/-- `fuel` is for the walks of the cycles. -/
structure CrashSystem (ι : Type) where
  crates : Crates
  app : AppState
  env : Env
  jobs : ι → Job
  fuel : Nat

namespace CrashSystem
variable {ι : Type} (Y : CrashSystem ι)

def program : Job → Program serverInterface Reply
  | .upload token headers body => Reply.upload <$> crashesHandler Y.crates Y.app token headers body
  | .cycle config => Reply.cycle <$> (runJanitorCycle Y.fuel Y.crates.json Y.app.storage config).run

/-- Uploads and cycles run to their end. -/
def pool : Pool serverInterface ι (ServerState ι) (fun _ => Reply) where
  task i := .once (Y.program (Y.jobs i))
  exec := execAs Y.env
  stop _ _ := none

/-- Prepared storage without a file, and any state of the rate limiter. -/
def initial (now : Time) (buckets : Buckets) : ServerState ι :=
  ⟨⟨Y.app.storage.prepare now .empty, buckets, []⟩, []⟩

/-- The parts of an upload's body that the parser hands out. -/
def fields : Job → List Field
  | .upload _ headers body => match openMultipart Y.crates headers body with
    | .ok multipart => multipart.fields
    | .error _ => []
  | .cycle _ => []

/-- The bytes are those of a part of an upload. -/
def Part (b : Bytes) : Prop := ∃ i, ∃ f ∈ Y.fields (Y.jobs i), b = f.bytes

def temp (u : Uuid) : Path := Y.app.storage.tempPath u

def blob (d : Sha256) : Path := Y.app.storage.blobPath d.hex

/-- An index as it is stored. -/
def encode (i : CrashIndex) : Bytes := Y.crates.json.writePretty i.toJson

/-- Every blob that the index points to is there. -/
def Backed (i : CrashIndex) (d : Disk) : Prop := ∀ h ∈ i.hashes, (d.file (Y.app.storage.blobPath h)).isSome = true

end CrashSystem

/-! ### What the history tells -/

section History
variable {ι : Type} (P : StoragePaths)

/-- The task was given the identifier. -/
def Issued (i : ι) (u : Uuid) (h : List (ServerEvent ι)) : Prop := (⟨i, .newUuid, u⟩ : ServerEvent ι) ∈ h

/-- The task has found the blob in its place. -/
def Found (i : ι) (d : Sha256) (h : List (ServerEvent ι)) : Prop :=
  (⟨i, .file (.tryExists (P.blobPath d.hex)), (.ok true : Except IoError Bool)⟩ : ServerEvent ι) ∈ h

/-- The task has put the blob there. -/
def Linked (i : ι) (temp : Path) (d : Sha256) (h : List (ServerEvent ι)) : Prop :=
  (⟨i, .file (.hardLink temp (P.blobPath d.hex)), (.ok () : Except IoError Unit)⟩ : ServerEvent ι) ∈ h

/-- Another has, between the look and the link. -/
def Lost (i : ι) (temp : Path) (d : Sha256) (h : List (ServerEvent ι)) : Prop :=
  (⟨i, .file (.hardLink temp (P.blobPath d.hex)), (.error .alreadyExists : Except IoError Unit)⟩ :
    ServerEvent ι) ∈ h

/-- The task has seen the blob in its place. -/
def Took (i : ι) (d : Sha256) (h : List (ServerEvent ι)) : Prop :=
  Found P i d h ∨ (∃ temp, Linked P i temp d h) ∨ ∃ temp, Lost P i temp d h

/-- The request has been answered. -/
def Answered (i : ι) (h : List (ServerEvent ι)) : Prop :=
  ∃ status, (⟨i, .observe (.request .crashes status), ()⟩ : ServerEvent ι) ∈ h

/-- A call of `finalize_blob` has begun. -/
def Began (i : ι) (temp : Path) (sha256 : String) (h : List (ServerEvent ι)) : Prop :=
  (⟨i, .finalizing temp sha256, ()⟩ : ServerEvent ι) ∈ h

/-- A call of `finalize_blob` has returned. -/
def Finalized (i : ι) (temp : Path) (sha256 : String) (dedup : Bool) (h : List (ServerEvent ι)) : Prop :=
  (⟨i, .finalized temp sha256 dedup, ()⟩ : ServerEvent ι) ∈ h

/-- The blob was removed at some time. -/
def Removed (d : Sha256) (h : List (ServerEvent ι)) : Prop :=
  ∃ i, (⟨i, .file (.removeFile (P.blobPath d.hex)), (.ok () : Except IoError Unit)⟩ : ServerEvent ι) ∈ h

/-- The task wrote these bytes to a file in one piece. -/
def Wrote (i : ι) (bytes : Bytes) (h : List (ServerEvent ι)) : Prop :=
  ∃ handle x, (⟨i, .file (.write handle bytes), x⟩ : ServerEvent ι) ∈ h

/-- The file whose content a call changes. -/
def touched : ServerEvent ι → Option Nat
  | ⟨_, .file (.create _), x⟩ => match x with
    | .ok handle => some handle.inode
    | .error _ => none
  | ⟨_, .file (.write handle _), _⟩ => some handle.inode
  | _ => none

/-- The index file that a call opens. -/
def opensIndex : ServerEvent ι → Option Nat
  | ⟨_, .file (.create p), x⟩ => match x with
    | .ok handle => if P.bySource <+: p then some handle.inode else none
    | .error _ => none
  | _ => none

def writes : ServerEvent ι → Bool
  | ⟨_, .file (.write _ _), _⟩ => true
  | _ => false

/-- The last call on a file. -/
def lastOn (n : Nat) (h : List (ServerEvent ι)) : Option (ServerEvent ι) := h.find? fun e => touched e = some n

/-- The task has opened an index file. -/
def Opened (i : ι) (h : List (ServerEvent ι)) : Prop := ∃ e ∈ h, e.task = i ∧ (opensIndex P e).isSome = true

/-- The task was not the last to open any index file that has not been written since. -/
def Closed (i : ι) (h : List (ServerEvent ι)) : Prop := ∀ n e, lastOn n h = some e → e.task = i → opensIndex P e = none

/-- An index file that was opened is not opened again until it has been written. -/
def Separate : List (ServerEvent ι) → Prop
  | [] => True
  | e :: h => (∀ n, opensIndex P e = some n → ∀ f, lastOn n h = some f → writes f = true) ∧ Separate h

instance decidableSeparate : (h : List (ServerEvent ι)) → Decidable (Separate P h)
  | [] => inferInstanceAs (Decidable True)
  | e :: h =>
    have : Decidable (∀ n, opensIndex P e = some n → ∀ f, lastOn n h = some f → writes f = true) :=
      decidable_of_iff ((opensIndex P e).all fun n => (lastOn n h).all writes) (by simp [Option.all_eq_true])
    have := decidableSeparate h
    inferInstanceAs (Decidable (_ ∧ _))

def answers : ServerEvent ι → Bool
  | ⟨_, .observe (.request .crashes _), _⟩ => true
  | _ => false

/-- A call that opens an index or answers the client. -/
def tells (e : ServerEvent ι) : Bool := answers e || (opensIndex P e).isSome

/-- A `finalize_blob` on this temporary file has returned. -/
def finishes (temp : Path) : ServerEvent ι → Bool
  | ⟨_, .finalized t _ _, _⟩ => t = temp
  | _ => false

/-- A `finalize_blob` for this digest has returned, with this answer. -/
def reports (sha256 : String) (dedup : Bool) : ServerEvent ι → Bool
  | ⟨_, .finalized _ h b, _⟩ => h = sha256 && b = dedup
  | _ => false

/-- The cycle `k` begins to list the indexes. -/
def lists [DecidableEq ι] (k : ι) : ServerEvent ι → Bool
  | ⟨i, .file (.tryExists root), _⟩ => i = k && root = P.bySource
  | _ => false

section Grow
variable {P} {i : ι} {h h' : List (ServerEvent ι)} {e : ServerEvent ι} {n : Nat} {d : Sha256}

theorem Took.mono (hs : h ⊆ h') : Took P i d h → Took P i d h' :=
  Or.imp (fun hm => hs hm) (Or.imp (Exists.imp fun _ hm => hs hm) (Exists.imp fun _ hm => hs hm))

/-- A blob was seen by the last call or before. -/
theorem took_cons : Took P i d (e :: h) ↔ Took P i d [e] ∨ Took P i d h := by
  simp only [Took, Found, Linked, Lost, List.mem_cons, List.not_mem_nil, or_false, exists_or]
  tauto

theorem Answered.mono (hs : h ⊆ h') : Answered i h → Answered i h' := Exists.imp fun _ hm => hs hm

theorem Removed.mono (hs : h ⊆ h') : Removed P d h → Removed P d h' :=
  Exists.imp fun _ hm => hs hm

theorem Wrote.mono {bytes : Bytes} (hs : h ⊆ h') : Wrote i bytes h → Wrote i bytes h' :=
  Exists.imp fun _ => Exists.imp fun _ hm => hs hm

/-- The calls of others answer nothing. -/
theorem Answered.apart (ha : Apart i h h') : Answered i h' ↔ Answered i h :=
  exists_congr fun _ => ha.mem rfl

/-- An index file is opened by creating it. -/
theorem opensIndex_eq (he : opensIndex P e = some n) : ∃ p handle,
    P.bySource <+: p ∧ handle.inode = n ∧ e = ⟨e.task, .file (.create p), (.ok handle : Except IoError Handle)⟩ := by
  unfold opensIndex at he
  split at he
  · split at he
    · next p _ handle =>
      split at he
      · exact ⟨p, handle, ‹_›, Option.some.inj he, rfl⟩
      · cases he
    · cases he
  · cases he

/-- To open a file is to touch it, and not to write it. -/
theorem touched_of_opensIndex (he : opensIndex P e = some n) : touched e = some n := by
  obtain ⟨p, handle, -, rfl, heq⟩ := opensIndex_eq he
  rw [heq]
  rfl

theorem writes_of_opensIndex (he : opensIndex P e = some n) : writes e = false := by
  obtain ⟨p, handle, -, -, heq⟩ := opensIndex_eq he
  rw [heq]
  rfl

theorem lastOn_cons_of_ne (he : touched e ≠ some n) : lastOn n (e :: h) = lastOn n h := by
  rw [lastOn, List.find?_cons_of_neg (by simpa using he), lastOn]

theorem lastOn_cons_self (he : touched e = some n) : lastOn n (e :: h) = some e := by
  rw [lastOn, List.find?_cons_of_pos (by simpa using he)]

/-- The last call on a file is one on it. -/
theorem touched_of_lastOn (he : lastOn n h = some e) : e ∈ h ∧ touched e = some n :=
  ⟨List.mem_of_find?_eq_some he, by simpa using List.find?_some he⟩

/-- What is separate was so at every moment before. -/
theorem Separate.of_append {new : List (ServerEvent ι)} (hs : Separate P (new ++ h)) : Separate P h := by
  induction new with
  | nil => exact hs
  | cons e new ih => exact ih hs.2

theorem Opened.mono (hs : h ⊆ h') : Opened P i h → Opened P i h' := Exists.imp fun _ he => ⟨hs he.1, he.2⟩

theorem Opened.apart (ha : Apart i h h') : Opened P i h' ↔ Opened P i h := by
  obtain ⟨new, rfl, hnew⟩ := ha
  refine ⟨fun ⟨e, he, ht, ho⟩ => ⟨e, (List.mem_append.mp he).resolve_left fun hm => hnew e hm ht, ht, ho⟩, ?_⟩
  exact Opened.mono (List.subset_append_right ..)

theorem opened_cons (he : opensIndex P e = none) : Opened P i (e :: h) ↔ Opened P i h := by
  refine ⟨fun ⟨f, hf, ht, ho⟩ => ?_, Opened.mono (List.subset_cons_self ..)⟩
  rcases List.mem_cons.mp hf with rfl | hf
  · rw [he] at ho
    cases ho
  · exact ⟨f, hf, ht, ho⟩

/-- A call of the task that is the last one on a file was so before the others called. -/
theorem lastOn_apart (ha : Apart i h h') (he : lastOn n h' = some e) (ht : e.task = i) : lastOn n h = some e := by
  obtain ⟨new, rfl, hnew⟩ := ha
  rw [lastOn, List.find?_append] at he
  cases hf : new.find? fun e => touched e = some n with
  | none => rwa [hf, Option.none_or] at he
  | some f =>
    rw [hf, Option.some_or] at he
    obtain rfl := Option.some.inj he
    exact absurd ht (hnew f (List.mem_of_find?_eq_some hf))

/-- The calls of others open nothing for the task. -/
theorem Closed.apart (ha : Apart i h h') (hc : Closed P i h) : Closed P i h' :=
  fun n e he ht => hc n e (lastOn_apart ha he ht) ht

theorem Closed.cons (he : touched e = none) (hc : Closed P i h) : Closed P i (e :: h) :=
  fun n f hf ht => hc n f ((lastOn_cons_of_ne (by simp [he])).symm.trans hf) ht

theorem answered_iff : Answered i h ↔ ∃ e ∈ h, answers e = true ∧ e.task = i := by
  constructor
  · rintro ⟨st, hm⟩
    exact ⟨_, hm, rfl, rfl⟩
  · rintro ⟨⟨j, op, x⟩, hm, ha, rfl⟩
    unfold answers at ha
    split at ha
    · next st _ heq =>
      obtain ⟨-, rfl, -⟩ := Event.mk.inj heq
      exact ⟨st, hm⟩
    · exact absurd ha (by decide)

theorem finishes_iff {temp : Path} : finishes temp e = true ↔ ∃ i sha b, e = ⟨i, .finalized temp sha b, ()⟩ := by
  constructor
  · intro hf
    unfold finishes at hf
    split at hf
    · next i t sha b x =>
      obtain rfl : t = temp := by simpa using hf
      exact ⟨i, sha, b, rfl⟩
    · exact absurd hf (by decide)
  · rintro ⟨i, sha, b, rfl⟩
    simp [finishes]

theorem reports_iff {sha256 : String} {dedup : Bool} :
    reports sha256 dedup e = true ↔ ∃ i temp, e = ⟨i, .finalized temp sha256 dedup, ()⟩ := by
  constructor
  · intro hr
    unfold reports at hr
    split at hr
    · next i t sha b x =>
      simp only [Bool.and_eq_true, decide_eq_true_eq] at hr
      obtain ⟨rfl, rfl⟩ := hr
      exact ⟨i, t, rfl⟩
    · exact absurd hr (by decide)
  · rintro ⟨i, temp, rfl⟩
    simp [reports]

end Grow

end History

end Detritus.Server
