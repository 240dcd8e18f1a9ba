import Detritus.Files.Fault
import Detritus.Process.Discipline
import Detritus.Protocol.Otlp

/-! The world a client's processes act on.

Panic hooks, shippers and log workers share the disk and the locks on it. Each operation
is one step; a lock that is held makes its caller wait. Identifiers, clocks, the order of
directory listings, the answers of a server and the faults of the disk come from outside
(`Env`), one reading for each call. A file is created, and a directory renamed, only into
a directory that is there. -/
namespace Detritus.Client
open Files Protocol Process Discipline

/-- A URL, as it is written. -/
structure Url where
  text : String
  deriving DecidableEq

structure HttpError where
  message : String
  deriving DecidableEq

/-- A request as it is sent. -/
structure HttpRequest where
  url : Url
  authorization : String
  contentType : String
  body : Bytes
  deriving DecidableEq

/-- A response: its status, and the error that its body ends with, if it does. -/
structure Response where
  status : Nat
  failure : Option HttpError
  deriving DecidableEq

/-- What a log worker waits for: a message, the end of its channel, or the next tick. -/
inductive Input where
  | record (record : LogRecord)
  | flush
  | closed
  | tick

/-- How an export ends, if not by its timeout then with a status. -/
inductive ExportOutcome where
  | acknowledged
  | status (text : String)
  | timedOut
  deriving DecidableEq

/-- Why records were not exported. -/
inductive LayerError where
  | flush (text : String)
  deriving DecidableEq

/-- What a client asks of its machine. -/
inductive ClientOp where
  | file (op : FileOp)
  | newUuid
  | now
  /-- A bundle of a panic's text, the backtrace and the environment. -/
  | panicTarball (text : String)
  | lock (p : Path)
  | unlock (p : Path)
  /-- Sends a request; the entry it is for is noted in the history. -/
  | post (entry : Path) (request : HttpRequest)
  /-- `select!` of a log worker -/
  | next
  | exportLogs (request : ExportLogsServiceRequest)
  /-- The answer to who asked for a flush. -/
  | reply (result : Except LayerError Unit)

@[reducible] def ClientOp.Answer : ClientOp → Type
  | file op => op.Answer
  | newUuid => Uuid
  | now => Time
  | panicTarball _ => Except IoError Bytes
  | lock _ | unlock _ => Unit
  | post _ _ => Except HttpError Response
  | next => Input
  | exportLogs _ => ExportOutcome
  | reply _ => Unit

abbrev clientInterface : Interface := ⟨ClientOp, ClientOp.Answer⟩

/-- The disk, and who holds which lock. -/
structure World (ι : Type) where
  disk : Disk
  holder : Path → Option ι

/-- What comes from outside, for each number of a call. -/
structure Env where
  /-- `Uuid::new_v4`, taken to be fresh: there are finitely many and none comes twice. -/
  uuid : Nat → Option Uuid
  fresh : ∀ {m n u}, uuid m = some u → uuid n = some u → m = n
  clock : Nat → Time
  order : Nat → FileOp.Order
  tarball : Nat → String → Except IoError Bytes
  response : Nat → Except HttpError Response
  input : Nat → Input
  exported : Nat → ExportOutcome
  faults : Faults

/-- Identifiers that differ in their first byte, no faults, no network, and a clock that stands still. -/
def quietEnv : Env where
  uuid := Uuid.numbered
  fresh := Uuid.numbered_fresh
  clock _ := 0
  order _ := ⟨id, fun l => .refl l⟩
  tarball _ _ := .ok [3]
  response _ := .error ⟨"no route"⟩
  input _ := .closed
  exported _ := .timedOut
  faults _ := none

/-- The operation needs a directory that is not there. -/
def orphan : FileOp → Disk → Bool
  | .create p, d | .openAppend p, d => (d.dir p.parent).isNone
  | .renameDir _ dst, d => (d.dir dst.parent).isNone
  | _, _ => false

/-- A file operation fails where the environment says so. -/
def execFile (env : Env) (n : Nat) (op : FileOp) (d : Disk) : op.Answer × Disk :=
  match env.faults n with
  | some fault => fault.exec (env.clock n) op d
  | none => if orphan op d then (.error .notFound, d) else op.exec (env.clock n) (env.order n) d

section Outcomes
variable {env : Env} {n : Nat} {d : Disk} {op : FileOp}

/-- What succeeds was hit by no fault. -/
theorem execFile_ok {v : op.Value} (h : (execFile env n op d).1 = .ok v) : env.faults n = none ∧ orphan op d = false ∧
    execFile env n op d = op.exec (env.clock n) (env.order n) d := by
  unfold execFile at h ⊢
  cases hn : env.faults n with
  | some fault =>
    rw [hn] at h
    exact absurd ((fault.exec_answer ..).symm.trans h) (by simp)
  | none =>
    rw [hn] at h
    dsimp only at h ⊢
    cases ho : orphan op d with
    | true =>
      rw [ho] at h
      cases h
    | false => exact ⟨rfl, rfl, rfl⟩

/-- What fails has changed nothing, unless it is a write. -/
theorem execFile_error {e : IoError} (hop : ∀ g bytes, op ≠ .write g bytes) (h : (execFile env n op d).1 = .error e) :
    (execFile env n op d).2 = d := by
  unfold execFile at h ⊢
  cases hn : env.faults n with
  | some fault => exact fault.exec_disk _ hop d
  | none =>
    rw [hn] at h
    dsimp only at h ⊢
    split at h
    · rw [if_pos ‹_›]
    · rw [if_neg ‹_›]
      exact op.exec_error h

/-- A write that fails may have written a part. -/
theorem execFile_write_error {handle : Handle} {bytes : Bytes} {e : IoError}
    (h : (execFile env n (.write handle bytes) d).1 = .error e) : ∃ fault : Fault,
      (execFile env n (.write handle bytes) d).2 = (d.write handle (fault.torn bytes) (env.clock n)).2 := by
  unfold execFile at h ⊢
  cases hn : env.faults n with
  | some fault => exact ⟨fault, rfl⟩
  | none =>
    rw [hn] at h
    cases h

theorem execFile_sound (hfaults : env.faults n = none)
    (horphan : orphan op d = false) : execFile env n op d = op.exec (env.clock n) (env.order n) d := by
  rw [execFile, hfaults]
  simp [horphan]

theorem execFile_quiet (hop : op.quiet = true) : d.SameFiles (execFile env n op d).2 := by
  have hwrite : ∀ g bytes, op ≠ .write g bytes := by
    rintro g bytes rfl
    cases hop
  cases hx : (execFile env n op d).1 with
  | error e =>
    rw [execFile_error hwrite hx]
    exact ⟨rfl, rfl, rfl⟩
  | ok v =>
    rw [(execFile_ok hx).2.2]
    exact FileOp.exec_quiet hop ..

theorem execFile_read {p : Path} {bytes : Bytes} (h : (execFile env n (.read p) d).1 = .ok bytes) :
    d.content p = some bytes := by
  rw [(execFile_ok h).2.2] at h
  have hread : d.read p = .ok bytes := h
  unfold Disk.read at hread
  cases hp : d.content p with
  | none =>
    rw [hp] at hread
    cases hread
  | some b =>
    rw [hp] at hread
    rw [Except.ok.inj hread]

end Outcomes

section World
variable {ι : Type}

/-- Locks do not outlive their holder. -/
def World.release [DecidableEq ι] (i : ι) (w : World ι) : World ι :=
  {w with holder := fun p => if w.holder p = some i then none else w.holder p}

/-- What each operation does. -/
def World.exec (env : Env) (i : ι) (n : Nat) : Machine clientInterface (World ι) := fun op w =>
  match op with
  | .file op => some ((execFile env n op w.disk).1, {w with disk := (execFile env n op w.disk).2})
  | .newUuid => (env.uuid n).map fun u => (u, w)
  | .now => some (env.clock n, w)
  | .panicTarball text => some (env.tarball n text, w)
  | .lock p => match w.holder p with
    | none => some ((), {w with holder := Function.update w.holder p (some i)})
    | some _ => none
  | .unlock p => some ((), {w with holder := Function.update w.holder p none})
  | .post _ _ => some (env.response n, w)
  | .next => some (env.input n, w)
  | .exportLogs _ => some (env.exported n, w)
  | .reply _ => some ((), w)

abbrev ClientEvent (ι : Type) := Process.Event clientInterface ι
abbrev ClientState (ι : Type) := Recorded clientInterface ι (World ι)

/-- The operations of a process, with the history. -/
def execAs (env : Env) (i : ι) : Machine clientInterface (ClientState ι) := record (World.exec env i) i

/-! ### Code -/

/-- Code that can fail with an error of type `ε`. -/
abbrev Action (ε α : Type) := ExceptT ε (Program clientInterface) α

variable {ε α β : Type} {op : FileOp}

/-- One operation. -/
def call (op : ClientOp) : Action ε op.Answer := ExceptT.mk (.call op fun x => .done (.ok x))

/-- A file operation whose outcome the code looks at. -/
def attempt (op : FileOp) : Action ε op.Answer := call (.file op)

/-- A file operation followed by `?`. -/
def file (wrap : IoError → ε) (op : FileOp) : Action ε op.Value :=
  ExceptT.mk (.call (.file op) fun x => .done (x.mapError wrap))

/-- A computation without operations. -/
def liftExcept (r : Except ε α) : Action ε α := ExceptT.mk (.done r)

/-! ### Runs -/

/-- The run of a process by itself. -/
def Action.alone (env : Env) (i : ι) (p : Action ε α) (w : ClientState ι) : Option (Except ε α × ClientState ι) :=
  p.run.run (execAs env i) w

/-- The state after a file operation. -/
def after (env : Env) (i : ι) (w : ClientState ι) (op : FileOp) : ClientState ι :=
  ⟨{w.state with disk := (execFile env w.history.length op w.state.disk).2},
    ⟨i, .file op, (execFile env w.history.length op w.state.disk).1⟩ :: w.history⟩

/-- The state after a call that changes nothing. -/
def called (i : ι) (w : ClientState ι) (op : ClientOp) (x : op.Answer) : ClientState ι :=
  ⟨w.state, ⟨i, op, x⟩ :: w.history⟩

section Runs
variable {env : Env} {i : ι} {w u : ClientState ι} {r : Except ε β}

@[simp] theorem after_disk (op : FileOp) :
    (after env i w op).state.disk = (execFile env w.history.length op w.state.disk).2 := rfl

@[simp] theorem after_calls (op : FileOp) : (after env i w op).history.length = w.history.length + 1 := rfl

@[simp] theorem called_state (op : ClientOp) (x : op.Answer) : (called i w op x).state = w.state := rfl

@[simp] theorem called_calls (op : ClientOp) (x : op.Answer) :
    (called i w op x).history.length = w.history.length + 1 := rfl

theorem execAs_file {x : op.Answer} (h : execAs env i (.file op) w = some (x, u)) :
    (execFile env w.history.length op w.state.disk).1 = x ∧ u = after env i w op := by
  obtain ⟨hexec, hh⟩ := record_eq_some.mp h
  obtain ⟨rfl, hstate⟩ := result_eq hexec
  refine ⟨rfl, ?_⟩
  cases u
  simp only at hstate hh
  rw [after, hstate, hh]

theorem bind_some {p : Action ε α} {f : α → Action ε β} (h : Action.alone env i (p >>= f) w = some (r, u)) :
    ∃ r' v, p.alone env i w = some (r', v) ∧
      match r' with
      | .ok a => (f a).alone env i v = some (r, u)
      | .error e => r = .error e ∧ u = v := by
  obtain ⟨r', v, hp, h⟩ := Program.run_bind_some h
  refine ⟨r', v, hp, ?_⟩
  cases r' with
  | ok a => exact h
  | error e => exact h

theorem pure_some {a : β} (h : Action.alone env i (pure a) w = some (r, u)) : r = .ok a ∧ u = w := by
  obtain ⟨rfl, rfl⟩ := result_eq h
  exact ⟨rfl, rfl⟩

theorem lift_some {r' : Except ε β} (h : Action.alone env i (liftExcept r') w = some (r, u)) : r = r' ∧ u = w := by
  obtain ⟨rfl, rfl⟩ := result_eq h
  exact ⟨rfl, rfl⟩

theorem alone_attempt (op : FileOp) (f : op.Answer → Action ε β) :
    Action.alone env i (attempt op >>= f) w =
      (f (execFile env w.history.length op w.state.disk).1).alone env i (after env i w op) := rfl

/-- A file operation followed by `?`, and the rest. -/
theorem file_some {wrap : IoError → ε} {f : op.Value → Action ε β}
    (h : Action.alone env i (file wrap op >>= f) w = some (r, u)) :
    (∃ v, (execFile env w.history.length op w.state.disk).1 = .ok v ∧
        (f v).alone env i (after env i w op) = some (r, u)) ∨
      ∃ e, (execFile env w.history.length op w.state.disk).1 = .error e ∧ r = .error (wrap e) ∧
        u = after env i w op := by
  have h : (ExceptT.bindCont f ((execFile env w.history.length op w.state.disk).1.mapError wrap)).run
    (execAs env i) (after env i w op) = some (r, u) := h
  cases hx : (execFile env w.history.length op w.state.disk).1 with
  | ok v =>
    rw [hx] at h
    exact .inl ⟨v, rfl, h⟩
  | error e =>
    rw [hx] at h
    obtain ⟨rfl, rfl⟩ := result_eq h
    exact .inr ⟨e, rfl, rfl, rfl⟩

theorem newUuid_some {f : Uuid → Action ε β} (h : Action.alone env i (call .newUuid >>= f) w = some (r, u)) :
    ∃ id, env.uuid w.history.length = some id ∧ (f id).alone env i (called i w .newUuid id) = some (r, u) := by
  obtain ⟨⟨x, v⟩, hx, h⟩ := Option.bind_eq_some_iff.mp h
  obtain ⟨hexec, hh⟩ := record_eq_some.mp hx
  obtain ⟨id, hid, he⟩ := Option.map_eq_some_iff.mp hexec
  obtain ⟨rfl, hstate⟩ := Prod.mk.inj he
  refine ⟨id, hid, ?_⟩
  have hv : v = called i w .newUuid id := by
    cases v
    simp only at hstate hh
    rw [called, hstate, hh]
  rw [← hv]
  exact h

theorem alone_now (f : Time → Action ε β) : Action.alone env i (call .now >>= f) w =
    (f (env.clock w.history.length)).alone env i (called i w .now (env.clock w.history.length)) := rfl

theorem alone_panicTarball (text : String) (f : Except IoError Bytes → Action ε β) :
    Action.alone env i (call (.panicTarball text) >>= f) w =
      (f (env.tarball w.history.length text)).alone env i
        (called i w (.panicTarball text) (env.tarball w.history.length text)) := rfl

end Runs

/-! ### Disciplines -/

section Minds
variable {Q : β → List (ClientEvent ι) → Prop} {h : List (ClientEvent ι)} {D : Discipline clientInterface ι} {i : ι}

theorem minds_file {wrap : IoError → ε} {f : op.Value → Action ε β} (hop : D.may i (.file op) h)
    (hf : ∀ v, D.fits (.file op) (.ok v : op.Answer) → D.Minds i Q (f v) (⟨i, .file op, (.ok v : op.Answer)⟩ :: h)) :
    D.Minds i Q (file wrap op >>= f) h := by
  refine Minds.attempt hop fun x v hv hx => ?_
  subst hv
  exact hf v hx

end Minds

end World

end Detritus.Client
