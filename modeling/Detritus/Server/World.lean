import Detritus.Files.Operations
import Detritus.Process.History
import Detritus.Server.Admission

/-! The world a server's tasks act on.

Handlers, log writers and the janitor share the disk, the rate limiter's buckets and
the channels to the log writers. Each operation is one step on them; what the code
does under a lock (`check`, `senderFor`, `drain`) is one step because of the lock.
Fresh identifiers, clocks and the order of directory listings come from outside
(`Env`), one reading for each call. Metrics are calls without effect, so that the
history has them; so are `finalizing` and `finalized`, the two ends of a call of
`finalize_blob`. -/
namespace Detritus.Server
open Files Protocol Process

/-- What is counted. -/
inductive Metric where
  | request (endpoint : Endpoint) (status : Nat)
  | validationFailure (endpoint : Endpoint)
  | bytes (endpoint : Endpoint) (len : Nat)
  | dedupHit
  | writerQueueDepth (source : String) (depth : Nat)
  deriving DecidableEq

/-- Why a channel did not take a line. -/
inductive SendError where
  | full
  | closed
  deriving DecidableEq

/-- What a task asks of the server. -/
inductive ServerOp where
  | file (op : FileOp)
  | newUuid
  | now
  | check (key : RateKey) (perMinute burst : UInt32)
  | observe (metric : Metric)
  | finalizing (temp : Path) (sha256 : String)
  | finalized (temp : Path) (sha256 : String) (dedup : Bool)
  | senderFor (source : SourceKey)
  | trySend (channel : Nat) (line : Json)
  | capacity (channel : Nat)
  | dropSender (channel : Nat)
  /-- The start of the writer of a channel. -/
  | accept (channel : Nat)
  | recv (channel : Nat)
  /-- The end of the writer of a channel. -/
  | finish (channel : Nat)
  | drain
  | join (channel : Nat)
  /-- `tracing::error!` -/
  | report (message : String)
  /-- The task is gone. -/
  | panic
  /-- A loop goes round once more than the model follows it. -/
  | unended

@[reducible] def ServerOp.Answer : ServerOp → Type
  | file op => op.Answer
  | newUuid => Uuid
  | now => Time
  | check _ _ _ => Bool
  | senderFor _ => Nat
  | trySend _ _ => Except SendError Unit
  | capacity _ => Nat
  | accept _ => SourceKey
  | recv _ => Option Json
  | drain => List Nat
  | panic | unended => Empty
  | _ => Unit

abbrev serverInterface : Interface := ⟨ServerOp, ServerOp.Answer⟩

/-! ### Channels to the log writers -/

/-- How many lines may wait in a channel. -/
def WRITER_CHANNEL_CAPACITY : Nat := 10000

/-- `listed` says that the pool's map holds a sender of it, `senders` counts those that are
alive, the map's included, and `ended` says that the receiver is gone. -/
structure Channel where
  source : SourceKey
  queue : List Json
  senders : Nat
  listed : Bool
  ended : Bool

/-- Every channel there has been, each known by its number. The map of the pool is the
listed ones. -/
abbrev Writers := List Channel

namespace Writers

/-- The channel that the map holds for a source. -/
def lookup (ws : Writers) (source : SourceKey) : Option Nat :=
  ws.findIdx? fun c => c.listed && c.source = source

/-- A clone of a source's sender; a source without one gets a channel. -/
def senderFor (ws : Writers) (source : SourceKey) : Nat × Writers :=
  match ws.lookup source with
  | some k => (k, ws.modify k fun c => {c with senders := c.senders + 1})
  | none => (ws.length, ws ++ [⟨source, [], 2, true, false⟩])

/-- A line is taken at once or not at all. -/
def trySend (ws : Writers) (k : Nat) (line : Json) : Option (Except SendError Unit × Writers) :=
  ws[k]?.map fun c =>
    if c.ended then (.error .closed, ws)
    else if WRITER_CHANNEL_CAPACITY ≤ c.queue.length then (.error .full, ws)
    else (.ok (), ws.modify k fun c => {c with queue := c.queue ++ [line]})

/-- The next line; nothing once every sender is gone; waits in between. -/
def recv (ws : Writers) (k : Nat) : Option (Option Json × Writers) :=
  match ws[k]? with
  | none => none
  | some c => match c.queue with
    | line :: rest => some (some line, ws.modify k fun c => {c with queue := rest})
    | [] => if c.senders = 0 then some (none, ws) else none

def dropSender (ws : Writers) (k : Nat) : Writers := ws.modify k fun c => {c with senders := c.senders - 1}

/-- Empties the map; its senders go with it. -/
def drain (ws : Writers) : List Nat × Writers :=
  (ws.findIdxs Channel.listed, ws.map fun c => if c.listed then {c with listed := false, senders := c.senders - 1} else c)

end Writers

/-! ### The world -/

/-- The disk, the rate limiter and the channels. -/
structure World where
  disk : Disk
  buckets : Buckets
  writers : Writers

/-- What comes from outside, for each number of a call. -/
structure Env where
  /-- `Uuid::new_v4`, taken to be fresh: there are finitely many and none comes twice. -/
  uuid : Nat → Option Uuid
  fresh : ∀ {m n u}, uuid m = some u → uuid n = some u → m = n
  /-- `SystemTime::now` and the times of files -/
  clock : Nat → Time
  /-- `Instant::now` -/
  instant : Nat → Time
  order : Nat → FileOp.Order

/-- No identifiers, and clocks that stand still. -/
def stillEnv : Env where
  uuid _ := none
  fresh h := by cases h
  clock _ := 0
  instant _ := 0
  order _ := ⟨id, fun l => .refl l⟩

/-- What each operation does. One without an answer waits. -/
def World.exec (env : Env) (n : Nat) : Machine serverInterface World := fun op w =>
  match op with
  | .file op =>
    let r := op.exec (env.clock n) (env.order n) w.disk
    some (r.1, {w with disk := r.2})
  | .newUuid => (env.uuid n).map fun u => (u, w)
  | .now => some (env.clock n, w)
  | .check key perMinute burst =>
    let r := w.buckets.check key perMinute burst (env.instant n)
    some (r.1, {w with buckets := r.2})
  | .observe _ | .finalizing _ _ | .finalized _ _ _ | .report _ => some ((), w)
  | .senderFor source =>
    let r := w.writers.senderFor source
    some (r.1, {w with writers := r.2})
  | .trySend k line => (w.writers.trySend k line).map fun r => (r.1, {w with writers := r.2})
  | .capacity k => w.writers[k]?.map fun c => (WRITER_CHANNEL_CAPACITY - c.queue.length, w)
  | .dropSender k => some ((), {w with writers := w.writers.dropSender k})
  | .accept k => w.writers[k]?.map fun c => (c.source, w)
  | .recv k => (w.writers.recv k).map fun r => (r.1, {w with writers := r.2})
  | .finish k => some ((), {w with writers := w.writers.modify k fun c => {c with ended := true}})
  | .drain =>
    let r := w.writers.drain
    some (r.1, {w with writers := r.2})
  | .join k => match w.writers[k]? with
    | some c => if c.ended then some ((), w) else none
    | none => none
  | .panic | .unended => none

theorem World.exec_newUuid {u : Uuid} (h : World.exec env n .newUuid w = some (u, w')) : env.uuid n = some u := by
  obtain ⟨v, hv, he⟩ := Option.map_eq_some_iff.mp h
  rw [hv, (Prod.mk.inj he).1]

variable {w w' : World} {env : Env} {n : Nat}

theorem World.exec_file {op : FileOp} {x : op.Answer} :
    World.exec env n (.file op) w = some (x, w') ↔ x = (op.exec (env.clock n) (env.order n) w.disk).1 ∧
      w' = {w with disk := (op.exec (env.clock n) (env.order n) w.disk).2} := by
  simp [World.exec, Prod.ext_iff, eq_comm]

/-- Only file operations change the disk. -/
theorem World.exec_disk {op : ServerOp} {x : op.Answer} (hop : ∀ o, op ≠ .file o)
    (h : World.exec env n op w = some (x, w')) : w'.disk = w.disk := by
  cases op with
  | file o => exact absurd rfl (hop o)
  | panic | unended => exact x.elim
  | trySend k line | recv k =>
    obtain ⟨r, -, hr⟩ := Option.map_eq_some_iff.mp h
    rw [← (Prod.mk.inj hr).2]
  | newUuid | capacity k | accept k =>
    obtain ⟨c, -, hr⟩ := Option.map_eq_some_iff.mp h
    rw [← (Prod.mk.inj hr).2]
  | join k =>
    simp only [World.exec] at h
    split at h
    · split at h
      · rw [← (result_eq h).2]
      · exact absurd h (by simp)
    · exact absurd h (by simp)
  | _ => rw [← (result_eq h).2]

abbrev ServerEvent (ι : Type) := Event serverInterface ι
abbrev ServerState (ι : Type) := Recorded serverInterface ι World

/-- A server that has just started on an empty disk. -/
def emptyState : ServerState Unit := ⟨⟨.empty, fun _ => none, []⟩, []⟩

/-- The operations of a task, with the history. -/
def execAs {ι : Type} (env : Env) (i : ι) : Machine serverInterface (ServerState ι) := record (World.exec env) i

/-! ### Handlers -/

/-- Code that can fail with an error of type `ε`. -/
abbrev Handler (ε α : Type) := ExceptT ε (Program serverInterface) α

variable {ε : Type}

/-- One operation. -/
def call (op : ServerOp) : Handler ε op.Answer :=
  ExceptT.mk (.call op fun x => .done (.ok x))

/-- A file operation whose outcome the code looks at. -/
def attempt (op : FileOp) : Handler ε op.Answer := call (.file op)

/-- A file operation followed by `?`. -/
def file (wrap : IoError → ε) (op : FileOp) : Handler ε op.Value :=
  ExceptT.mk (.call (.file op) fun x => .done (x.mapError wrap))

/-- A computation without operations. -/
def liftExcept {α : Type} (r : Except ε α) : Handler ε α := ExceptT.mk (.done r)

end Detritus.Server
