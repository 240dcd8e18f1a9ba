import Detritus.Server.LogExport

/-! The log store as a system: any number of requests, the writer of each channel, and a
shutdown once the requests are answered, whose steps interleave in any order.

What a task has done is read off the history: the lines that were sent, by whom and to
which channel; what the writer of a channel received, and when; who holds a sender. The
invariant ties these to the channels and to the files. -/
namespace Detritus.Server
open Files Protocol Process

/-- The requests, a writer for each channel, and the end. -/
inductive LogTask (κ : Type) where
  | handler (j : κ)
  | writer (channel : Nat)
  | shutdown
  deriving DecidableEq

/-- A log endpoint with all of its requests. -/
structure LogSystem (κ : Type) where
  json : SerdeJson
  storage : StoragePaths
  utcDate : Time → NaiveDate
  env : Env
  handler : LogsHandler
  requests : κ → LogsRequest

abbrev LogState (κ : Type) := ServerState (LogTask κ)
abbrev LogEvent (κ : Type) := ServerEvent (LogTask κ)

namespace LogSystem
variable {κ : Type} (Y : LogSystem κ)

abbrev Result : LogTask κ → Type
  | .handler _ => Except Status Unit
  | _ => Unit

def task : (i : LogTask κ) → Task serverInterface (Result i)
  | .handler j => .once (exportLogs Y.handler (Y.requests j))
  | .writer channel => writer Y.json Y.storage Y.utcDate channel
  | .shutdown => .once Server.shutdown

def pool : Pool serverInterface (LogTask κ) (LogState κ) Result where
  task := Y.task
  exec := execAs Y.env
  stop _ _ := none

/-- Storage, and any state of the rate limiter. -/
def initial (d : Disk) (buckets : Buckets) : LogState κ := ⟨⟨d, buckets, []⟩, []⟩

/-- Storage without a log file. -/
structure Blank (d : Disk) : Prop where
  below : ∀ p n, d.file p = some n → n < d.next
  logs : ∀ source date, d.file (Y.storage.logFile source date) = none

/-- A line as it is stored. -/
def encode (line : Json) : Bytes := Y.json.write line ++ [0x0a]

end LogSystem

/-! ### What the history tells -/

section History
variable {κ : Type}

/-- The request has been answered. -/
def Replied (j : κ) (h : List (LogEvent κ)) : Prop :=
  ∃ status, (⟨.handler j, .observe (.request .logs status), ()⟩ : LogEvent κ) ∈ h

/-- The map of writers has been emptied. -/
def Drained (h : List (LogEvent κ)) : Prop :=
  ∃ channels, (⟨.shutdown, .drain, channels⟩ : LogEvent κ) ∈ h

/-- A line that a channel took: from whom, and which channel. -/
structure Sent (κ : Type) where
  task : LogTask κ
  channel : Nat
  line : Json

/-- A line that was taken. -/
def sends : LogEvent κ → Option (Sent κ)
  | ⟨i, .trySend channel line, x⟩ => match x with
    | .ok () => some ⟨i, channel, line⟩
    | .error _ => none
  | _ => none

/-- Every line that was sent. -/
def sent (h : List (LogEvent κ)) : List (Sent κ) := noted sends h

/-- A line that the writer received. -/
def takes (channel : Nat) : LogEvent κ → Option Json
  | ⟨i, .recv c, x⟩ => match i with
    | .writer k => if k = channel ∧ c = channel then x else none
    | _ => none
  | _ => none

/-- The lines that the writer of a channel received. -/
def received (channel : Nat) (h : List (LogEvent κ)) : List Json := noted (takes channel) h

/-- The clock, as the writer read it. -/
def reads (channel : Nat) : LogEvent κ → Option Time
  | ⟨i, .now, t⟩ => match i with
    | .writer k => if k = channel then some t else none
    | _ => none
  | _ => none

/-- When the writer of a channel received them: it looks at the clock after each. -/
def stamps (channel : Nat) (h : List (LogEvent κ)) : List Time := noted (reads channel) h

/-- The lines of a channel, each with the time. -/
def journal (channel : Nat) (h : List (LogEvent κ)) : List (Json × Time) :=
  (received channel h).zip (stamps channel h)

/-- A sender of the channel was handed out. -/
def opens (channel : Nat) : LogEvent κ → Bool
  | ⟨_, .senderFor _, k⟩ => k = channel
  | _ => false

/-- A sender of the channel was dropped. -/
def drops (channel : Nat) : LogEvent κ → Bool
  | ⟨_, .dropSender k, _⟩ => k = channel
  | _ => false

end History

/-! ### The invariant -/

/-- The source of a channel. -/
def Writers.sourceOf (ws : Writers) (k : Nat) : Option SourceKey := ws[k]?.map Channel.source

section Inv
variable {κ : Type} [DecidableEq κ]

/-- What was sent to a channel was received or waits, in the order it was sent. -/
structure Queues (ws : Writers) (h : List (LogEvent κ)) : Prop where
  fifo : ∀ k, ((sent h).filter (·.channel = k)).map Sent.line = received k h ++ ws.queued k
  known : ∀ x ∈ sent h, x.channel < ws.length ∧ ∃ j, x.task = .handler j

/-- No source ever has a second channel, because the map is emptied only at the end. -/
structure Names (ws : Writers) (h : List (LogEvent κ)) : Prop where
  distinct : ∀ (k k' : Nat) (c c' : Channel), ws[k]? = some c → ws[k']? = some c' → c.source = c'.source → k = k'
  valid : ∀ (k : Nat) (c : Channel), ws[k]? = some c → c.source.Valid
  listed : ¬ Drained h → ∀ (k : Nat) (c : Channel), ws[k]? = some c → c.listed = true
  replied : Drained h → ∀ j, Replied j h

/-- The senders of a channel are those handed out and not dropped, and that of the map. -/
structure Counts (ws : Writers) (h : List (LogEvent κ)) : Prop where
  senders : ∀ (k : Nat) (c : Channel), ws[k]? = some c →
    c.senders + h.countP (drops k) = h.countP (opens k) + if c.listed then 1 else 0
  unopened : ∀ k, ws.length ≤ k → h.countP (opens k) = 0 ∧ h.countP (drops k) = 0
  held : ∀ i k, countBy i (drops k) h ≤ countBy i (opens k) h

end Inv

namespace LogSystem
variable {κ : Type} (Y : LogSystem κ)

/-- What the file of a day holds. -/
def bytesOn (date : NaiveDate) (lines : List (Json × Time)) : Bytes :=
  (lines.filter fun x => Y.utcDate x.2 = date).flatMap fun x => Y.encode x.1

/-- The files of a source hold these lines, each day's in the file of the day. -/
def Stored (source : SourceKey) (lines : List (Json × Time)) (d : Disk) : Prop :=
  ∀ date, (d.content (Y.storage.logFile source date)).getD [] = Y.bytesOn date lines

/-- Every log file is one of a source that has a channel, with an inode of its own. -/
structure LogFiles (ws : Writers) (d : Disk) : Prop where
  below : ∀ p n, d.file p = some n → n < d.next
  injective : ∀ source date q n, d.file (Y.storage.logFile source date) = some n → d.file q = some n →
    q = Y.storage.logFile source date
  logs : ∀ source date n, source.Valid → d.file (Y.storage.logFile source date) = some n →
    ∃ k, ws.sourceOf k = some source

/-- A writer that has ended has stored all that was sent to its channel. -/
def Settled (w : LogState κ) : Prop :=
  ∀ (k : Nat) (c : Channel), w.state.writers[k]? = some c → c.ended = true → c.queue = [] ∧
    (received k w.history).length = (stamps k w.history).length ∧
    Y.Stored c.source (journal k w.history) w.state.disk

/-- What holds of the log endpoint at every moment. -/
structure Inv [DecidableEq κ] (w : LogState κ) : Prop where
  queues : Queues w.state.writers w.history
  names : Names w.state.writers w.history
  counts : Counts w.state.writers w.history
  files : Y.LogFiles w.state.writers w.state.disk
  settled : Y.Settled w

/-! ### Steps -/

/-- The writer of the channel has not ended. -/
def Active (k : Nat) (w : LogState κ) : Prop := ∃ c, w.state.writers[k]? = some c ∧ c.ended = false

/-- The task holds a sender of the channel. -/
def Holding [DecidableEq κ] (i : LogTask κ) (k : Nat) (h : List (LogEvent κ)) : Prop :=
  countBy i (drops k) h < countBy i (opens k) h

/-- What the tasks do: a request only before it is answered, a writer only on its channel and
the files of its source. -/
def Legal [DecidableEq κ] : LogTask κ → ServerOp → LogState κ → Prop
  | .handler j, op, w => ¬ Replied j w.history ∧ match op with
    | .check _ _ _ | .observe _ | .report _ | .capacity _ => True
    | .senderFor source => source.Valid
    | .trySend k _ | .dropSender k => Holding (.handler j) k w.history
    | _ => False
  | .writer k, op, w => match op with
    | .report _ | .file (.sync _) | .file (.createDirAll _) => True
    | .accept c => c = k
    | .recv c => c = k ∧ Active k w
    | .now => Active k w
    | .file (.openAppend p) => Active k w ∧ ∃ source date, w.state.writers.sourceOf k = some source ∧
        p = Y.storage.logFile source date
    | .file (.write handle _) => Active k w ∧ handle.append = true ∧ ∃ source date,
        w.state.writers.sourceOf k = some source ∧
        w.state.disk.file (Y.storage.logFile source date) = some handle.inode
    | .finish c => c = k ∧ ∃ ch, w.state.writers[k]? = some ch ∧ ch.queue = [] ∧
        (received k w.history).length = (stamps k w.history).length ∧
        Y.Stored ch.source (journal k w.history) w.state.disk
    | _ => False
  | .shutdown, op, w => match op with
    | .drain => ∀ j, Replied j w.history
    | .join _ => True
    | _ => False

/-- What a channel can become by the calls of tasks other than its writer. -/
structure Unharmed (c c' : Channel) : Prop where
  source : c'.source = c.source
  ended : c'.ended = c.ended
  /-- Nothing is sent to a channel without senders, nor to one without a writer. -/
  closed : c.queue = [] → c.senders = 0 → c'.queue = [] ∧ c'.senders = 0
  past : c.ended = true → c'.queue = c.queue

/-- A channel whose writer has not begun. -/
def Unborn (c : Channel) (d : Disk) : Prop :=
  c.ended = false ∧ ∀ date, d.file (Y.storage.logFile c.source date) = none

/-- What a task finds of its own after the calls of others. -/
structure Frame (i : LogTask κ) (w w' : LogState κ) : Prop where
  apart : Apart i w.history w'.history
  /-- No channel goes, and none that has ended comes back. -/
  kept : ∀ (k : Nat) (c : Channel), w.state.writers[k]? = some c → ∃ c', w'.state.writers[k]? = some c' ∧
    c'.source = c.source ∧ (c.ended = true → c'.ended = true) ∧ (i = .writer k → Unharmed c c')
  /-- A channel that came has had no writer. -/
  born : ∀ (k : Nat) (c' : Channel), w'.state.writers[k]? = some c' → i = .writer k →
    w.state.writers[k]? = none → Unborn Y c' w'.state.disk
  files : ∀ (k : Nat) (c : Channel), i = .writer k → w.state.writers[k]? = some c → ∀ date,
    w'.state.disk.file (Y.storage.logFile c.source date) = w.state.disk.file (Y.storage.logFile c.source date) ∧
    w'.state.disk.content (Y.storage.logFile c.source date) =
      w.state.disk.content (Y.storage.logFile c.source date)
  complete : Drained w.history → w'.state.writers.length = w.state.writers.length

end LogSystem

end Detritus.Server
