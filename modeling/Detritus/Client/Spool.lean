import Detritus.Process.Rely
import Detritus.Client.Entry
import Detritus.Client.Shipping

/-! A spool directory and what is done to it.

An entry has a name and is a directory below `pending` or below `sent`. Of a call only its
`Mark` matters here: an identifier issued, a directory opened for an entry, the lock taken
or released, a listing of `pending`, an entry acknowledged, moved or removed. `Effect` says
what a call with each mark may find and do. Everything that holds of a spool in every
execution is derived from that; which programs keep to it is another matter. -/
namespace Detritus.Client
open Files Protocol Process

/-! ### Paths -/

section Paths
variable (spool : Path)

/-- Entries to be shipped. -/
def pendingDir : Path := spool ++ ["pending"]

/-- Entries that were shipped. -/
def sentDir : Path := spool ++ ["sent"]

def pendingAt (x : String) : Path := pendingDir spool ++ [x]

def sentAt (x : String) : Path := sentDir spool ++ [x]

/-- The name that a path has in a directory. -/
def nameIn (dir p : Path) : Option String := if p.dropLast = dir then p.getLast? else none

end Paths

@[simp] theorem nameIn_append (dir : Path) (x : String) : nameIn dir (dir ++ [x]) = some x := by
  rw [nameIn, List.dropLast_concat, if_pos rfl, List.getLast?_concat]

theorem eq_of_nameIn {dir p : Path} {x : String} (h : nameIn dir p = some x) : p = dir ++ [x] := by
  unfold nameIn at h
  split at h
  · next hdir =>
    rw [← hdir]
    exact (List.dropLast_append_getLast? x h).symm
  · cases h

/-! ### Marks -/

/-- What an event means to the spool. -/
inductive Mark where
  | issued (u : Uuid)
  | opened (x : String)
  | locked
  | unlocked
  | listed (entries : List Path)
  | acked (x : String)
  | moved (x : String)
  | removed (x : String)
  | other
  deriving DecidableEq

/-- The directories of a listing, sorted. -/
def sortedDirs (listing : List (Path × Bool)) : List Path := ((listing.filter (·.2)).map Prod.fst).mergeSort

section Marks
variable {τ : Type} (spool : Path)

def mark : ClientEvent τ → Mark
  | ⟨_, .newUuid, u⟩ => .issued u
  | ⟨_, .lock p, _⟩ => if p = lockPath spool then .locked else .other
  | ⟨_, .unlock p, _⟩ => if p = lockPath spool then .unlocked else .other
  | ⟨_, .post p _, .ok response⟩ =>
    if response.isSuccess then (nameIn (pendingDir spool) p).elim .other .acked else .other
  | ⟨_, .file (.createDirAll p), .ok _⟩ => (nameIn (pendingDir spool) p).elim .other .opened
  | ⟨_, .file (.readDir p), .ok listing⟩ => if p = pendingDir spool then .listed (sortedDirs listing) else .other
  | ⟨_, .file (.renameDir src dst), .ok _⟩ =>
    match nameIn (pendingDir spool) src, nameIn (sentDir spool) dst with
    | some x, some y => if x = y then .moved x else .other
    | _, _ => .other
  | ⟨_, .file (.removeDirAll p), .ok _⟩ => (nameIn (sentDir spool) p).elim .other .removed
  | _ => .other

/-- The call that a mark comes from, where it matters. -/
def Mark.From (op : ClientOp) : Mark → Prop
  | issued _ => op = .newUuid
  | locked => op = .lock (lockPath spool)
  | unlocked => op = .unlock (lockPath spool)
  | removed x => op = .file (.removeDirAll (sentAt spool x))
  | _ => True

theorem mark_from (e : ClientEvent τ) : (mark spool e).From spool e.op := by
  obtain ⟨i, op, answer⟩ := e
  cases op with
  | newUuid => rfl
  | now => trivial
  | panicTarball text => trivial
  | lock p =>
    show Mark.From spool _ (if p = lockPath spool then .locked else .other)
    by_cases hp : p = lockPath spool
    · rw [if_pos hp]
      exact congrArg ClientOp.lock hp
    · rw [if_neg hp]
      trivial
  | unlock p =>
    show Mark.From spool _ (if p = lockPath spool then .unlocked else .other)
    by_cases hp : p = lockPath spool
    · rw [if_pos hp]
      exact congrArg ClientOp.unlock hp
    · rw [if_neg hp]
      trivial
  | post p request =>
    cases answer with
    | error e => trivial
    | ok response =>
      show Mark.From spool _ (if response.isSuccess then (nameIn (pendingDir spool) p).elim .other .acked else .other)
      cases response.isSuccess with
      | false => trivial
      | true => cases nameIn (pendingDir spool) p <;> trivial
  | next => trivial
  | exportLogs request => trivial
  | reply result => trivial
  | file op =>
    cases op with
    | createDirAll p =>
      cases answer with
      | error e => trivial
      | ok v =>
        show Mark.From spool _ ((nameIn (pendingDir spool) p).elim .other .opened)
        cases nameIn (pendingDir spool) p <;> trivial
    | readDir p =>
      cases answer with
      | error e => trivial
      | ok l =>
        show Mark.From spool _ (if p = pendingDir spool then .listed (sortedDirs l) else .other)
        by_cases hp : p = pendingDir spool
        · rw [if_pos hp]
          trivial
        · rw [if_neg hp]
          trivial
    | renameDir src dst =>
      cases answer with
      | error e => trivial
      | ok v =>
        show Mark.From spool _ (match nameIn (pendingDir spool) src, nameIn (sentDir spool) dst with
          | some x, some y => if x = y then .moved x else .other
          | _, _ => .other)
        cases nameIn (pendingDir spool) src with
        | none => trivial
        | some x =>
          cases nameIn (sentDir spool) dst with
          | none => trivial
          | some y =>
            dsimp only
            by_cases hxy : x = y
            · rw [if_pos hxy]
              trivial
            · rw [if_neg hxy]
              trivial
    | removeDirAll p =>
      cases answer with
      | error e => trivial
      | ok v =>
        show Mark.From spool _ ((nameIn (sentDir spool) p).elim .other .removed)
        cases hname : nameIn (sentDir spool) p with
        | none => trivial
        | some x => exact congrArg (fun p => ClientOp.file (.removeDirAll p)) (eq_of_nameIn hname)
    | _ => trivial

/-- A process has made a call with this mark. -/
def Did (i : τ) (m : Mark) (h : List (ClientEvent τ)) : Prop := ∃ e ∈ h, e.task = i ∧ mark spool e = m

variable {spool} {i : τ} {m : Mark} {e : ClientEvent τ} {h h' : List (ClientEvent τ)}

theorem did_cons : Did spool i m (e :: h) ↔ (e.task = i ∧ mark spool e = m) ∨ Did spool i m h := by
  unfold Did
  constructor
  · rintro ⟨e', he', hm⟩
    rcases List.mem_cons.mp he' with rfl | he'
    · exact .inl hm
    · exact .inr ⟨e', he', hm⟩
  · rintro (hm | ⟨e', he', hm⟩)
    · exact ⟨e, List.mem_cons_self .., hm⟩
    · exact ⟨e', List.mem_cons_of_mem _ he', hm⟩

theorem did_append : Did spool i m (h ++ h') ↔ Did spool i m h ∨ Did spool i m h' := by
  unfold Did
  simp only [List.mem_append, or_and_right, exists_or]

/-- What a process has done does not depend on the others. -/
theorem did_apart (a : Apart i h h') : Did spool i m h' ↔ Did spool i m h := by
  constructor
  · rintro ⟨e, he, htask, hm⟩
    exact ⟨e, (a.mem htask).mp he, htask, hm⟩
  · rintro ⟨e, he, htask, hm⟩
    exact ⟨e, (a.mem htask).mpr he, htask, hm⟩

theorem did_cons_ne (hm : mark spool e ≠ m) : Did spool i m (e :: h) ↔ Did spool i m h :=
  did_cons.trans (or_iff_right fun he => hm he.2)

theorem Did.mono (hh : h ⊆ h') (hd : Did spool i m h) : Did spool i m h' := by
  obtain ⟨e, he, hm⟩ := hd
  exact ⟨e, hh he, hm⟩

theorem Did.cons (hd : Did spool i m h) : Did spool i m (e :: h) := did_cons.mpr (.inr hd)

end Marks

/-! ### What a call does -/

section Effects
variable {τ : Type} (spool : Path)

/-- An entry waits under this name. -/
def IsPending (w : ClientState τ) (x : String) : Prop := (w.state.disk.dir (pendingAt spool x)).isSome = true

/-- An entry was shipped under this name. -/
def IsSent (w : ClientState τ) (x : String) : Prop := (w.state.disk.dir (sentAt spool x)).isSome = true

/-- Who holds the lock of the spool. -/
def holder (w : ClientState τ) : Option τ := w.state.holder (lockPath spool)

/-- An entry is as it was, wherever it is. -/
structure SameEntry (x : String) (d e : Disk) : Prop where
  pending : e.dir (pendingAt spool x) = d.dir (pendingAt spool x)
  sent : e.dir (sentAt spool x) = d.dir (sentAt spool x)
  pendingFiles : ∀ rest, e.content (pendingAt spool x ++ rest) = d.content (pendingAt spool x ++ rest)
  sentFiles : ∀ rest, e.content (sentAt spool x ++ rest) = d.content (sentAt spool x ++ rest)

/-- The name is one that the process was issued. -/
def Owns (i : τ) (x : String) (h : List (ClientEvent τ)) : Prop := ∃ u : Uuid, x = u.toString ∧ Did spool i (.issued u) h

/-- No entry changes. -/
def Idle (s t : ClientState τ) : Prop := ∀ x, SameEntry spool x s.state.disk t.state.disk

/-- The directory for an entry of a name that was issued to the process is made. -/
structure Opens (i : τ) (x : String) (s t : ClientState τ) : Prop where
  owns : Owns spool i x s.history
  first : ¬ Did spool i (.opened x) s.history
  pending : IsPending spool t x
  sent : t.state.disk.dir (sentAt spool x) = s.state.disk.dir (sentAt spool x)
  others : ∀ y, y ≠ x → SameEntry spool y s.state.disk t.state.disk

/-- An entry that was acknowledged goes from `pending` to `sent` with all it holds. -/
structure Moves (i : τ) (x : String) (s t : ClientState τ) : Prop where
  held : holder spool s = some i
  acked : Did spool i (.acked x) s.history
  pending : IsPending spool s x
  gone : ¬ IsPending spool t x
  sent : t.state.disk.dir (sentAt spool x) = s.state.disk.dir (pendingAt spool x)
  files : ∀ rest, t.state.disk.content (sentAt spool x ++ rest) = s.state.disk.content (pendingAt spool x ++ rest)
  others : ∀ y, y ≠ x → SameEntry spool y s.state.disk t.state.disk

/-- The retention that a process has read from an entry. -/
def Resolved (C : Crates) (i : τ) (x : String) (days : UInt64) (h : List (ClientEvent τ)) : Prop :=
  ∃ bytes config, (⟨i, .file (.read (pendingAt spool x ++ ["sdk-config.json"])),
      (.ok bytes : Except IoError Bytes)⟩ : ClientEvent τ) ∈ h ∧
    C.uploadConfig bytes = .ok config ∧ config.sentRetentionDays = days

/-- The retention that a run cleans up with: the default if it has moved nothing yet, and
otherwise the longest of those it has read from the entries it moved. -/
def Uses (C : Crates) (i : τ) (days : UInt64) (h : List (ClientEvent τ)) : Prop :=
  (∀ x, ¬ Did spool i (.moved x) h) ∧ days = DEFAULT_SENT_RETENTION_DAYS ∨
    (∃ x, Did spool i (.moved x) h ∧ Resolved spool C i x days h) ∧
      ∀ x, Did spool i (.moved x) h → ∃ d ≤ days, Resolved spool C i x d h

/-- A clean-up goes by this retention and has just read this metadata of an entry. -/
def Looked (C : Crates) (i : τ) (x : String) (days : UInt64) (metadata : Metadata) (h : List (ClientEvent τ)) : Prop :=
  ∃ since before, h = since ++ (⟨i, .file (.metadata (sentAt spool x)), (.ok metadata : Except IoError Metadata)⟩ :
      ClientEvent τ) :: before ∧ (∀ e ∈ since, e.task ≠ i) ∧ Uses spool C i days before

/-- It has found the entry too old. -/
def Expired (C : Crates) (i : τ) (x : String) (h : List (ClientEvent τ)) : Prop :=
  ∃ days metadata now, Looked spool C i x days metadata h ∧ (⟨i, .now, now⟩ : ClientEvent τ) ∈ h ∧
    metadata.modified < now - retentionSpan days

/-- An entry that was found too old goes from `sent`. -/
structure Removes (C : Crates) (i : τ) (x : String) (s t : ClientState τ) : Prop where
  held : holder spool s = some i
  expired : Expired spool C i x s.history
  sent : IsSent spool s x
  gone : ¬ IsSent spool t x
  pending : t.state.disk.dir (pendingAt spool x) = s.state.disk.dir (pendingAt spool x)
  others : ∀ y, y ≠ x → SameEntry spool y s.state.disk t.state.disk

/-- Within its own entries a process may change files, and with them the directory's time. -/
structure Writes (i : τ) (s t : ClientState τ) : Prop where
  pending : ∀ x, IsPending spool t x ↔ IsPending spool s x
  sent : ∀ x, t.state.disk.dir (sentAt spool x) = s.state.disk.dir (sentAt spool x)
  others : ∀ x, ¬ Owns spool i x s.history → SameEntry spool x s.state.disk t.state.disk

variable (C : Crates) (env : Env)

/-- What a call with this mark may find and do. -/
def Effect (i : τ) (s t : ClientState τ) : Mark → Prop
  | .issued u => env.uuid s.history.length = some u ∧ holder spool t = holder spool s ∧ Idle spool s t
  | .opened x => holder spool t = holder spool s ∧ Opens spool i x s t
  | .locked => holder spool s = none ∧ holder spool t = some i ∧ ¬ Did spool i .locked s.history ∧ Idle spool s t
  | .unlocked => holder spool s = some i ∧ holder spool t = none ∧ Idle spool s t
  | .listed _ => holder spool s = some i ∧ holder spool t = holder spool s ∧ Idle spool s t
  | .acked x => holder spool s = some i ∧ holder spool t = holder spool s ∧ IsPending spool s x ∧ Idle spool s t
  | .moved x => holder spool t = holder spool s ∧ Moves spool i x s t
  | .removed x => holder spool t = holder spool s ∧ Removes spool C i x s t
  | .other => holder spool t = holder spool s ∧ Writes spool i s t

/-- A step of a process: a call, or its stop, which releases the lock if the process holds it.
A file that had an inode before has it still, at its place or moved with its entry. -/
structure SpoolStep (i : τ) (s t : ClientState τ) : Prop where
  effect : (t.history = s.history ∧ Idle spool s t ∧
      (holder spool s = some i ∧ holder spool t = none ∨
        holder spool s ≠ some i ∧ holder spool t = holder spool s)) ∨
    ∃ e : ClientEvent τ, e.task = i ∧ t.history = e :: s.history ∧ Effect spool C env i s t (mark spool e)
  tidy : s.state.disk.Tidy spool → t.state.disk.Tidy spool
  next : s.state.disk.next ≤ t.state.disk.next
  inodes : ∀ q n, n < s.state.disk.next → t.state.disk.file q = some n → s.state.disk.file q = some n ∨
    ∃ x rest, q = sentAt spool x ++ rest ∧ s.state.disk.file (pendingAt spool x ++ rest) = some n

end Effects

/-! ### What holds throughout -/

section Invariant
variable {τ : Type}

/-- A spool to start from: entries have names of their own, also apart from the identifiers
that will be issued. -/
structure Orderly (spool : Path) (env : Env) (d : Disk) : Prop where
  tidy : d.Tidy spool
  apart : ∀ x, (d.dir (pendingAt spool x)).isSome = true → d.dir (sentAt spool x) = none
  named : ∀ x, (d.dir (pendingAt spool x)).isSome = true → Component x
  fresh : ∀ n u, env.uuid n = some u →
    d.dir (pendingAt spool u.toString) = none ∧ d.dir (sentAt spool u.toString) = none

/-- The name is that of an entry from the start, or of one that its owner has opened. -/
def Used (spool : Path) (start : Disk) (x : String) (h : List (ClientEvent τ)) : Prop :=
  ((start.dir (pendingAt spool x)).isSome = true ∨ (start.dir (sentAt spool x)).isSome = true) ∨
    ∃ i, Owns spool i x h ∧ Did spool i (.opened x) h

/-- What holds of a spool at every moment. -/
structure SpoolInv (spool : Path) (env : Env) (start : Disk) (w : ClientState τ) : Prop where
  tidy : w.state.disk.Tidy spool
  apart : ∀ x, IsPending spool w x → ¬ IsSent spool w x
  named : ∀ x, IsPending spool w x → Component x
  acked : ∀ x, IsSent spool w x →
    (start.dir (sentAt spool x)).isSome = true ∨ ∃ i, Did spool i (.acked x) w.history
  moved : ∀ i x, Did spool i (.moved x) w.history → ¬ IsPending spool w x
  known : ∀ x, (IsPending spool w x ∨ IsSent spool w x ∨ ∃ i, Did spool i (.moved x) w.history) →
    Used spool start x w.history
  issued : ∀ i u, Did spool i (.issued u) w.history → ∃ n < w.history.length, env.uuid n = some u
  single : ∀ i j u, Did spool i (.issued u) w.history → Did spool j (.issued u) w.history → i = j
  held : ∀ i, holder spool w = some i → Did spool i .locked w.history ∧ ¬ Did spool i .unlocked w.history
  /-- Who has released the lock, or has got a success, had taken the lock. -/
  locked : ∀ i, (Did spool i .unlocked w.history ∨ ∃ x, Did spool i (.acked x) w.history) → Did spool i .locked w.history

variable {spool : Path} {C : Crates} {env : Env} {start : Disk} {i j : τ} {s t : ClientState τ} {x : String}

theorem SpoolInv.initial (h : Orderly spool env start) (holders : Path → Option τ)
    (hfree : holders (lockPath spool) = none) : SpoolInv spool env start ⟨⟨start, holders⟩, []⟩ where
  tidy := h.tidy
  apart x hx := by
    show ¬ (start.dir (sentAt spool x)).isSome = true
    rw [h.apart x hx]
    simp
  named := h.named
  acked x hx := .inl hx
  moved := by
    rintro i x ⟨e, he, -⟩
    cases he
  known := by
    rintro x (hx | hx | ⟨i, e, he, -⟩)
    · exact .inl (.inl hx)
    · exact .inl (.inr hx)
    · cases he
  issued := by
    rintro i u ⟨e, he, -⟩
    cases he
  single := by
    rintro i j u ⟨e, he, -⟩
    cases he
  held i hi := by
    have hi : holders (lockPath spool) = some i := hi
    rw [hfree] at hi
    cases hi
  locked := by
    rintro i (⟨e, he, -⟩ | ⟨x, e, he, -⟩)
    · cases he
    · cases he

theorem Idle.isPending (h : Idle spool s t) (x : String) : IsPending spool t x ↔ IsPending spool s x := by
  rw [IsPending, (h x).pending, IsPending]

theorem Idle.isSent (h : Idle spool s t) (x : String) : IsSent spool t x ↔ IsSent spool s x := by
  rw [IsSent, (h x).sent, IsSent]

/-- Of the calls' marks these are what the invariant speaks of. -/
structure Continues (spool : Path) (env : Env) (s t : ClientState τ) : Prop where
  kept : ∀ i m, Did spool i m s.history → Did spool i m t.history
  issued : ∀ i u, Did spool i (.issued u) t.history → ∃ n < t.history.length, env.uuid n = some u
  single : ∀ i j u, Did spool i (.issued u) t.history → Did spool j (.issued u) t.history → i = j
  locked : ∀ i, (Did spool i .unlocked t.history ∨ ∃ x, Did spool i (.acked x) t.history) → Did spool i .locked t.history

theorem Used.mono {h h' : List (ClientEvent τ)} (hh : ∀ i m, Did spool i m h → Did spool i m h')
    (hu : Used spool start x h) : Used spool start x h' := by
  refine hu.imp_right fun ⟨i, ⟨u, hx, hissued⟩, hopened⟩ => ?_
  exact ⟨i, ⟨u, hx, hh i _ hissued⟩, hh i _ hopened⟩

theorem SpoolInv.continues_of_eq (hi : SpoolInv spool env start s) (h : t.history = s.history) :
    Continues spool env s t := by
  refine ⟨?_, ?_, ?_, ?_⟩ <;> rw [h]
  · exact fun _ _ hd => hd
  · exact hi.issued
  · exact hi.single
  · exact hi.locked

theorem SpoolInv.continues (hi : SpoolInv spool env start s) {e : ClientEvent τ} (h : t.history = e :: s.history)
    (he : ∀ u, mark spool e = .issued u → env.uuid s.history.length = some u)
    (hlocked : (mark spool e = .unlocked ∨ ∃ x, mark spool e = .acked x) → Did spool e.task .locked s.history) :
    Continues spool env s t := by
  -- an identifier that comes now has not come before
  have hnew : ∀ u, mark spool e = .issued u → ∀ i, ¬ Did spool i (.issued u) s.history := by
    intro u hu i hd
    obtain ⟨n, hn, huuid⟩ := hi.issued i u hd
    exact absurd (env.fresh huuid (he u hu)) (Nat.ne_of_lt hn)
  refine ⟨?_, ?_, ?_, ?_⟩ <;> rw [h]
  · exact fun _ _ hd => hd.cons
  · intro i u hd
    rcases did_cons.mp hd with ⟨-, hu⟩ | hd
    · exact ⟨_, Nat.lt_succ_self _, he u hu⟩
    · obtain ⟨n, hn, huuid⟩ := hi.issued i u hd
      exact ⟨n, Nat.lt_succ_of_lt hn, huuid⟩
  · intro i j u hdi hdj
    rcases did_cons.mp hdi with ⟨hti, hu⟩ | hdi
    · rcases did_cons.mp hdj with ⟨htj, -⟩ | hdj
      · exact hti.symm.trans htj
      · exact absurd hdj (hnew u hu j)
    · rcases did_cons.mp hdj with ⟨-, hu⟩ | hdj
      · exact absurd hdi (hnew u hu i)
      · exact hi.single i j u hdi hdj
  · rintro i (hd | ⟨x, hd⟩)
    · rcases did_cons.mp hd with ⟨rfl, hu⟩ | hd
      · exact (hlocked (.inl hu)).cons
      · exact (hi.locked i (.inl hd)).cons
    · rcases did_cons.mp hd with ⟨rfl, hx⟩ | hd
      · exact (hlocked (.inr ⟨x, hx⟩)).cons
      · exact (hi.locked i (.inr ⟨x, hd⟩)).cons

/-- A step that moves nothing. -/
theorem SpoolInv.still (hi : SpoolInv spool env start s) (hc : Continues spool env s t)
    (htidy : t.state.disk.Tidy spool) (hpending : ∀ x, IsPending spool t x ↔ IsPending spool s x)
    (hsent : ∀ x, IsSent spool t x → IsSent spool s x)
    (hmoved : ∀ i x, Did spool i (.moved x) t.history → Did spool i (.moved x) s.history)
    (hheld : ∀ i, holder spool t = some i → Did spool i .locked t.history ∧ ¬ Did spool i .unlocked t.history) :
    SpoolInv spool env start t where
  tidy := htidy
  apart x hx hs := hi.apart x ((hpending x).mp hx) (hsent x hs)
  named x hx := hi.named x ((hpending x).mp hx)
  acked x hx := (hi.acked x (hsent x hx)).imp_right fun ⟨i, ha⟩ => ⟨i, hc.kept i _ ha⟩
  moved i x hm hx := hi.moved i x (hmoved i x hm) ((hpending x).mp hx)
  known x hx := by
    have hx : IsPending spool s x ∨ IsSent spool s x ∨ ∃ i, Did spool i (.moved x) s.history :=
      hx.imp (hpending x).mp (Or.imp (hsent x) fun ⟨i, hm⟩ => ⟨i, hmoved i x hm⟩)
    exact (hi.known x hx).mono hc.kept
  issued := hc.issued
  single := hc.single
  held := hheld
  locked := hc.locked

theorem Removes.pending_eq (h : Removes spool C i x s t) (y : String) :
    t.state.disk.dir (pendingAt spool y) = s.state.disk.dir (pendingAt spool y) := by
  by_cases hyx : y = x
  · rw [hyx, h.pending]
  · exact (h.others y hyx).pending

theorem Removes.isSent_of (h : Removes spool C i x s t) {y : String} (hy : IsSent spool t y) : IsSent spool s y := by
  by_cases hyx : y = x
  · exact hyx ▸ h.sent
  · rwa [IsSent, (h.others y hyx).sent] at hy

/-- Who owns a name that was used then is the one who had opened it. -/
theorem SpoolInv.owner_of_used (hi : SpoolInv spool env start s) (hstart : Orderly spool env start)
    {h : List (ClientEvent τ)} (hh : h ⊆ s.history) (hused : Used spool start x h) (hown : Owns spool i x s.history) :
    Owns spool i x h ∧ Did spool i (.opened x) h := by
  obtain ⟨u, rfl, hu⟩ := hown
  rcases hused with hx | ⟨j, ⟨v, hv, hissued⟩, hopened⟩
  · obtain ⟨n, -, huuid⟩ := hi.issued i u hu
    obtain ⟨hpending, hsent⟩ := hstart.fresh n u huuid
    rw [hpending, hsent] at hx
    simp at hx
  · obtain rfl : u = v := Uuid.toString_injective hv
    obtain rfl := hi.single i j u hu (hissued.mono hh)
    exact ⟨⟨u, rfl, hissued⟩, hopened⟩

/-- A name that was issued and not yet opened has not been used. -/
theorem SpoolInv.unused (hi : SpoolInv spool env start s) (hstart : Orderly spool env start)
    (hown : Owns spool i x s.history) (hfirst : ¬ Did spool i (.opened x) s.history) :
    ¬ IsPending spool s x ∧ ¬ IsSent spool s x ∧ ∀ j, ¬ Did spool j (.moved x) s.history := by
  have hno : ¬ (IsPending spool s x ∨ IsSent spool s x ∨ ∃ j, Did spool j (.moved x) s.history) :=
    fun hx => hfirst (hi.owner_of_used hstart (List.Subset.refl _) (hi.known x hx) hown).2
  rw [not_or, not_or, not_exists] at hno
  exact hno

theorem SpoolInv.opens (hi : SpoolInv spool env start s) (hstart : Orderly spool env start)
    (hc : Continues spool env s t) (htidy : t.state.disk.Tidy spool) (h : Opens spool i x s t)
    (hdid : Did spool i (.opened x) t.history) (hholder : holder spool t = holder spool s)
    (hmoved : ∀ j y, Did spool j (.moved y) t.history → Did spool j (.moved y) s.history)
    (hunlocked : ∀ j, Did spool j .unlocked t.history → Did spool j .unlocked s.history) :
    SpoolInv spool env start t := by
  obtain ⟨hnp, hns, hnm⟩ := hi.unused hstart h.owns h.first
  have hpending : ∀ y, IsPending spool t y → y = x ∨ IsPending spool s y := by
    intro y hy
    by_cases hyx : y = x
    · exact .inl hyx
    · rw [IsPending, (h.others y hyx).pending] at hy
      exact .inr hy
  have hsent : ∀ y, IsSent spool t y → IsSent spool s y := by
    intro y hy
    by_cases hyx : y = x
    · subst hyx
      rwa [IsSent, h.sent] at hy
    · rwa [IsSent, (h.others y hyx).sent] at hy
  obtain ⟨u, hu, howns⟩ := h.owns
  refine ⟨htidy, ?_, ?_, ?_, ?_, ?_, hc.issued, hc.single, ?_, hc.locked⟩
  · intro y hy hs
    rcases hpending y hy with rfl | hy
    · exact hns (hsent _ hs)
    · exact hi.apart y hy (hsent y hs)
  · intro y hy
    rcases hpending y hy with rfl | hy
    · rw [hu]
      exact uuid_component u
    · exact hi.named y hy
  · intro y hy
    exact (hi.acked y (hsent y hy)).imp_right fun ⟨j, ha⟩ => ⟨j, hc.kept j _ ha⟩
  · intro j y hm hy
    rcases hpending y hy with rfl | hy
    · exact hnm j (hmoved j _ hm)
    · exact hi.moved j y (hmoved j y hm) hy
  · intro y hy
    by_cases hyx : y = x
    · subst hyx
      exact .inr ⟨i, ⟨u, hu, hc.kept i _ howns⟩, hdid⟩
    · have hy : IsPending spool s y ∨ IsSent spool s y ∨ ∃ i, Did spool i (.moved y) s.history :=
        hy.imp (fun hp => (hpending y hp).resolve_left hyx) (Or.imp (hsent y) fun ⟨j, hm⟩ => ⟨j, hmoved j y hm⟩)
      exact (hi.known y hy).mono hc.kept
  · intro j hj
    rw [hholder] at hj
    exact ⟨hc.kept j _ (hi.held j hj).1, fun hu => (hi.held j hj).2 (hunlocked j hu)⟩

theorem SpoolInv.moves (hi : SpoolInv spool env start s) (hc : Continues spool env s t)
    (htidy : t.state.disk.Tidy spool) (h : Moves spool i x s t) (hholder : holder spool t = holder spool s)
    (hmoved : ∀ j y, Did spool j (.moved y) t.history → y = x ∨ Did spool j (.moved y) s.history)
    (hunlocked : ∀ j, Did spool j .unlocked t.history → Did spool j .unlocked s.history) :
    SpoolInv spool env start t := by
  have hpending : ∀ y, IsPending spool t y → y ≠ x ∧ IsPending spool s y := by
    intro y hy
    by_cases hyx : y = x
    · exact absurd (hyx ▸ hy) h.gone
    · rw [IsPending, (h.others y hyx).pending] at hy
      exact ⟨hyx, hy⟩
  have hsent : ∀ y, y ≠ x → IsSent spool t y → IsSent spool s y := by
    intro y hyx hy
    rwa [IsSent, (h.others y hyx).sent] at hy
  refine ⟨htidy, ?_, ?_, ?_, ?_, ?_, hc.issued, hc.single, ?_, hc.locked⟩
  · intro y hy hs
    obtain ⟨hyx, hy⟩ := hpending y hy
    exact hi.apart y hy (hsent y hyx hs)
  · exact fun y hy => hi.named y (hpending y hy).2
  · intro y hy
    by_cases hyx : y = x
    · subst hyx
      exact .inr ⟨i, hc.kept i _ h.acked⟩
    · exact (hi.acked y (hsent y hyx hy)).imp_right fun ⟨j, ha⟩ => ⟨j, hc.kept j _ ha⟩
  · intro j y hm hy
    obtain ⟨hyx, hy⟩ := hpending y hy
    exact hi.moved j y ((hmoved j y hm).resolve_left hyx) hy
  · intro y hy
    have hy : IsPending spool s y ∨ IsSent spool s y ∨ ∃ i, Did spool i (.moved y) s.history := by
      by_cases hyx : y = x
      · exact .inl (hyx ▸ h.pending)
      · exact hy.imp (fun hp => (hpending y hp).2)
          (Or.imp (hsent y hyx) fun ⟨j, hm⟩ => ⟨j, (hmoved j y hm).resolve_left hyx⟩)
    exact (hi.known y hy).mono hc.kept
  · intro j hj
    rw [hholder] at hj
    exact ⟨hc.kept j _ (hi.held j hj).1, fun hu => (hi.held j hj).2 (hunlocked j hu)⟩

/-- **Every step keeps the spool in order.** -/
theorem SpoolInv.step (hi : SpoolInv spool env start s) (hstart : Orderly spool env start)
    (h : SpoolStep spool C env i s t) : SpoolInv spool env start t := by
  have htidy := h.tidy hi.tidy
  rcases h.effect with ⟨hhistory, hidle, hholder⟩ | ⟨e, htask, hhistory, heffect⟩
  · refine hi.still (hi.continues_of_eq hhistory) htidy hidle.isPending (fun x => (hidle.isSent x).mp)
      (by rw [hhistory]; exact fun _ _ hm => hm) fun j hj => ?_
    rw [hhistory]
    rcases hholder with ⟨-, hholder⟩ | ⟨-, hholder⟩
    · rw [hholder] at hj
      cases hj
    · exact hi.held j (hholder ▸ hj)
  · -- a lock that is held stays so under every call but two
    have hheld : mark spool e ≠ .unlocked → holder spool t = holder spool s → ∀ j, holder spool t = some j →
        Did spool j .locked t.history ∧ ¬ Did spool j .unlocked t.history := by
      intro hne hholder j hj
      rw [hhistory, did_cons_ne hne]
      exact ⟨(hi.held j (hholder ▸ hj)).1.cons, (hi.held j (hholder ▸ hj)).2⟩
    have hmoved : (∀ x, mark spool e ≠ .moved x) → ∀ j x, Did spool j (.moved x) t.history →
        Did spool j (.moved x) s.history := by
      intro hne j x hm
      rwa [hhistory, did_cons_ne (hne x)] at hm
    have hunlocked : mark spool e ≠ .unlocked → ∀ j, Did spool j .unlocked t.history →
        Did spool j .unlocked s.history := by
      intro hne j hu
      rwa [hhistory, did_cons_ne hne] at hu
    have hlocked : (mark spool e = .unlocked ∨ ∃ x, mark spool e = .acked x) → Did spool e.task .locked s.history := by
      rintro (hu | ⟨x, hx⟩)
      · rw [hu] at heffect
        exact htask ▸ (hi.held i heffect.1).1
      · rw [hx] at heffect
        exact htask ▸ (hi.held i heffect.1).1
    have hnone : (∀ u, mark spool e ≠ .issued u) → Continues spool env s t :=
      fun hne => hi.continues hhistory (fun u hu => absurd hu (hne u)) hlocked
    cases hm : mark spool e with
    | issued u =>
      rw [hm] at heffect hheld hmoved
      obtain ⟨huuid, hholder, hidle⟩ := heffect
      have hc := hi.continues hhistory (fun v hv => Mark.issued.inj (hm.symm.trans hv) ▸ huuid) hlocked
      exact hi.still hc htidy hidle.isPending (fun x => (hidle.isSent x).mp) (hmoved nofun) (hheld nofun hholder)
    | opened x =>
      have hdid : Did spool i (.opened x) t.history := by
        rw [hhistory]
        exact did_cons.mpr (.inl ⟨htask, hm⟩)
      rw [hm] at heffect hmoved hunlocked hnone
      exact hi.opens hstart (hnone nofun) htidy heffect.2 hdid heffect.1 (hmoved nofun) (hunlocked nofun)
    | locked =>
      have hdid : Did spool i .locked t.history := by
        rw [hhistory]
        exact did_cons.mpr (.inl ⟨htask, hm⟩)
      rw [hm] at heffect hmoved hunlocked hnone
      obtain ⟨-, hholder, hfirst, hidle⟩ := heffect
      refine hi.still (hnone nofun) htidy hidle.isPending (fun x => (hidle.isSent x).mp) (hmoved nofun) fun j hj => ?_
      obtain rfl : i = j := Option.some.inj (hholder.symm.trans hj)
      exact ⟨hdid, fun hu => hfirst (hi.locked i (.inl (hunlocked nofun i hu)))⟩
    | unlocked =>
      rw [hm] at heffect hmoved hnone
      obtain ⟨-, hholder, hidle⟩ := heffect
      refine hi.still (hnone nofun) htidy hidle.isPending (fun x => (hidle.isSent x).mp) (hmoved nofun) fun j hj => ?_
      rw [hholder] at hj
      cases hj
    | listed entries =>
      rw [hm] at heffect hheld hmoved hnone
      obtain ⟨-, hholder, hidle⟩ := heffect
      exact hi.still (hnone nofun) htidy hidle.isPending (fun x => (hidle.isSent x).mp) (hmoved nofun)
        (hheld nofun hholder)
    | acked x =>
      rw [hm] at heffect hheld hmoved hnone
      obtain ⟨-, hholder, -, hidle⟩ := heffect
      exact hi.still (hnone nofun) htidy hidle.isPending (fun x => (hidle.isSent x).mp) (hmoved nofun)
        (hheld nofun hholder)
    | moved x =>
      have hmoved : ∀ j y, Did spool j (.moved y) t.history → y = x ∨ Did spool j (.moved y) s.history := by
        intro j y hd
        rw [hhistory] at hd
        exact (did_cons.mp hd).imp_left fun hy => Mark.moved.inj (hy.2.symm.trans hm)
      rw [hm] at heffect hunlocked hnone
      exact hi.moves (hnone nofun) htidy heffect.2 heffect.1 hmoved (hunlocked nofun)
    | removed x =>
      rw [hm] at heffect hheld hmoved hnone
      obtain ⟨hholder, h⟩ := heffect
      refine hi.still (hnone nofun) htidy (fun y => ?_) (fun y hy => ?_) (hmoved nofun) (hheld nofun hholder)
      · rw [IsPending, h.pending_eq y, IsPending]
      · exact h.isSent_of hy
    | other =>
      rw [hm] at heffect hheld hmoved hnone
      obtain ⟨hholder, h⟩ := heffect
      refine hi.still (hnone nofun) htidy h.pending (fun y hy => ?_) (hmoved nofun) (hheld nofun hholder)
      rwa [IsSent, h.sent y] at hy

/-! ### What a process can rely on -/

/-- What the others do between two calls of a process. While it holds the lock, no entry leaves
`pending`, and none comes to `sent` or goes from there. -/
structure Elsewhere (spool : Path) (i : τ) (s t : ClientState τ) : Prop where
  grown : ∃ new, t.history = new ++ s.history ∧ (∀ e ∈ new, e.task ≠ i) ∧
    ∀ x, IsPending spool s x → IsPending spool t x ∨ ∃ j, Did spool j (.moved x) new
  held : holder spool s = some i → holder spool t = some i ∧
    (∀ x, t.state.disk.dir (sentAt spool x) = s.state.disk.dir (sentAt spool x)) ∧
    ∀ x, IsPending spool s x → IsPending spool t x
  next : s.state.disk.next ≤ t.state.disk.next
  inodes : ∀ q n, n < s.state.disk.next → t.state.disk.file q = some n → s.state.disk.file q = some n ∨
    ∃ x rest, q = sentAt spool x ++ rest ∧ s.state.disk.file (pendingAt spool x ++ rest) = some n

theorem pendingAt_ne_sentAt (spool : Path) (x y : String) (rest rest' : Path) :
    pendingAt spool x ++ rest ≠ sentAt spool y ++ rest' := by
  intro h
  simp [pendingAt, sentAt, pendingDir, sentDir] at h

theorem Elsewhere.refl (spool : Path) (i : τ) (s : ClientState τ) : Elsewhere spool i s s where
  grown := ⟨[], rfl, nofun, fun _ hx => .inl hx⟩
  held h := ⟨h, fun _ => rfl, fun _ hx => hx⟩
  next := Nat.le_refl _
  inodes _ _ _ h := .inl h

theorem Elsewhere.trans {u : ClientState τ} (a : Elsewhere spool i s t) (b : Elsewhere spool i t u) :
    Elsewhere spool i s u where
  grown := by
    obtain ⟨new, hnew, hothers, hpending⟩ := a.grown
    obtain ⟨new', hnew', hothers', hpending'⟩ := b.grown
    refine ⟨new' ++ new, by rw [hnew', hnew, List.append_assoc], fun e he => ?_, fun x hx => ?_⟩
    · exact (List.mem_append.mp he).elim (hothers' e) (hothers e)
    · rcases hpending x hx with hx | ⟨j, hj⟩
      · exact (hpending' x hx).imp_right fun ⟨j, hj⟩ => ⟨j, did_append.mpr (.inl hj)⟩
      · exact .inr ⟨j, did_append.mpr (.inr hj)⟩
  held h := by
    obtain ⟨ht, hsent, hpending⟩ := a.held h
    obtain ⟨hu, hsent', hpending'⟩ := b.held ht
    exact ⟨hu, fun x => (hsent' x).trans (hsent x), fun x hx => hpending' x (hpending x hx)⟩
  next := Nat.le_trans a.next b.next
  inodes q n hn hq := by
    rcases b.inodes q n (Nat.lt_of_lt_of_le hn a.next) hq with hq | ⟨x, rest, hx, hq⟩
    · exact a.inodes q n hn hq
    · rcases a.inodes _ n hn hq with hq | ⟨y, rest', hy, -⟩
      · exact .inr ⟨x, rest, hx, hq⟩
      · exact absurd hy (pendingAt_ne_sentAt _ _ _ _ _)

theorem Elsewhere.apart (a : Elsewhere spool i s t) : Apart i s.history t.history := by
  obtain ⟨new, hnew, hothers, -⟩ := a.grown
  exact ⟨new, hnew, hothers⟩

/-- An entry leaves `pending` only by being moved. -/
theorem Effect.isPending {m : Mark} (h : Effect spool C env i s t m) (hx : IsPending spool s x) :
    IsPending spool t x ∨ m = .moved x := by
  cases m with
  | moved y =>
    by_cases hxy : x = y
    · exact .inr (hxy ▸ rfl)
    · rw [IsPending, (h.2.others x hxy).pending]
      exact .inl hx
  | opened y =>
    by_cases hxy : x = y
    · exact .inl (hxy ▸ h.2.pending)
    · rw [IsPending, (h.2.others x hxy).pending]
      exact .inl hx
  | removed y =>
    rw [IsPending, h.2.pending_eq]
    exact .inl hx
  | other => exact .inl ((h.2.pending x).mpr hx)
  | issued u => exact .inl ((h.2.2.isPending x).mpr hx)
  | unlocked => exact .inl ((h.2.2.isPending x).mpr hx)
  | listed entries => exact .inl ((h.2.2.isPending x).mpr hx)
  | locked => exact .inl ((h.2.2.2.isPending x).mpr hx)
  | acked y => exact .inl ((h.2.2.2.isPending x).mpr hx)

/-- Who does not hold a lock that is held leaves it and `sent` alone. -/
theorem Effect.locked_out {m : Mark} (h : Effect spool C env j s t m) (hi : holder spool s = some i) (hij : j ≠ i) :
    holder spool t = some i ∧ (∀ x, t.state.disk.dir (sentAt spool x) = s.state.disk.dir (sentAt spool x)) ∧
      ∀ x, m ≠ .moved x := by
  have hne : holder spool s ≠ some j := fun hj => hij (Option.some.inj (hj.symm.trans hi))
  cases m with
  | issued u => exact ⟨h.2.1.trans hi, fun x => (h.2.2 x).sent, nofun⟩
  | opened y =>
    refine ⟨h.1.trans hi, fun x => ?_, nofun⟩
    by_cases hxy : x = y
    · rw [hxy, h.2.sent]
    · exact (h.2.others x hxy).sent
  | other => exact ⟨h.1.trans hi, h.2.sent, nofun⟩
  | locked =>
    rw [h.1] at hi
    cases hi
  | unlocked => exact absurd h.1 hne
  | listed entries => exact absurd h.1 hne
  | acked y => exact absurd h.1 hne
  | moved y => exact absurd h.2.held hne
  | removed y => exact absurd h.2.held hne

/-- The others, each by its own steps. -/
theorem SpoolStep.elsewhere (h : SpoolStep spool C env j s t) (hij : j ≠ i) : Elsewhere spool i s t := by
  rcases h.effect with ⟨hhistory, hidle, hholder⟩ | ⟨e, rfl, hhistory, heffect⟩
  · refine ⟨⟨[], hhistory, nofun, fun x hx => .inl ((hidle.isPending x).mpr hx)⟩, fun hi => ?_, h.next, h.inodes⟩
    refine ⟨?_, fun x => (hidle x).sent, fun x => (hidle.isPending x).mpr⟩
    rcases hholder with ⟨hj, -⟩ | ⟨-, hsame⟩
    · exact absurd (Option.some.inj (hj.symm.trans hi)) hij
    · exact hsame.trans hi
  · refine ⟨⟨[e], hhistory, by simpa using hij, fun x hx => ?_⟩, fun hi => ?_, h.next, h.inodes⟩
    · exact (heffect.isPending hx).imp_right fun hm => ⟨e.task, e, List.mem_singleton_self e, rfl, hm⟩
    · obtain ⟨hholder, hsent, hmoved⟩ := heffect.locked_out hi hij
      exact ⟨hholder, hsent, fun x hx => (heffect.isPending hx).resolve_right (hmoved x)⟩

/-- What a process relies on, and what it guarantees. -/
def Relies (spool : Path) (env : Env) (start : Disk) (i : τ) (s t : ClientState τ) : Prop :=
  SpoolInv spool env start s → SpoolInv spool env start t ∧ Elsewhere spool i s t

/-- What a call of a task does to the spool. -/
def Guarantees (spool : Path) (C : Crates) (env : Env) (start : Disk) (i : τ) (s t : ClientState τ) : Prop :=
  SpoolInv spool env start s → SpoolStep spool C env i s t

theorem Relies.refl (i : τ) (s : ClientState τ) : Relies spool env start i s s := fun h => ⟨h, .refl ..⟩

theorem Relies.trans {u : ClientState τ} (a : Relies spool env start i s t) (b : Relies spool env start i t u) :
    Relies spool env start i s u := by
  intro hs
  obtain ⟨ht, hst⟩ := a hs
  obtain ⟨hu, htu⟩ := b ht
  exact ⟨hu, hst.trans htu⟩

theorem Guarantees.relies (hstart : Orderly spool env start) (h : Guarantees spool C env start j s t) (hij : j ≠ i) :
    Relies spool env start i s t :=
  fun hs => ⟨hs.step hstart (h hs), (h hs).elsewhere hij⟩

end Invariant

end Detritus.Client
