import Detritus.Files.Tree
import Detritus.Client.Spool

/-! Calls as steps of a spool.

Each call that a process on a spool makes is one of the steps that `Effect` allows. What an
operation does to the disk is looked at here, once for each. -/
namespace Detritus.Client
open Files Protocol Process
variable {p : Path}

/-! ### Paths -/

section Paths
variable {spool : Path} {x y : String} {rest : Path}

theorem join_pending (spool : Path) : spool.join "pending" = pendingDir spool :=
  Component.join ⟨by decide, by decide, by decide⟩ _

theorem join_sent (spool : Path) : spool.join "sent" = sentDir spool :=
  Component.join ⟨by decide, by decide, by decide⟩ _

theorem lockPath_eq (spool : Path) : lockPath spool = spool ++ [".lock"] :=
  Component.join ⟨by decide, by decide, by decide⟩ _

theorem pendingAt_inj (h : pendingAt spool x = pendingAt spool y) : x = y := by
  simpa [pendingAt] using h

theorem pendingAt_below (h : pendingAt spool x <+: pendingAt spool y ++ rest) : x = y := by
  obtain ⟨r, h⟩ := h
  simp only [pendingAt, List.append_assoc, List.append_cancel_left_eq, List.singleton_append, List.cons.injEq] at h
  exact h.1

theorem sentAt_below (h : sentAt spool x <+: sentAt spool y ++ rest) : x = y := by
  obtain ⟨r, h⟩ := h
  simp only [sentAt, List.append_assoc, List.append_cancel_left_eq, List.singleton_append, List.cons.injEq] at h
  exact h.1

theorem not_pendingAt_below : ¬ pendingAt spool x <+: sentAt spool y ++ rest := by
  rintro ⟨r, h⟩
  exact pendingAt_ne_sentAt _ _ _ _ _ h

theorem not_sentAt_below : ¬ sentAt spool x <+: pendingAt spool y ++ rest := by
  rintro ⟨r, h⟩
  exact pendingAt_ne_sentAt _ _ _ _ _ h.symm

/-- A path too short to lie within an entry. -/
theorem short_path (h : p.length ≤ spool.length + 1) : ¬ pendingAt spool x <+: p ∧ ¬ sentAt spool x <+: p := by
  constructor
  · intro hp
    have hlen := hp.length_le
    simp only [pendingAt, pendingDir, List.length_append, List.length_cons, List.length_nil] at hlen
    omega
  · intro hp
    have hlen := hp.length_le
    simp only [sentAt, sentDir, List.length_append, List.length_cons, List.length_nil] at hlen
    omega

theorem parent_pendingAt (spool : Path) (x : String) : (pendingAt spool x).parent = pendingDir spool :=
  List.dropLast_concat

theorem parent_sentAt (spool : Path) (x : String) : (sentAt spool x).parent = sentDir spool := List.dropLast_concat

theorem dir_ne (spool : Path) (x : String) : pendingAt spool x ≠ pendingDir spool ∧ pendingAt spool x ≠ sentDir spool ∧
    sentAt spool x ≠ pendingDir spool ∧ sentAt spool x ≠ sentDir spool := by
  refine ⟨?_, ?_, ?_, ?_⟩ <;> intro h <;> have h := congrArg List.length h <;>
    simp [pendingAt, sentAt, pendingDir, sentDir] at h

end Paths

/-! ### Entries that stay as they are -/

section Same
variable {spool : Path} {x : String} {d e : Disk}

theorem SameEntry.of_files (hpending : e.dir (pendingAt spool x) = d.dir (pendingAt spool x))
    (hsent : e.dir (sentAt spool x) = d.dir (sentAt spool x)) (h : d.SameFiles e) : SameEntry spool x d e :=
  ⟨hpending, hsent, fun _ => h.content _, fun _ => h.content _⟩

/-- A directory outside the entries. -/
theorem createDirAll_same {now : Time} (h : p.length ≤ spool.length + 1) :
    SameEntry spool x d (d.createDirAll p now) :=
  .of_files (if_neg (short_path h).1) (if_neg (short_path h).2) ⟨rfl, rfl, rfl⟩

theorem openAppend_same {now : Time} (hd : d.Numbered) : SameEntry spool x d (d.openAppend (lockPath spool) now).2 := by
  have hlock : ∀ rest, pendingAt spool x ++ rest ≠ lockPath spool ∧ sentAt spool x ++ rest ≠ lockPath spool := by
    intro rest
    rw [lockPath_eq]
    constructor <;> intro h <;> have h := congrArg List.length h <;>
      simp [pendingAt, sentAt, pendingDir, sentDir] at h
  have hcontent : ∀ q, q ≠ lockPath spool → (d.openAppend (lockPath spool) now).2.content q = d.content q := by
    intro q hq
    by_contra hne
    exact hq (Disk.openAppend_changes hd hne)
  have hspool : pendingAt spool x ≠ (lockPath spool).parent ∧ sentAt spool x ≠ (lockPath spool).parent := by
    rw [lockPath_eq, Path.parent, List.dropLast_concat]
    constructor <;> intro h <;> have h := congrArg List.length h <;>
      simp [pendingAt, sentAt, pendingDir, sentDir] at h
  refine ⟨?_, ?_, fun rest => hcontent _ (hlock rest).1, fun rest => hcontent _ (hlock rest).2⟩
  · exact Disk.openAppend_dir_other hspool.1
  · exact Disk.openAppend_dir_other hspool.2

end Same

/-! ### Calls that change nothing -/

section Calls
variable {τ : Type} {spool : Path} {C : Crates} {env : Env} {i : τ} {s t : ClientState τ} {x : String} {v : Unit}

theorem Idle.of_state (h : t.state = s.state) : Idle spool s t := by
  intro x
  rw [h]
  exact ⟨rfl, rfl, fun _ => rfl, fun _ => rfl⟩

theorem holder_of_state (h : t.state = s.state) : holder spool t = holder spool s := by
  rw [holder, h]
  rfl

theorem SpoolStep.unchanged {e : ClientEvent τ} (hstate : t.state = s.state) (htask : e.task = i)
    (hh : t.history = e :: s.history) (heffect : Effect spool C env i s t (mark spool e)) :
    SpoolStep spool C env i s t where
  effect := .inr ⟨e, htask, hh, heffect⟩
  tidy h := by rwa [hstate]
  next := by rw [hstate]
  inodes q n _ hq := .inl (by rwa [hstate] at hq)

/-- A call without a mark that leaves the entries alone. -/
theorem Effect.of_idle (hholder : holder spool t = holder spool s) (h : Idle spool s t) :
    Effect spool C env i s t .other :=
  ⟨hholder, h.isPending, fun x => (h x).sent, fun x _ => h x⟩

/-- Calls that only look. -/
def Looks (spool : Path) : ClientOp → Prop
  | .now | .panicTarball _ | .file (.read _) | .file (.tryExists _) | .file (.metadata _) => True
  | .file (.readDir p) => p ≠ pendingDir spool
  | _ => False

/-- A call that leaves no mark and no trace in the spool. -/
structure Passes (spool : Path) (C : Crates) (env : Env) (op : ClientOp) (x : op.Answer) (i : τ) (s t : ClientState τ) :
    Prop where
  step : SpoolStep spool C env i s t
  holder_eq : holder spool t = holder spool s
  idle : Idle spool s t
  history : t.history = ⟨i, op, x⟩ :: s.history
  unmarked : mark spool (⟨i, op, x⟩ : ClientEvent τ) = .other

theorem Passes.of_state {op : ClientOp} {x : op.Answer} (hstate : t.state = s.state)
    (hh : t.history = ⟨i, op, x⟩ :: s.history) (hm : mark spool (⟨i, op, x⟩ : ClientEvent τ) = .other) :
    Passes spool C env op x i s t := by
  refine ⟨.unchanged hstate rfl hh ?_, holder_of_state hstate, .of_state hstate, hh, hm⟩
  rw [hm]
  exact .of_idle (holder_of_state hstate) (.of_state hstate)

theorem mark_error (op : FileOp) (e : IoError) :
    mark spool (⟨i, .file op, (.error e : Except IoError op.Value)⟩ : ClientEvent τ) = .other := by
  cases op <;> rfl

/-- A file operation that fails, unless it is a write. -/
theorem passes_error {op : FileOp} {e : IoError} (hop : ∀ g bytes, op ≠ .write g bytes)
    (h : execAs env i (.file op) s = some ((.error e : op.Answer), t)) :
    Passes spool C env (.file op) (.error e : op.Answer) i s t := by
  obtain ⟨hx, rfl⟩ := execAs_file h
  refine .of_state ?_ ?_ (mark_error op e)
  · rw [after, execFile_error hop hx]
  · rw [after, hx]

/-- A file operation that only looks at the disk. -/
theorem execFile_looks {op : FileOp} (h : Looks spool (.file op)) (n : Nat) (d : Disk) : (execFile env n op d).2 = d := by
  cases hx : (execFile env n op d).1 with
  | error e => exact execFile_error (by rintro g bytes rfl; exact h) hx
  | ok v =>
    rw [(execFile_ok hx).2.2]
    cases op <;> first | rfl | exact h.elim

theorem passes_looks {op : ClientOp} {x : op.Answer} (hop : Looks spool op) (h : execAs env i op s = some (x, t)) :
    Passes spool C env op x i s t := by
  obtain ⟨hexec, hh⟩ := record_eq_some.mp h
  refine .of_state ?_ hh ?_
  · cases op with
    | file op =>
      rw [← (result_eq hexec).2, execFile_looks hop]
    | now => exact (result_eq hexec).2.symm
    | panicTarball text => exact (result_eq hexec).2.symm
    | newUuid => exact hop.elim
    | lock p => exact hop.elim
    | unlock p => exact hop.elim
    | post entry request => exact hop.elim
    | next => exact hop.elim
    | exportLogs request => exact hop.elim
    | reply result => exact hop.elim
  · cases op with
    | file op =>
      cases op with
      | readDir p =>
        cases x with
        | error e => rfl
        | ok l => exact if_neg hop
      | read p => rfl
      | tryExists p => rfl
      | metadata p => rfl
      | _ => exact hop.elim
    | now => rfl
    | panicTarball text => rfl
    | newUuid => exact hop.elim
    | lock p => exact hop.elim
    | unlock p => exact hop.elim
    | post entry request => exact hop.elim
    | next => exact hop.elim
    | exportLogs request => exact hop.elim
    | reply result => exact hop.elim

/-! ### Directories and the lock -/

/-- A directory outside the entries is made. -/
theorem passes_createDirAll {x : Except IoError Unit} (hp : p.length ≤ spool.length + 1)
    (h : execAs env i (.file (.createDirAll p)) s = some (x, t)) :
    Passes spool C env (.file (.createDirAll p)) x i s t := by
  cases x with
  | error e => exact passes_error (by simp) h
  | ok v =>
    obtain ⟨hx, rfl⟩ := execAs_file h
    have hdisk : (after env i s (.createDirAll p)).state.disk =
        s.state.disk.createDirAll p (env.clock s.history.length) := by
      rw [after_disk, (execFile_ok hx).2.2]
      rfl
    have hidle : Idle spool s (after env i s (.createDirAll p)) := by
      intro y
      rw [hdisk]
      exact createDirAll_same hp
    have hmark : mark spool (⟨i, .file (.createDirAll p), (.ok v : Except IoError Unit)⟩ : ClientEvent τ) = .other := by
      have hname : nameIn (pendingDir spool) p = none := by
        cases hn : nameIn (pendingDir spool) p with
        | none => rfl
        | some y =>
          have hlen := congrArg List.length (eq_of_nameIn hn)
          simp only [pendingDir, List.length_append, List.length_cons, List.length_nil] at hlen
          omega
      show (nameIn (pendingDir spool) p).elim Mark.other Mark.opened = .other
      rw [hname]
      rfl
    have hhistory : (after env i s (.createDirAll p)).history = ⟨i, .file (.createDirAll p), .ok v⟩ :: s.history := by
      rw [after, hx]
    refine ⟨⟨.inr ⟨_, rfl, hhistory, ?_⟩, ?_, ?_, ?_⟩, rfl, hidle, hhistory, hmark⟩
    · rw [hmark]
      exact .of_idle rfl hidle
    · rw [hdisk]
      exact fun htidy => ⟨htidy.numbered, htidy.own⟩
    · rw [hdisk]
      exact Nat.le_refl _
    · rw [hdisk]
      exact fun q n _ hq => .inl hq

theorem passes_openAppend {x : Except IoError Handle} (hs : s.state.disk.Tidy spool)
    (h : execAs env i (.file (.openAppend (lockPath spool))) s = some (x, t)) :
    Passes spool C env (.file (.openAppend (lockPath spool))) x i s t := by
  cases x with
  | error e => exact passes_error (by simp) h
  | ok v =>
    obtain ⟨hx, rfl⟩ := execAs_file h
    have hdisk : (after env i s (.openAppend (lockPath spool))).state.disk =
        (s.state.disk.openAppend (lockPath spool) (env.clock s.history.length)).2 := by
      rw [after_disk, (execFile_ok hx).2.2]
      rfl
    have hidle : Idle spool s (after env i s (.openAppend (lockPath spool))) := by
      intro y
      rw [hdisk]
      exact openAppend_same hs.numbered
    have hhistory : (after env i s (.openAppend (lockPath spool))).history =
        ⟨i, .file (.openAppend (lockPath spool)), .ok v⟩ :: s.history := by
      rw [after, hx]
    refine ⟨⟨.inr ⟨_, rfl, hhistory, .of_idle rfl hidle⟩, ?_, ?_, ?_⟩, rfl, hidle, hhistory, rfl⟩
    · rw [hdisk, lockPath_eq]
      exact fun htidy => htidy.openAppend (List.prefix_append ..)
    · rw [hdisk]
      exact Disk.openAppend_next
    · rw [hdisk]
      exact fun q n hn hq => .inl (Disk.openAppend_file_of hn hq)

theorem mark_lock (x : Unit) : mark spool (⟨i, .lock (lockPath spool), x⟩ : ClientEvent τ) = .locked := if_pos rfl

theorem mark_unlock (x : Unit) : mark spool (⟨i, .unlock (lockPath spool), x⟩ : ClientEvent τ) = .unlocked := if_pos rfl

/-- The lock is taken when it is free. -/
theorem step_lock {x : Unit} (hfirst : ¬ Did spool i .locked s.history)
    (h : execAs env i (.lock (lockPath spool)) s = some (x, t)) : SpoolStep spool C env i s t ∧
      holder spool t = some i ∧ t.state.disk = s.state.disk ∧ t.history = ⟨i, .lock (lockPath spool), x⟩ :: s.history := by
  obtain ⟨hexec, hh⟩ := record_eq_some.mp h
  unfold World.exec at hexec
  cases hfree : s.state.holder (lockPath spool) with
  | some j =>
    simp only [hfree] at hexec
    cases hexec
  | none =>
    simp only [hfree] at hexec
    have hstate := (result_eq hexec).2
    have hdisk : t.state.disk = s.state.disk := by rw [← hstate]
    have hholder : holder spool t = some i := by
      rw [holder, ← hstate]
      exact Function.update_self ..
    have hidle : Idle spool s t := by
      intro y
      rw [hdisk]
      exact ⟨rfl, rfl, fun _ => rfl, fun _ => rfl⟩
    refine ⟨⟨.inr ⟨_, rfl, hh, ?_⟩, ?_, ?_, ?_⟩, hholder, hdisk, hh⟩
    · rw [mark_lock]
      exact ⟨hfree, hholder, hfirst, hidle⟩
    · rw [hdisk]
      exact fun htidy => htidy
    · rw [hdisk]
    · rw [hdisk]
      exact fun q n _ hq => .inl hq

theorem step_unlock {x : Unit} (hheld : holder spool s = some i)
    (h : execAs env i (.unlock (lockPath spool)) s = some (x, t)) : SpoolStep spool C env i s t ∧
      t.state.disk = s.state.disk ∧ t.history = ⟨i, .unlock (lockPath spool), x⟩ :: s.history := by
  obtain ⟨hexec, hh⟩ := record_eq_some.mp h
  have hstate := (result_eq hexec).2
  have hdisk : t.state.disk = s.state.disk := by rw [← hstate]
  have hholder : holder spool t = none := by
    rw [holder, ← hstate]
    exact Function.update_self ..
  have hidle : Idle spool s t := by
    intro y
    rw [hdisk]
    exact ⟨rfl, rfl, fun _ => rfl, fun _ => rfl⟩
  refine ⟨⟨.inr ⟨_, rfl, hh, ?_⟩, ?_, ?_, ?_⟩, hdisk, hh⟩
  · rw [mark_unlock]
    exact ⟨hheld, hholder, hidle⟩
  · rw [hdisk]
    exact fun htidy => htidy
  · rw [hdisk]
  · rw [hdisk]
    exact fun q n _ hq => .inl hq

/-! ### Listing, posting, moving, removing -/

/-- A listing tells the entries that are pending, each once. -/
theorem listing_names {env : Env} {n : Nat} {d : Disk} {l : List (Path × Bool)}
    (h : (execFile env n (.readDir (pendingDir spool)) d).1 = .ok l) : ∃ names : List String,
      sortedDirs l = names.map (pendingAt spool) ∧ names.Nodup ∧
        ∀ x ∈ names, (d.dir (pendingAt spool x)).isSome = true := by
  have hl : l = (((env.order n).arrange (d.children (pendingDir spool))).map fun q => (q, (d.dir q).isSome)) := by
    rw [(execFile_ok h).2.2] at h
    exact (Except.ok.inj h).symm
  have hperm : (sortedDirs l).Perm (((env.order n).arrange (d.children (pendingDir spool))).filter
      fun q => (d.dir q).isSome) := by
    refine (List.mergeSort_perm _ _).trans (.of_eq ?_)
    rw [hl, List.filter_map, List.map_map]
    exact List.map_id _
  have hmem : ∀ q ∈ sortedDirs l, (∃ x, q = pendingAt spool x) ∧ (d.dir q).isSome = true := by
    intro q hq
    obtain ⟨hq, hdir⟩ := List.mem_filter.mp (hperm.mem_iff.mp hq)
    exact ⟨Disk.eq_append_of_mem_children (((env.order n).perm _).mem_iff.mp hq), hdir⟩
  have hnodup : (sortedDirs l).Nodup :=
    hperm.nodup_iff.mpr ((((env.order n).perm _).nodup_iff.mpr (d.nodup.filter _)).filter _)
  have hnames : (sortedDirs l) = ((sortedDirs l).map fun q => q.getLast?.getD "").map (pendingAt spool) := by
    rw [List.map_map]
    refine (List.map_id _).symm.trans (List.map_congr_left fun q hq => ?_)
    obtain ⟨⟨x, rfl⟩, -⟩ := hmem q hq
    show pendingAt spool x = pendingAt spool ((pendingAt spool x).getLast?.getD "")
    rw [pendingAt, List.getLast?_concat]
    rfl
  refine ⟨_, hnames, ?_, fun x hx => ?_⟩
  · rw [hnames] at hnodup
    exact hnodup.of_map _
  · refine (hmem _ ?_).2
    rw [hnames]
    exact List.mem_map_of_mem hx

theorem step_listing {l : List (Path × Bool)} (hheld : holder spool s = some i)
    (h : execAs env i (.file (.readDir (pendingDir spool))) s = some ((.ok l : Except IoError _), t)) :
    SpoolStep spool C env i s t ∧ t.state = s.state ∧
      t.history = ⟨i, .file (.readDir (pendingDir spool)), (.ok l : Except IoError _)⟩ :: s.history ∧
      mark spool (⟨i, .file (.readDir (pendingDir spool)), (.ok l : Except IoError _)⟩ : ClientEvent τ) =
        .listed (sortedDirs l) := by
  obtain ⟨hx, rfl⟩ := execAs_file h
  have hstate : (after env i s (.readDir (pendingDir spool))).state = s.state := by
    rw [after, (execFile_ok hx).2.2]
    rfl
  have hhistory : (after env i s (.readDir (pendingDir spool))).history =
      ⟨i, .file (.readDir (pendingDir spool)), (.ok l : Except IoError _)⟩ :: s.history := by
    rw [after, hx]
  have hmark : mark spool (⟨i, .file (.readDir (pendingDir spool)), (.ok l : Except IoError _)⟩ : ClientEvent τ) =
      .listed (sortedDirs l) := if_pos rfl
  refine ⟨.unchanged hstate rfl hhistory ?_, hstate, hhistory, hmark⟩
  rw [hmark]
  exact ⟨hheld, holder_of_state hstate, .of_state hstate⟩

theorem mark_post {request : HttpRequest} {response : Response} (h : response.isSuccess = true) :
    mark spool (⟨i, .post (pendingAt spool x) request, (.ok response : Except HttpError Response)⟩ : ClientEvent τ) =
      .acked x := by
  show (if response.isSuccess then (nameIn (pendingDir spool) (pendingAt spool x)).elim Mark.other Mark.acked
    else Mark.other) = .acked x
  rw [if_pos h, pendingAt, nameIn_append]
  rfl

theorem mark_post_cases (i : τ) (p : Path) (request : HttpRequest) (answer : Except HttpError Response) :
    mark spool (⟨i, .post p request, answer⟩ : ClientEvent τ) = .other ∨
      ∃ y, mark spool (⟨i, .post p request, answer⟩ : ClientEvent τ) = .acked y := by
  cases answer with
  | error e => exact .inl rfl
  | ok response =>
    show (if response.isSuccess then (nameIn (pendingDir spool) p).elim Mark.other Mark.acked else Mark.other) = _ ∨
      ∃ y, (if response.isSuccess then (nameIn (pendingDir spool) p).elim Mark.other Mark.acked else Mark.other) = _
    split
    · cases nameIn (pendingDir spool) p with
      | none => exact .inl rfl
      | some y => exact .inr ⟨y, rfl⟩
    · exact .inl rfl

/-- A request for a pending entry. -/
theorem step_post {request : HttpRequest} {answer : Except HttpError Response} (hheld : holder spool s = some i)
    (hx : IsPending spool s x) (h : execAs env i (.post (pendingAt spool x) request) s = some (answer, t)) :
    SpoolStep spool C env i s t ∧ t.state = s.state ∧
      t.history = ⟨i, .post (pendingAt spool x) request, answer⟩ :: s.history := by
  obtain ⟨hexec, hh⟩ := record_eq_some.mp h
  have hstate : t.state = s.state := (result_eq hexec).2.symm
  refine ⟨.unchanged hstate rfl hh ?_, hstate, hh⟩
  have hother : Effect spool C env i s t .other := .of_idle (holder_of_state hstate) (.of_state hstate)
  cases answer with
  | error e => exact hother
  | ok response =>
    cases hsuccess : response.isSuccess with
    | true =>
      rw [mark_post hsuccess]
      exact ⟨hheld, holder_of_state hstate, hx, .of_state hstate⟩
    | false =>
      have hmark : mark spool (⟨i, .post (pendingAt spool x) request, (.ok response : Except HttpError Response)⟩ :
          ClientEvent τ) = .other := by
        show (if response.isSuccess then _ else Mark.other) = .other
        rw [hsuccess]
        rfl
      rw [hmark]
      exact hother

theorem mark_rename (x : String) (v : Unit) : mark spool (⟨i, .file (.renameDir (pendingAt spool x) (sentAt spool x)),
    (.ok v : Except IoError Unit)⟩ : ClientEvent τ) = .moved x := by
  simp only [mark, pendingAt, sentAt, nameIn_append, if_true]

/-- An entry whose request was acknowledged is moved. -/
theorem step_rename (hheld : holder spool s = some i) (hacked : Did spool i (.acked x) s.history)
    (h : execAs env i (.file (.renameDir (pendingAt spool x) (sentAt spool x))) s =
      some ((.ok v : Except IoError Unit), t)) :
    SpoolStep spool C env i s t ∧ Moves spool i x s t ∧ holder spool t = holder spool s ∧
      t.history = ⟨i, .file (.renameDir (pendingAt spool x) (sentAt spool x)), (.ok v : Except IoError Unit)⟩ ::
        s.history := by
  obtain ⟨hx, rfl⟩ := execAs_file h
  have hhistory : (after env i s (.renameDir (pendingAt spool x) (sentAt spool x))).history =
      ⟨i, .file (.renameDir (pendingAt spool x) (sentAt spool x)), (.ok v : Except IoError Unit)⟩ :: s.history := by
    rw [after, hx]
  obtain ⟨-, -, heq⟩ := execFile_ok hx
  let now := env.clock s.history.length
  have hdisk : (after env i s (.renameDir (pendingAt spool x) (sentAt spool x))).state.disk =
      (s.state.disk.renameDir (pendingAt spool x) (sentAt spool x) now).2 := by
    rw [after_disk, heq]
    rfl
  have hok : (s.state.disk.renameDir (pendingAt spool x) (sentAt spool x) now).1 = .ok () := by
    rw [heq] at hx
    exact hx
  obtain ⟨hpending, -, -, hdir, -, hnext⟩ := Disk.renameDir_ok hok
  rw [parent_pendingAt, parent_sentAt] at hdir
  have hmoves : Moves spool i x s (after env i s (.renameDir (pendingAt spool x) (sentAt spool x))) := by
    obtain ⟨hpp, hps, hsp, hss⟩ := dir_ne spool x
    refine ⟨hheld, hacked, hpending, ?_, ?_, fun rest => ?_, fun y hy => ?_⟩
    · rw [IsPending, hdisk, hdir _ hpp hps]
      have hbelow : ¬ sentAt spool x <+: pendingAt spool x := by
        rw [← List.append_nil (pendingAt spool x)]
        exact not_sentAt_below
      rw [if_neg hbelow, if_pos (List.prefix_refl _)]
      simp
    · rw [hdisk, hdir _ hsp hss, if_pos (List.prefix_refl _)]
      have hmoved := Disk.moved_append (pendingAt spool x) (sentAt spool x) []
      rw [List.append_nil, List.append_nil] at hmoved
      rw [hmoved]
    · rw [hdisk]
      exact Disk.renameDir_content_dst hok rest
    · have hyx : ∀ rest, ¬ pendingAt spool x <+: pendingAt spool y ++ rest ∧ ¬ sentAt spool x <+: sentAt spool y ++ rest :=
        fun rest => ⟨fun hp => hy (pendingAt_below hp).symm, fun hp => hy (sentAt_below hp).symm⟩
      obtain ⟨hpp, hps, hsp, hss⟩ := dir_ne spool y
      have hroot := hyx []
      rw [List.append_nil, List.append_nil] at hroot
      have hcross : ¬ sentAt spool x <+: pendingAt spool y ∧ ¬ pendingAt spool x <+: sentAt spool y := by
        rw [← List.append_nil (pendingAt spool y), ← List.append_nil (sentAt spool y)]
        exact ⟨not_sentAt_below, not_pendingAt_below⟩
      rw [hdisk]
      refine ⟨?_, ?_, fun rest => ?_, fun rest => ?_⟩
      · rw [hdir _ hpp hps, if_neg hcross.1, if_neg hroot.1]
      · rw [hdir _ hsp hss, if_neg hroot.2, if_neg hcross.2]
      · exact Disk.renameDir_content_other hok not_sentAt_below (hyx rest).1
      · exact Disk.renameDir_content_other hok (hyx rest).2 not_pendingAt_below
  refine ⟨⟨.inr ⟨_, rfl, hhistory, ?_⟩, ?_, ?_, ?_⟩, hmoves, rfl, hhistory⟩
  · rw [mark_rename]
    exact ⟨rfl, hmoves⟩
  · rw [hdisk]
    intro htidy
    refine htidy.renameDir ?_ hok
    rw [pendingAt, pendingDir, List.append_assoc]
    exact List.prefix_append ..
  · rw [hdisk, hnext]
  · rw [hdisk]
    intro q n _ hq
    rcases Disk.renameDir_file_of hok hq with ⟨rest, rfl, hfrom⟩ | ⟨-, -, hq⟩
    · exact .inr ⟨x, rest, rfl, hfrom⟩
    · exact .inl hq

theorem mark_remove (x : String) (v : Unit) : mark spool (⟨i, .file (.removeDirAll (sentAt spool x)),
    (.ok v : Except IoError Unit)⟩ : ClientEvent τ) = .removed x := by
  show (nameIn (sentDir spool) (sentAt spool x)).elim Mark.other Mark.removed = .removed x
  rw [sentAt, nameIn_append]
  rfl

/-- What can be removed is there. -/
theorem isSent_of_remove (h : execAs env i (.file (.removeDirAll (sentAt spool x))) s =
    some ((.ok v : Except IoError Unit), t)) : IsSent spool s x := by
  obtain ⟨hx, -⟩ := execAs_file h
  rw [(execFile_ok hx).2.2] at hx
  exact (Disk.removeDirAll_ok hx).1

/-- A sent entry past its time goes. -/
theorem step_remove (hheld : holder spool s = some i) (hexpired : Expired spool C i x s.history)
    (h : execAs env i (.file (.removeDirAll (sentAt spool x))) s = some ((.ok v : Except IoError Unit), t)) :
    SpoolStep spool C env i s t ∧ Removes spool C i x s t ∧ holder spool t = holder spool s ∧
      t.history = ⟨i, .file (.removeDirAll (sentAt spool x)), (.ok v : Except IoError Unit)⟩ :: s.history := by
  have hsent := isSent_of_remove h
  obtain ⟨hx, rfl⟩ := execAs_file h
  have hhistory : (after env i s (.removeDirAll (sentAt spool x))).history =
      ⟨i, .file (.removeDirAll (sentAt spool x)), (.ok v : Except IoError Unit)⟩ :: s.history := by
    rw [after, hx]
  obtain ⟨-, -, heq⟩ := execFile_ok hx
  let now := env.clock s.history.length
  have hdisk : (after env i s (.removeDirAll (sentAt spool x))).state.disk =
      (s.state.disk.removeDirAll (sentAt spool x) now).2 := by
    rw [after_disk, heq]
    rfl
  have hok : (s.state.disk.removeDirAll (sentAt spool x) now).1 = .ok () := by
    rw [heq] at hx
    exact hx
  obtain ⟨-, hfile, hdir, -, hnext⟩ := Disk.removeDirAll_ok hok
  rw [parent_sentAt] at hdir
  have hcross : ∀ y, ¬ sentAt spool x <+: pendingAt spool y := by
    intro y
    rw [← List.append_nil (pendingAt spool y)]
    exact not_sentAt_below
  have hremoves : Removes spool C i x s (after env i s (.removeDirAll (sentAt spool x))) := by
    obtain ⟨-, hps, -, hss⟩ := dir_ne spool x
    refine ⟨hheld, hexpired, hsent, ?_, ?_, fun y hy => ?_⟩
    · rw [IsSent, hdisk, hdir _ hss, if_pos (List.prefix_refl _)]
      simp
    · rw [hdisk, hdir _ hps, if_neg (hcross x)]
    · obtain ⟨-, hps, -, hss⟩ := dir_ne spool y
      have hyx : ∀ rest, ¬ sentAt spool x <+: sentAt spool y ++ rest := fun rest hp => hy (sentAt_below hp).symm
      have hroot := hyx []
      rw [List.append_nil] at hroot
      rw [hdisk]
      refine ⟨?_, ?_, fun rest => ?_, fun rest => ?_⟩
      · rw [hdir _ hps, if_neg (hcross y)]
      · rw [hdir _ hss, if_neg hroot]
      · exact Disk.removeDirAll_content hok not_sentAt_below
      · exact Disk.removeDirAll_content hok (hyx rest)
  refine ⟨⟨.inr ⟨_, rfl, hhistory, ?_⟩, ?_, ?_, ?_⟩, hremoves, rfl, hhistory⟩
  · rw [mark_remove]
    exact ⟨rfl, hremoves⟩
  · rw [hdisk]
    exact fun htidy => htidy.removeDirAll hok
  · rw [hdisk, hnext]
  · rw [hdisk]
    intro q n _ hq
    rw [hfile] at hq
    split at hq
    · cases hq
    · exact .inl hq

/-! ### Writing an entry -/

theorem step_newUuid {u : Uuid} (h : execAs env i .newUuid s = some (u, t)) :
    SpoolStep spool C env i s t ∧ t.state = s.state ∧ t.history = ⟨i, .newUuid, u⟩ :: s.history := by
  obtain ⟨hexec, hh⟩ := record_eq_some.mp h
  obtain ⟨v, huuid, heq⟩ := Option.map_eq_some_iff.mp hexec
  obtain ⟨rfl, hstate⟩ := Prod.mk.inj heq
  exact ⟨.unchanged hstate.symm rfl hh ⟨huuid, holder_of_state hstate.symm, .of_state hstate.symm⟩, hstate.symm, hh⟩

theorem mark_open (x : String) (v : Unit) : mark spool (⟨i, .file (.createDirAll (pendingAt spool x)),
    (.ok v : Except IoError Unit)⟩ : ClientEvent τ) = .opened x := by
  show (nameIn (pendingDir spool) (pendingAt spool x)).elim Mark.other Mark.opened = .opened x
  rw [pendingAt, nameIn_append]
  rfl

/-- A new entry. -/
theorem step_open (howns : Owns spool i x s.history) (hfirst : ¬ Did spool i (.opened x) s.history)
    (h : execAs env i (.file (.createDirAll (pendingAt spool x))) s = some ((.ok v : Except IoError Unit), t)) :
    SpoolStep spool C env i s t ∧
      t.history = ⟨i, .file (.createDirAll (pendingAt spool x)), (.ok v : Except IoError Unit)⟩ :: s.history := by
  obtain ⟨hx, rfl⟩ := execAs_file h
  have hhistory : (after env i s (.createDirAll (pendingAt spool x))).history =
      ⟨i, .file (.createDirAll (pendingAt spool x)), (.ok v : Except IoError Unit)⟩ :: s.history := by
    rw [after, hx]
  have hdisk : (after env i s (.createDirAll (pendingAt spool x))).state.disk =
      s.state.disk.createDirAll (pendingAt spool x) (env.clock s.history.length) := by
    rw [after_disk, (execFile_ok hx).2.2]
    rfl
  have hbelow : ∀ y, ¬ sentAt spool y <+: pendingAt spool x := by
    intro y
    rw [← List.append_nil (pendingAt spool x)]
    exact not_sentAt_below
  refine ⟨⟨.inr ⟨_, rfl, hhistory, ?_⟩, ?_, ?_, ?_⟩, hhistory⟩
  · rw [mark_open]
    refine ⟨rfl, howns, hfirst, ?_, ?_, fun y hy => ?_⟩
    · rw [IsPending, hdisk]
      exact (Disk.createDirAll_dir ..).mpr (.inl (List.prefix_refl _))
    · rw [hdisk]
      exact if_neg (hbelow x)
    · have hyx : ¬ pendingAt spool y <+: pendingAt spool x := by
        intro hp
        rw [← List.append_nil (pendingAt spool x)] at hp
        exact hy (pendingAt_below hp)
      rw [hdisk]
      exact .of_files (if_neg hyx) (if_neg (hbelow y)) ⟨rfl, rfl, rfl⟩
  · rw [hdisk]
    exact fun htidy => ⟨htidy.numbered, htidy.own⟩
  · rw [hdisk]
    exact Nat.le_refl _
  · rw [hdisk]
    exact fun q n _ hq => .inl hq

/-- An inode that belongs to an entry, wherever that is. -/
structure InEntry (spool : Path) (x : String) (n : Nat) (d : Disk) : Prop where
  lt : n < d.next
  path : ∀ q, d.file q = some n → ∃ rest, q = pendingAt spool x ++ rest ∨ q = sentAt spool x ++ rest

/-- It does so from then on. -/
theorem InEntry.later {n : Nat} {d e : Disk} (h : InEntry spool x n d) (hnext : d.next ≤ e.next)
    (hinodes : ∀ q m, m < d.next → e.file q = some m → d.file q = some m ∨
      ∃ y rest, q = sentAt spool y ++ rest ∧ d.file (pendingAt spool y ++ rest) = some m) : InEntry spool x n e := by
  refine ⟨Nat.lt_of_lt_of_le h.lt hnext, fun q hq => ?_⟩
  rcases hinodes q n h.lt hq with hq | ⟨y, rest, rfl, hfrom⟩
  · exact h.path q hq
  · obtain ⟨rest', hrest | hrest⟩ := h.path _ hfrom
    · have hyx : y = x := pendingAt_below ⟨rest, hrest⟩
      exact ⟨rest, .inr (hyx ▸ rfl)⟩
    · exact absurd hrest (pendingAt_ne_sentAt _ _ _ _ _)

theorem step_create {x name : String} {answer : Except IoError Handle} (howns : Owns spool i x s.history)
    (hs : s.state.disk.Tidy spool)
    (h : execAs env i (.file (.create (pendingAt spool x ++ [name]))) s = some (answer, t)) :
    SpoolStep spool C env i s t ∧
      t.history = ⟨i, .file (.create (pendingAt spool x ++ [name])), answer⟩ :: s.history ∧
      ∀ g, answer = .ok g → InEntry spool x g.inode t.state.disk := by
  cases answer with
  | error e =>
    have hpass : Passes spool C env _ _ i s t := passes_error (by simp) h
    exact ⟨hpass.step, hpass.history, nofun⟩
  | ok g =>
    obtain ⟨hx, rfl⟩ := execAs_file h
    let p := pendingAt spool x ++ [name]
    let now := env.clock s.history.length
    have hhistory : (after env i s (.create p)).history = ⟨i, .file (.create p), (.ok g : Except IoError Handle)⟩ ::
        s.history := by
      rw [after, hx]
    obtain ⟨-, -, heq⟩ := execFile_ok hx
    have hdisk : (after env i s (.create p)).state.disk = (s.state.disk.create p now).2 := by
      rw [after_disk, heq]
      rfl
    have hg : (s.state.disk.create p now).1 = g := by
      rw [heq] at hx
      exact Except.ok.inj hx
    have hroot : spool <+: p := by
      show spool <+: (spool ++ ["pending"] ++ [x]) ++ [name]
      rw [List.append_assoc, List.append_assoc]
      exact List.prefix_append ..
    obtain ⟨htidy, honly⟩ : (s.state.disk.create p now).2.Tidy spool ∧ s.state.disk.Only p (s.state.disk.create p now).2 :=
      hs.create hroot
    have hparent : p.parent = pendingAt spool x := List.dropLast_concat
    have hwrites : Writes spool i s (after env i s (.create p)) := by
      refine ⟨fun y => ?_, fun y => ?_, fun y hy => ?_⟩
      · rw [IsPending, hdisk, honly.dir, IsPending]
      · rw [hdisk]
        refine Disk.create_dir_other ?_
        rw [hparent, ← List.append_nil (sentAt spool y), ← List.append_nil (pendingAt spool x)]
        exact (pendingAt_ne_sentAt _ _ _ _ _).symm
      · have hyx : y ≠ x := fun heq => hy (heq ▸ howns)
        rw [hdisk]
        refine ⟨?_, ?_, fun rest => ?_, fun rest => ?_⟩
        · refine Disk.create_dir_other ?_
          rw [hparent]
          exact fun heq => hyx (pendingAt_inj heq)
        · refine Disk.create_dir_other ?_
          rw [hparent, ← List.append_nil (sentAt spool y), ← List.append_nil (pendingAt spool x)]
          exact (pendingAt_ne_sentAt _ _ _ _ _).symm
        · exact honly.content _ fun heq => hyx (pendingAt_below ⟨rest, heq⟩)
        · exact honly.content _ fun heq => pendingAt_ne_sentAt _ _ _ _ _ heq.symm
    refine ⟨⟨.inr ⟨_, rfl, hhistory, rfl, hwrites⟩, ?_, ?_, ?_⟩, hhistory, fun g' hg' => ?_⟩
    · rw [hdisk]
      exact fun _ => htidy
    · rw [hdisk]
      exact Disk.create_next
    · rw [hdisk]
      exact fun q n hn hq => .inl (Disk.create_file_of hn hq)
    · obtain rfl := Except.ok.inj hg'
      have hfile : (s.state.disk.create p now).2.file p = some g.inode := hg ▸ Disk.create_file
      rw [hdisk]
      refine ⟨htidy.numbered _ _ hfile, fun q hq => ⟨[name], .inl ?_⟩⟩
      exact htidy.own p q _ hroot hfile hq

/-- Whether a write succeeds or breaks off, it goes to the inode. -/
theorem execFile_write (env : Env) (n : Nat) (g : Handle) (bytes : Bytes) (d : Disk) : ∃ bytes',
    (execFile env n (.write g bytes) d).2 = (d.write g bytes' (env.clock n)).2 := by
  cases hx : (execFile env n (.write g bytes) d).1 with
  | ok v =>
    refine ⟨bytes, ?_⟩
    rw [(execFile_ok hx).2.2]
    rfl
  | error e =>
    obtain ⟨fault, hfault⟩ := execFile_write_error hx
    exact ⟨_, hfault⟩

theorem step_write {g : Handle} {bytes : Bytes} {answer : Except IoError Handle} (howns : Owns spool i x s.history)
    (hg : InEntry spool x g.inode s.state.disk) (h : execAs env i (.file (.write g bytes)) s = some (answer, t)) :
    SpoolStep spool C env i s t ∧ t.history = ⟨i, .file (.write g bytes), answer⟩ :: s.history := by
  obtain ⟨hx, rfl⟩ := execAs_file h
  have hhistory : (after env i s (.write g bytes)).history = ⟨i, .file (.write g bytes), answer⟩ :: s.history := by
    rw [after, hx]
  obtain ⟨bytes', hexec⟩ := execFile_write env s.history.length g bytes s.state.disk
  let now := env.clock s.history.length
  have hdisk : (after env i s (.write g bytes)).state.disk = (s.state.disk.write g bytes' now).2 := hexec
  have hcontent : ∀ q, s.state.disk.file q ≠ some g.inode →
      (s.state.disk.write g bytes' now).2.content q = s.state.disk.content q := by
    intro q hq
    by_contra hne
    exact hq (Disk.write_changes hne)
  have hwrites : Writes spool i s (after env i s (.write g bytes)) := by
    refine ⟨fun y => ?_, fun y => ?_, fun y hy => ?_⟩
    · rw [IsPending, hdisk]
      rfl
    · rw [hdisk]
      rfl
    · have hyx : y ≠ x := fun heq => hy (heq ▸ howns)
      rw [hdisk]
      refine ⟨rfl, rfl, fun rest => hcontent _ fun hq => ?_, fun rest => hcontent _ fun hq => ?_⟩
      · obtain ⟨rest', hrest | hrest⟩ := hg.path _ hq
        · exact hyx (pendingAt_below ⟨rest, hrest⟩)
        · exact pendingAt_ne_sentAt _ _ _ _ _ hrest
      · obtain ⟨rest', hrest | hrest⟩ := hg.path _ hq
        · exact pendingAt_ne_sentAt _ _ _ _ _ hrest.symm
        · exact hyx (sentAt_below ⟨rest, hrest⟩)
  refine ⟨⟨.inr ⟨_, rfl, hhistory, rfl, hwrites⟩, ?_, ?_, ?_⟩, hhistory⟩
  · rw [hdisk]
    exact fun htidy => ⟨htidy.numbered, htidy.own⟩
  · rw [hdisk]
    exact Nat.le_refl _
  · rw [hdisk]
    exact fun q n _ hq => .inl hq

end Calls

end Detritus.Client
