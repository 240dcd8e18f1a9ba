import Detritus.Process.Leads
import Detritus.Client.Interrupted
import Detritus.Client.SpoolView

/-! A shipping run against whoever answers it.

On a disk without faults a run is a function of three things: the spool as it is, the
clock, and a `Peer` that answers the requests. `Peer.pass` is the conversation, one request
for each entry in the order of the names up to the first that fails; what it acknowledged
is what has been moved, and nothing else has. -/
namespace Detritus.Client
open Files Protocol Process
variable {d : Disk}

/-! ### Peers -/

/-- Who answers requests, and has a state of its own. -/
abbrev Peer (τ : Type) := HttpRequest → τ → Option (Except HttpError Response × τ)

section Machine
variable {ι τ : Type}

/-- A process whose requests a peer answers. -/
def Peer.exec (peer : Peer τ) (env : Env) (i : ι) : Machine clientInterface (ClientState ι × τ) := fun op s =>
  match op with
  | .post entry request => (peer request s.2).map fun x => (x.1, called i s.1 (.post entry request) x.1, x.2)
  | op => (execAs env i op s.1).map fun x => (x.1, x.2, s.2)

/-- A call that is not a request. -/
def Near : ClientOp → Prop
  | .post _ _ => False
  | _ => True

theorem Peer.exec_near (peer : Peer τ) (env : Env) (i : ι) (state : τ) (op : ClientOp) (w : ClientState ι) (h : Near op) :
    peer.exec env i op (w, state) = (execAs env i op w).map fun x => (x.1, x.2, state) := by
  cases op <;> first | rfl | exact h.elim

variable {peer : Peer τ} {env : Env} {i : ι} {s : ClientState ι × τ} {ε α : Type}

theorem Peer.exec_grows {op : ClientOp} {x : op.Answer} {t : ClientState ι × τ} (h : peer.exec env i op s = some (x, t)) :
    s.1.history <:+ t.1.history := by
  by_cases hop : Near op
  · rw [← Prod.eta s, peer.exec_near env i s.2 op s.1 hop] at h
    obtain ⟨⟨y, u⟩, hx, heq⟩ := Option.map_eq_some_iff.mp h
    obtain ⟨-, rfl⟩ := Prod.mk.inj heq
    rw [(record_eq_some.mp hx).2]
    exact List.suffix_cons ..
  · cases op with
    | post entry request =>
      obtain ⟨y, -, heq⟩ := Option.map_eq_some_iff.mp h
      rw [← (Prod.mk.inj heq).2]
      exact List.suffix_cons ..
    | _ => exact absurd trivial hop

/-- A run adds to the history. -/
theorem leads_grows {p : Program clientInterface α} {Q : α → ClientState ι × τ → Prop}
    (h : p.Leads (peer.exec env i) s Q) :
    p.Leads (peer.exec env i) s fun a t => Q a t ∧ s.1.history <:+ t.1.history := by
  obtain ⟨a, t, hrun, hQ⟩ := h
  exact ⟨a, t, hrun, hQ, Program.run_rel (R := fun s t => s.1.history <:+ t.1.history) (fun _ => List.suffix_refl _)
    List.IsSuffix.trans (fun _ _ _ _ => Peer.exec_grows) hrun⟩

/-- What reads the disk and sends nothing gives what it would alone. -/
theorem Gives.leads {p : Action ε α} {r : Except ε α} (h : Gives env i p s.1 r) (hp : p.run.Only Near) (peer : Peer τ) :
    p.run.Leads (peer.exec env i) s fun r' t => r' = r ∧ t.1.state = s.1.state ∧ t.2 = s.2 := by
  obtain ⟨u, hrun, hstate⟩ := h
  refine ⟨r, (u, s.2), ?_, rfl, hstate, rfl⟩
  have hembed : p.run.run (peer.exec env i) (s.1, s.2) = _ :=
    Program.run_embed (fun w => (w, s.2)) (peer.exec_near env i s.2) hp s.1
  rw [show s = (s.1, s.2) from rfl, hembed, show p.run.run (execAs env i) s.1 = some (r, u) from hrun]
  rfl

/-- The run leaves the locks and the peer as they were, and adds to the history. -/
def Beside (s t : ClientState ι × τ) : Prop :=
  t.1.state.holder = s.1.state.holder ∧ t.2 = s.2 ∧ s.1.history <:+ t.1.history

theorem Beside.trans {s t u : ClientState ι × τ} (a : Beside s t) (b : Beside t u) : Beside s u :=
  ⟨b.1.trans a.1, b.2.1.trans a.2.1, a.2.2.trans b.2.2⟩

variable (hfaults : ∀ n, env.faults n = none)
include hfaults

theorem attempt_leads {op : FileOp} (horphan : orphan op s.1.state.disk = false) :
    (attempt op : Action ε op.Answer).run.Leads (peer.exec env i) s fun r t =>
      r = .ok (op.exec (env.clock s.1.history.length) (env.order s.1.history.length) s.1.state.disk).1 ∧
        t.1.state.disk = (op.exec (env.clock s.1.history.length) (env.order s.1.history.length) s.1.state.disk).2 ∧
        Beside s t := by
  have hexec := execFile_sound (hfaults s.1.history.length) horphan
  refine ⟨.ok (execFile env s.1.history.length op s.1.state.disk).1, (after env i s.1 op, s.2), rfl, ?_, ?_, rfl, rfl,
    List.suffix_cons ..⟩
  · rw [hexec]
  · rw [after_disk, hexec]

/-- An operation that does not fail. -/
theorem file_leads {op : FileOp} {a : op.Value} (horphan : orphan op s.1.state.disk = false) (wrap : IoError → ε)
    (h : op.exec (env.clock s.1.history.length) (env.order s.1.history.length) s.1.state.disk =
      (.ok a, d)) :
    (file wrap op).run.Leads (peer.exec env i) s fun r t => r = .ok a ∧ t.1.state.disk = d ∧ Beside s t := by
  have hexec := (execFile_sound (hfaults s.1.history.length) horphan).trans h
  have hrun : (file wrap op).run.run (peer.exec env i) s =
      some ((execFile env s.1.history.length op s.1.state.disk).1.mapError wrap, after env i s.1 op, s.2) := rfl
  rw [hexec] at hrun
  refine ⟨.ok a, _, hrun, rfl, ?_, rfl, rfl, List.suffix_cons ..⟩
  rw [after_disk, hexec]

end Machine

/-! ### What a run asks -/

section Requests
variable (C : Crates) (content : Path → Option Bytes)

/-- The request for an envelope, or why there is none. -/
def requestFor (endpoint : Url) (token : String) (config : ShipConfig) (envelope : CrashEnvelope) :
    Except ShipError HttpRequest := do
  let compressed ← (compressEnvelope C.compress config envelope).mapError .io
  match headerValue ("Bearer " ++ token) with
  | none => .error .invalidToken
  | some authorization => .ok ⟨crashUrl C endpoint, authorization, "multipart/form-data; boundary=" ++ DEFAULT_BOUNDARY,
      compressed.1.writeToWithBoundaryAndEncodings C.json DEFAULT_BOUNDARY compressed.2⟩

/-- The request for an entry. -/
def requestAt (endpoint : Url) (token : String) (config : ShipConfig) (entry : Path) : Except ShipError HttpRequest :=
  envelopeAt C content entry >>= requestFor C endpoint token config

/-- What the shipper makes of an answer. -/
def outcome : Except HttpError Response → Except ShipError Unit
  | .error e => .error (.http e)
  | .ok response =>
    if response.isSuccess then match response.failure with
      | some e => .error (.http e)
      | none => .ok ()
    else .error (.status response.status)

/-- The files that the metadata of an entry names lie in it. -/
def Local (entry : Path) : Prop := ∀ bytes metadata, content (entry.join "metadata.json") = some bytes →
  C.json.metadata bytes = .ok metadata → ∀ m ∈ metadata.attachments, ∀ name, m.filename = some name →
    entry <+: entry.join name

end Requests

/-- The conversation: how many requests are acknowledged, and what ends it before all are. -/
def Peer.pass {τ : Type} (peer : Peer τ) : List (Except ShipError HttpRequest) → τ → Option ((Nat × Option ShipError) × τ)
  | [], s => some ((0, none), s)
  | .error e :: _, s => some ((0, some e), s)
  | .ok request :: rest, s => (peer request s).bind fun answered => match outcome answered.1 with
    | .error e => some ((0, some e), answered.2)
    | .ok _ => (peer.pass rest answered.2).map fun x => ((x.1.1 + 1, x.1.2), x.2)

section Reading
variable {C : Crates} {content content' : Path → Option Bytes} {entry : Path}

theorem attachmentsAt_congr (h : ∀ q, entry <+: q → content' q = content q) {manifests : List AttachmentManifest}
    (hlocal : ∀ m ∈ manifests, ∀ name, m.filename = some name → entry <+: entry.join name) :
    attachmentsAt content' entry manifests = attachmentsAt content entry manifests := by
  induction manifests with
  | nil => rfl
  | cons m rest ih =>
    have ih := ih fun m' hm' => hlocal m' (List.mem_cons_of_mem _ hm')
    unfold attachmentsAt
    cases hname : m.filename with
    | none => exact ih
    | some name =>
      dsimp only
      rw [ih, readAt, readAt, h _ (hlocal m (.head _) name hname)]

/-- An entry is read from its own files. -/
theorem envelopeAt_congr (h : ∀ q, entry <+: q → content' q = content q) (hlocal : Local C content entry) :
    envelopeAt C content' entry = envelopeAt C content entry := by
  have hread : ∀ name, Component name → readAt content' (entry.join name) = readAt content (entry.join name) := by
    intro name hname
    rw [readAt, readAt, hname.join, h _ (List.prefix_append ..)]
  unfold envelopeAt
  rw [hread "metadata.json" ⟨by decide, by decide, by decide⟩, hread "dump.bin" ⟨by decide, by decide, by decide⟩,
    readAt]
  cases hbytes : content (entry.join "metadata.json") with
  | none => rfl
  | some bytes =>
    show ((C.json.metadata bytes).mapError ShipError.json >>= _) = ((C.json.metadata bytes).mapError ShipError.json >>= _)
    cases hmetadata : C.json.metadata bytes with
    | error e => rfl
    | ok metadata =>
      show (_ >>= fun dump => attachmentsAt content' entry metadata.attachments >>= _) =
        (_ >>= fun dump => attachmentsAt content entry metadata.attachments >>= _)
      rw [attachmentsAt_congr h (hlocal bytes metadata hbytes hmetadata)]

theorem readAttachments_near (entry : Path) (manifests : List AttachmentManifest) :
    (readAttachments entry manifests).run.Only Near := by
  induction manifests with
  | nil => trivial
  | cons m rest ih =>
    unfold readAttachments
    cases m.filename with
    | none => exact ih
    | some name =>
      refine Program.Only.andThen ⟨trivial, fun _ => trivial⟩ fun bytes => ?_
      exact Program.Only.andThen ih fun _ => trivial

theorem readEnvelope_near (C : Crates) (entry : Path) : (readEnvelope C entry).run.Only Near := by
  refine Program.Only.andThen ⟨trivial, fun _ => trivial⟩ fun bytes => ?_
  refine Program.Only.andThen trivial fun metadata => ?_
  refine Program.Only.andThen ⟨trivial, fun _ => trivial⟩ fun dump => ?_
  exact Program.Only.andThen (readAttachments_near ..) fun _ => trivial

end Reading

/-! ### One entry -/

section Entry
variable {ι τ : Type} {peer : Peer τ} {env : Env} {i : ι} {C : Crates} {s : ClientState ι × τ} {spool : Path}
  {v : SpoolView} {x : String}

theorem rename_leads (hfaults : ∀ n, env.faults n = none) (hv : Shows spool s.1.state.disk v)
    (hx : (s.1.state.disk.dir (pendingAt spool x)).isSome = true) (hfree : s.1.state.disk.dir (sentAt spool x) = none) :
    (file ShipError.io (.renameDir (pendingAt spool x) (sentAt spool x))).run.Leads (peer.exec env i) s fun r t =>
      r = .ok () ∧ Shows spool t.1.state.disk (v.move x) ∧
        (∀ y, y ≠ x → Untouched spool y s.1.state.disk t.1.state.disk) ∧ Beside s t := by
  have horphan : orphan (.renameDir (pendingAt spool x) (sentAt spool x)) s.1.state.disk = false := by
    show (s.1.state.disk.dir (sentAt spool x).parent).isNone = false
    rw [parent_sentAt, Option.isNone_eq_false_iff]
    exact hv.there
  have hoccupied : s.1.state.disk.occupied (sentAt spool x) = false := by
    rw [Disk.occupied, file_of_content (hv.proper.sent x), hfree]
    rfl
  obtain ⟨e, he, hrenamed⟩ := renameDir_renamed (env.clock s.1.history.length) hx hoccupied
  refine (file_leads hfaults horphan _ he).mono fun r t ht => ?_
  obtain ⟨hr, rfl, hbeside⟩ := ht
  exact ⟨hr, hv.renamed hrenamed (hv.proper.pending x hx).2, hrenamed.others, hbeside⟩

theorem remove_leads (hfaults : ∀ n, env.faults n = none) (hv : Shows spool s.1.state.disk v)
    (hx : (s.1.state.disk.dir (sentAt spool x)).isSome = true) :
    (file ShipError.io (.removeDirAll (sentAt spool x))).run.Leads (peer.exec env i) s fun r t =>
      r = .ok () ∧ Shows spool t.1.state.disk ⟨v.pending, Function.update v.sent x none⟩ ∧
        Removed spool x s.1.state.disk t.1.state.disk ∧ Beside s t := by
  have horphan : orphan (.removeDirAll (sentAt spool x)) s.1.state.disk = false := rfl
  obtain ⟨e, he, hremoved⟩ := removeDirAll_removed (env.clock s.1.history.length) hx
  refine (file_leads hfaults horphan _ he).mono fun r t ht => ?_
  obtain ⟨hr, rfl, hbeside⟩ := ht
  exact ⟨hr, hv.removed hremoved, hremoved, hbeside⟩

/-- An entry that is pending is moved, in place of one that was sent under its name. -/
theorem moveEntry_leads (hfaults : ∀ n, env.faults n = none) (hv : Shows spool s.1.state.disk v)
    (hx : (s.1.state.disk.dir (pendingAt spool x)).isSome = true) :
    (moveEntry (pendingAt spool x) (sentAt spool x)).run.Leads (peer.exec env i) s fun r t =>
      r = .ok () ∧ Shows spool t.1.state.disk (v.move x) ∧
        (∀ y, y ≠ x → Untouched spool y s.1.state.disk t.1.state.disk) ∧ Beside s t := by
  unfold moveEntry
  refine (attempt_leads hfaults rfl).thenOk fun t ht => ?_
  obtain ⟨hdisk, hbeside⟩ := ht
  have hdisk : t.1.state.disk = s.1.state.disk := hdisk
  have hthere : ∀ now order, (FileOp.exec now order (.tryExists (sentAt spool x)) s.1.state.disk).1 =
      .ok (s.1.state.disk.dir (sentAt spool x)).isSome := by
    intro _ _
    show Except.ok (s.1.state.disk.occupied (sentAt spool x)) = _
    rw [Disk.occupied, file_of_content (hv.proper.sent x)]
    rfl
  rw [hthere]
  rw [← hdisk] at hv hx ⊢
  cases hsent : (t.1.state.disk.dir (sentAt spool x)).isSome with
  | true =>
    rw [if_pos rfl]
    refine (remove_leads hfaults hv hsent).thenOk fun u hu => ?_
    obtain ⟨hv', hremoved, hbeside'⟩ := hu
    have hx' : (u.1.state.disk.dir (pendingAt spool x)).isSome = true := by
      rw [(hremoved.pending x).dir]
      exact hx
    refine (rename_leads hfaults hv' hx' hremoved.gone).mono fun r w hw => ?_
    obtain ⟨hr, hshows, hothers, hbeside''⟩ := hw
    refine ⟨hr, ?_, fun y hy => (hremoved.others y hy).trans (hothers y hy), hbeside.trans (hbeside'.trans hbeside'')⟩
    have hmove : SpoolView.move ⟨v.pending, Function.update v.sent x none⟩ x = v.move x := by
      unfold SpoolView.move
      rw [Function.update_idem]
    rw [← hmove]
    exact hshows
  | false =>
    rw [if_neg (by simp)]
    have hfree : t.1.state.disk.dir (sentAt spool x) = none := by
      rw [← Option.not_isSome_iff_eq_none, hsent]
      exact Bool.false_ne_true
    refine (rename_leads hfaults hv hx hfree).mono fun r w hw => ?_
    obtain ⟨hr, hshows, hothers, hbeside'⟩ := hw
    exact ⟨hr, hshows, hothers, hbeside.trans hbeside'⟩

/-- A request that is sent. -/
theorem post_leads {request : HttpRequest} {entry : Path} {answer : Except HttpError Response} {s' : τ}
    (h : peer request s.2 = some (answer, s')) :
    (call (.post entry request) : Action ShipError _).run.Leads (peer.exec env i) s fun r t =>
      r = .ok answer ∧ t.1.state = s.1.state ∧ t.2 = s' := by
  refine ⟨.ok answer, (called i s.1 (.post entry request) answer, s'), ?_, rfl, rfl, rfl⟩
  show ((peer request s.2).map _).bind _ = _
  rw [h]
  rfl

theorem postEnvelope_leads (peer : Peer τ) (env : Env) (i : ι) (C : Crates) (s : ClientState ι × τ) (entry : Path)
    (endpoint : Url) (token : String) (config : ShipConfig) (envelope : CrashEnvelope) :
    match requestFor C endpoint token config envelope with
    | .error e => (postEnvelope C entry endpoint token envelope config).run.Leads (peer.exec env i) s
        fun r t => r = .error e ∧ t = s
    | .ok request => ∀ answer s', peer request s.2 = some (answer, s') →
        (postEnvelope C entry endpoint token envelope config).run.Leads (peer.exec env i) s fun r t =>
          r = outcome answer ∧ t.1.state = s.1.state ∧ t.2 = s' := by
  unfold requestFor postEnvelope
  cases hcompress : compressEnvelope C.compress config envelope with
  | error e => exact ⟨_, s, rfl, rfl, rfl⟩
  | ok compressed =>
    cases hheader : headerValue ("Bearer " ++ token) with
    | none => exact ⟨_, s, rfl, rfl, rfl⟩
    | some authorization =>
      intro answer s' hanswer
      refine (post_leads hanswer).thenOk fun t ht => ⟨outcome answer, t, ?_, rfl, ht⟩
      cases answer with
      | error e => rfl
      | ok response =>
        unfold outcome
        dsimp only
        cases response.isSuccess with
        | false => rfl
        | true =>
          cases response.failure with
          | none => rfl
          | some e => rfl

/-- **What the shipper does with one entry**: nothing, if there is no request or it is not
acknowledged, and otherwise the entry is moved. -/
theorem shipOne_leads (peer : Peer τ) (hfaults : ∀ n, env.faults n = none) (hv : Shows spool s.1.state.disk v)
    (hx : (s.1.state.disk.dir (pendingAt spool x)).isSome = true) (endpoint : Url) (token : String) (config : ShipConfig) :
    match requestAt C s.1.state.disk.content endpoint token config (pendingAt spool x) with
    | .error e => (shipOne C (sentDir spool) endpoint token config (pendingAt spool x)).run.Leads (peer.exec env i) s
        fun r t => r = .error e ∧ t.1.state = s.1.state ∧ t.2 = s.2
    | .ok request => ∀ answer s', peer request s.2 = some (answer, s') →
        (shipOne C (sentDir spool) endpoint token config (pendingAt spool x)).run.Leads (peer.exec env i) s fun r t =>
          r = outcome answer ∧ t.1.state.holder = s.1.state.holder ∧ t.2 = s' ∧ match outcome answer with
            | .error _ => t.1.state.disk = s.1.state.disk
            | .ok _ => Shows spool t.1.state.disk (v.move x) ∧
                ∀ y, y ≠ x → Untouched spool y s.1.state.disk t.1.state.disk := by
  have hread := (gives_readEnvelope (i := i) (w := s.1) C hfaults (pendingAt spool x)).leads
    (readEnvelope_near C _) peer
  unfold requestAt shipOne
  cases henvelope : envelopeAt C s.1.state.disk.content (pendingAt spool x) with
  | error e =>
    rw [henvelope] at hread
    exact hread.thenError fun t ht => ⟨rfl, ht⟩
  | ok envelope =>
    rw [henvelope] at hread
    show match requestFor C endpoint token config envelope with
      | .error e => _
      | .ok request => _
    have hpost : ∀ t : ClientState ι × τ, _ := fun t =>
      postEnvelope_leads peer env i C t (pendingAt spool x) endpoint token config envelope
    cases hrequest : requestFor C endpoint token config envelope with
    | error e =>
      rw [hrequest] at hpost
      refine hread.thenOk fun t ht => (hpost t).thenError fun u hu => ?_
      rw [hu]
      exact ⟨rfl, ht⟩
    | ok request =>
      rw [hrequest] at hpost
      intro answer s' hanswer
      refine hread.thenOk fun t ht => ?_
      obtain ⟨hstate, hpeer⟩ := ht
      refine (hpost t answer s' (by rw [hpeer]; exact hanswer)).andThen (fun a u hu => ?_) fun e' u hu => ?_
      · obtain ⟨ha, hstate', hpeer'⟩ := hu
        have hdisk : u.1.state.disk = s.1.state.disk := by rw [hstate', hstate]
        have hname : (pendingAt spool x).fileName = some x := List.getLast?_concat
        rw [hname]
        dsimp only
        rw [(hv.proper.pending x hx).1.join]
        rw [← hdisk] at hv hx
        refine (moveEntry_leads hfaults hv hx).mono fun r w hw => ?_
        obtain ⟨hr, hshows, hothers, hholder, hpeer'', -⟩ := hw
        rw [← ha]
        rw [hdisk] at hothers
        exact ⟨hr, hholder.trans (by rw [hstate', hstate]), hpeer''.trans hpeer', hshows, hothers⟩
      · obtain ⟨he, hstate', hpeer'⟩ := hu
        rw [← he]
        exact ⟨rfl, by rw [hstate', hstate], hpeer', by rw [hstate', hstate]⟩

end Entry

/-! ### The entries -/

section Loop
variable {ι τ : Type} {peer : Peer τ} {env : Env} {i : ι} {C : Crates} {spool : Path} {names : List String}
  {start : Disk} {s : ClientState ι × τ} {error : Option ShipError} {x : String} {v : SpoolView} {s' : τ} {n : Nat}

/-- These entries are pending, as they were at the start. -/
def Waiting (spool : Path) (start : Disk) (names : List String) (d : Disk) : Prop :=
  ∀ x ∈ names, (start.dir (pendingAt spool x)).isSome = true ∧
    SameTree (pendingAt spool x) (pendingAt spool x) start d

theorem Waiting.isSome (h : Waiting spool start names d) (hx : x ∈ names) :
    (d.dir (pendingAt spool x)).isSome = true := by
  rw [(h x hx).2.dir]
  exact (h x hx).1

theorem Waiting.later {d e : Disk} (h : Waiting spool start (x :: names) d) (hx : x ∉ names)
    (hothers : ∀ y, y ≠ x → Untouched spool y d e) : Waiting spool start names e := by
  intro y hy
  obtain ⟨hdir, hsame⟩ := h y (.tail _ hy)
  exact ⟨hdir, hsame.trans (hothers y fun heq => hx (heq ▸ hy)).pending⟩

theorem Waiting.requestAt_eq (h : Waiting spool start names d) (hx : x ∈ names)
    (hlocal : Local C start.content (pendingAt spool x)) (endpoint : Url) (token : String) (config : ShipConfig) :
    requestAt C d.content endpoint token config (pendingAt spool x) =
      requestAt C start.content endpoint token config (pendingAt spool x) := by
  unfold requestAt
  rw [envelopeAt_congr _ hlocal]
  rintro q ⟨rest, rfl⟩
  exact (h x hx).2.files rest

/-- **One entry and the conversation**: an entry that is shipped is the next one acknowledged,
and where the shipper stops the conversation does. -/
theorem shipOne_pass (hfaults : ∀ n, env.faults n = none) (endpoint : Url) (token : String) (config : ShipConfig)
    (hv : Shows spool s.1.state.disk v) (hx : (s.1.state.disk.dir (pendingAt spool x)).isSome = true)
    {rest : List (Except ShipError HttpRequest)}
    (hpass : peer.pass (requestAt C s.1.state.disk.content endpoint token config (pendingAt spool x) :: rest) s.2 =
      some ((n, error), s')) :
    (shipOne C (sentDir spool) endpoint token config (pendingAt spool x)).run.Leads (peer.exec env i) s fun r t =>
      t.1.state.holder = s.1.state.holder ∧ match r with
      | .error e => n = 0 ∧ error = some e ∧ t.2 = s' ∧ Shows spool t.1.state.disk v
      | .ok _ => ∃ m, n = m + 1 ∧ peer.pass rest t.2 = some ((m, error), s') ∧
          Shows spool t.1.state.disk (v.move x) ∧ ∀ y, y ≠ x → Untouched spool y s.1.state.disk t.1.state.disk := by
  have hone := shipOne_leads (i := i) (C := C) peer hfaults hv hx endpoint token config
  cases hrequest : requestAt C s.1.state.disk.content endpoint token config (pendingAt spool x) with
  | error e =>
    rw [hrequest] at hone hpass
    obtain ⟨hr, rfl⟩ := result_eq hpass
    obtain ⟨rfl, rfl⟩ := Prod.mk.inj hr
    refine hone.mono fun r t ht => ?_
    obtain ⟨rfl, hstate, hpeer⟩ := ht
    rw [hstate]
    exact ⟨rfl, rfl, rfl, hpeer, hv⟩
  | ok request =>
    rw [hrequest] at hone hpass
    obtain ⟨⟨answer, s₁⟩, hanswer, hpass⟩ := Option.bind_eq_some_iff.mp hpass
    refine (hone answer s₁ hanswer).mono fun r t ht => ?_
    obtain ⟨rfl, hholder, hpeer, ht⟩ := ht
    refine ⟨hholder, ?_⟩
    dsimp only at hpass
    cases houtcome : outcome answer with
    | error e =>
      rw [houtcome] at ht hpass
      obtain ⟨hr, rfl⟩ := result_eq hpass
      obtain ⟨rfl, rfl⟩ := Prod.mk.inj hr
      have hdisk : t.1.state.disk = s.1.state.disk := ht
      rw [hdisk]
      exact ⟨rfl, rfl, hpeer, hv⟩
    | ok _ =>
      rw [houtcome] at ht hpass
      obtain ⟨⟨⟨m, error'⟩, s₂⟩, hrun, heq⟩ := Option.map_eq_some_iff.mp hpass
      obtain ⟨hr, rfl⟩ := Prod.mk.inj heq
      obtain ⟨rfl, rfl⟩ := Prod.mk.inj hr
      rw [← hpeer] at hrun
      exact ⟨m, rfl, hrun, ht⟩

/-- **The entries are shipped as the conversation goes.** -/
theorem shipEntries_leads (hfaults : ∀ n, env.faults n = none) (endpoint : Url) (token : String)
    (config : ShipConfig) (hnodup : names.Nodup) (hlocal : ∀ x ∈ names, Local C start.content (pendingAt spool x))
    (hv : Shows spool s.1.state.disk v) (hwaiting : Waiting spool start names s.1.state.disk) (shipped : Nat)
    (hpass : peer.pass (names.map fun x => requestAt C start.content endpoint token config (pendingAt spool x)) s.2 =
      some ((n, error), s')) :
    (shipEntries (shipOne C (sentDir spool) endpoint token config) shipped (names.map (pendingAt spool))).run.Leads
      (peer.exec env i) s fun r t => r = error.elim (.ok (shipped + n)) .error ∧
        Shows spool t.1.state.disk ((names.take n).foldl SpoolView.move v) ∧
        t.1.state.holder = s.1.state.holder ∧ t.2 = s' := by
  induction names generalizing s v shipped n with
  | nil =>
    obtain ⟨hr, rfl⟩ := result_eq hpass
    obtain ⟨rfl, rfl⟩ := Prod.mk.inj hr
    exact .done ⟨rfl, hv, rfl, rfl⟩
  | cons x rest ih =>
    obtain ⟨hx, hrest⟩ := List.nodup_cons.mp hnodup
    rw [List.map_cons, ← hwaiting.requestAt_eq (.head _) (hlocal x (.head _))] at hpass
    have hone := shipOne_pass (i := i) hfaults endpoint token config hv (hwaiting.isSome (.head _)) hpass
    refine hone.andThen (fun _ t ht => ?_) fun e t ht => ?_
    · obtain ⟨hholder, m, rfl, hpass', hshows, hothers⟩ := ht
      refine (ih hrest (fun y hy => hlocal y (.tail _ hy)) hshows (hwaiting.later hx hothers)
        (shipped + 1) hpass').mono fun r u hu => ?_
      obtain ⟨hr, hshows', hholder', hpeer'⟩ := hu
      refine ⟨?_, hshows', hholder'.trans hholder, hpeer'⟩
      rw [hr, Nat.add_assoc, Nat.add_comm 1]
    · obtain ⟨hholder, rfl, rfl, hpeer, hshows⟩ := ht
      exact ⟨rfl, hshows, hholder, hpeer⟩

/-! Where each entry tells its endpoint. -/

/-- The request for an entry to the endpoint that it has stored. -/
def storedRequestAt (C : Crates) (d : Disk) (token : String) (config : ShipConfig) (entry : Path) :
    Except ShipError HttpRequest :=
  endpointAt C d entry >>= fun resolved => requestAt C d.content resolved.1 token config entry

/-- The retention that the entries have stored, as far as they have any. -/
def recordedRetention (C : Crates) (d : Disk) : Option UInt64 → List Path → Option UInt64
  | days, [] => days
  | days, entry :: rest => match endpointAt C d entry with
    | .ok resolved => recordedRetention C d (recordRetention days resolved.2) rest
    | .error _ => recordedRetention C d days rest

theorem Waiting.endpointAt_eq (h : Waiting spool start names d) (hx : x ∈ names) :
    endpointAt C d (pendingAt spool x) = endpointAt C start (pendingAt spool x) := by
  have hjoin : (pendingAt spool x).join "sdk-config.json" = pendingAt spool x ++ ["sdk-config.json"] :=
    Component.join ⟨by decide, by decide, by decide⟩ _
  have hcontent := (h x hx).2.files ["sdk-config.json"]
  have hoccupied : ∀ e : Disk, e.occupied (pendingAt spool x ++ ["sdk-config.json"]) =
      ((e.content (pendingAt spool x ++ ["sdk-config.json"])).isSome ||
        (e.dir (pendingAt spool x ++ ["sdk-config.json"])).isSome) := by
    intro e
    rw [Disk.occupied, Disk.content, Option.isSome_map]
  unfold endpointAt storedConfigAt
  rw [hjoin, hoccupied, hoccupied, readAt, readAt, hcontent, (h x hx).2.dirs]

theorem resolveStoredEndpoint_near (C : Crates) (entry : Path) : (resolveStoredEndpoint C entry).run.Only Near := by
  unfold resolveStoredEndpoint readStoredUploadConfig
  refine Program.Only.andThen (Program.Only.andThen ⟨trivial, fun _ => trivial⟩ fun there => ?_) fun stored => ?_
  · split
    · refine Program.Only.andThen ⟨trivial, fun _ => trivial⟩ fun bytes => ?_
      exact Program.Only.andThen trivial fun _ => trivial
    · trivial
  · cases stored with
    | none => trivial
    | some config =>
      dsimp only
      cases C.parseUrl config.endpoint with
      | none => trivial
      | some endpoint => trivial

/-- **The same with an endpoint for each**, and the longest retention among those that were shipped. -/
theorem shipStoredEntries_leads (hfaults : ∀ n, env.faults n = none) (token : String) (config : ShipConfig)
    (hnodup : names.Nodup) (hlocal : ∀ x ∈ names, Local C start.content (pendingAt spool x))
    (hv : Shows spool s.1.state.disk v) (hwaiting : Waiting spool start names s.1.state.disk) (shipped : Nat)
    (days : Option UInt64)
    (hpass : peer.pass (names.map fun x => storedRequestAt C start token config (pendingAt spool x)) s.2 =
      some ((n, error), s')) :
    (shipStoredEntries C (sentDir spool) token config shipped days (names.map (pendingAt spool))).run.Leads
      (peer.exec env i) s fun r t =>
        r = error.elim (.ok (shipped + n, recordedRetention C start days (names.map (pendingAt spool)))) .error ∧
        Shows spool t.1.state.disk ((names.take n).foldl SpoolView.move v) ∧
        t.1.state.holder = s.1.state.holder ∧ t.2 = s' := by
  induction names generalizing s v shipped days n with
  | nil =>
    obtain ⟨hr, rfl⟩ := result_eq hpass
    obtain ⟨rfl, rfl⟩ := Prod.mk.inj hr
    exact .done ⟨rfl, hv, rfl, rfl⟩
  | cons x rest ih =>
    obtain ⟨hx, hrest⟩ := List.nodup_cons.mp hnodup
    have hresolve := (gives_resolveStoredEndpoint (C := C) (i := i) (w := s.1) hfaults (pendingAt spool x)).leads
      (resolveStoredEndpoint_near C _) peer
    rw [hwaiting.endpointAt_eq (.head _)] at hresolve
    rw [List.map_cons] at hpass
    unfold storedRequestAt at hpass
    show Program.Leads _ (ExceptT.run (resolveStoredEndpoint C (pendingAt spool x) >>= _)) s _
    cases hendpoint : endpointAt C start (pendingAt spool x) with
    | error e =>
      rw [hendpoint] at hresolve hpass
      obtain ⟨hr, rfl⟩ := result_eq hpass
      obtain ⟨rfl, rfl⟩ := Prod.mk.inj hr
      refine hresolve.thenError fun t ht => ?_
      rw [ht.1]
      exact ⟨rfl, hv, rfl, ht.2⟩
    | ok resolved =>
      rw [hendpoint] at hresolve hpass
      refine hresolve.thenOk fun t ht => ?_
      obtain ⟨hstate, hpeer⟩ := ht
      rw [← hstate] at hv hwaiting ⊢
      rw [← hpeer] at hpass
      have hrequest := hwaiting.requestAt_eq (.head _) (hlocal x (.head _)) resolved.1 token config
      have hpass : peer.pass (requestAt C start.content resolved.1 token config (pendingAt spool x) ::
        rest.map fun x => storedRequestAt C start token config (pendingAt spool x)) t.2 = some ((n, error), s') := hpass
      rw [← hrequest] at hpass
      have hone := shipOne_pass (i := i) hfaults resolved.1 token config hv (hwaiting.isSome (.head _)) hpass
      refine hone.andThen (fun _ u hu => ?_) fun e u hu => ?_
      · obtain ⟨hholder, m, rfl, hpass', hshows, hothers⟩ := hu
        refine (ih hrest (fun y hy => hlocal y (.tail _ hy)) hshows (hwaiting.later hx hothers)
          (shipped + 1) (recordRetention days resolved.2) hpass').mono fun r u hu => ?_
        obtain ⟨hr, hshows', hholder', hpeer'⟩ := hu
        refine ⟨?_, hshows', hholder'.trans hholder, hpeer'⟩
        rw [hr, Nat.add_assoc, Nat.add_comm 1, List.map_cons, recordedRetention, hendpoint]
      · obtain ⟨hholder, rfl, rfl, hpeer', hshows⟩ := hu
        exact ⟨rfl, hshows, hholder, hpeer'⟩

end Loop

/-! ### Cleaning up -/

section CleanUp
variable {ι τ : Type} {peer : Peer τ} {env : Env} {i : ι} {s : ClientState ι × τ} {spool : Path} {v : SpoolView}

/-- Between two states of a process call number `k` was a look at its clock. -/
def ReadsClock (env : Env) (i : ι) (k : Nat) (w w' : ClientState ι) : Prop :=
  ∃ before, before.length = k ∧ w.history <:+ before ∧ ⟨i, .now, env.clock k⟩ :: before <:+ w'.history

theorem ReadsClock.later {k : Nat} {w u u' w' : ClientState ι} (h : ReadsClock env i k u u') (hw : w.history <:+ u.history)
    (hw' : u'.history <:+ w'.history) : ReadsClock env i k w w' := by
  obtain ⟨before, hk, hu, hnow⟩ := h
  exact ⟨before, hk, hw.trans hu, hnow.trans hw'⟩

theorem metadata_dir {p : Path} {t : Time} (hfile : d.content p = none) (hdir : d.dir p = some t) :
    d.metadata p = .ok ⟨t, 0⟩ := by
  rw [Disk.metadata, file_of_content hfile, hdir]

variable (hfaults : ∀ n, env.faults n = none)
include hfaults

theorem removeOld_leads (cutoff : Time) {names : List String}
    (hnodup : names.Nodup) (hv : Shows spool s.1.state.disk v)
    (hthere : ∀ x ∈ names, (s.1.state.disk.dir (sentAt spool x)).isSome = true) :
    (removeOld cutoff (names.map (sentAt spool))).run.Leads (peer.exec env i) s fun r t =>
      r = .ok () ∧ Shows spool t.1.state.disk (v.cleanAmong cutoff names) ∧ Beside s t := by
  induction names generalizing s v with
  | nil =>
    refine .done ⟨rfl, ?_, rfl, rfl, List.suffix_refl _⟩
    have hnone : v.cleanAmong cutoff [] = v := by simp [SpoolView.cleanAmong]
    rw [hnone]
    exact hv
  | cons x rest ih =>
    obtain ⟨hx, hrest⟩ := List.nodup_cons.mp hnodup
    obtain ⟨time, htime⟩ := Option.isSome_iff_exists.mp (hthere x (.head _))
    have hentry : v.sent x = some ⟨time, fun rest => s.1.state.disk.dir (sentAt spool x ++ rest),
        fun rest => s.1.state.disk.content (sentAt spool x ++ rest)⟩ := by
      rw [← hv.view]
      show (s.1.state.disk.dir (sentAt spool x)).map _ = _
      rw [htime]
      rfl
    have hmetadata : ∀ now order, FileOp.exec now order (.metadata (sentAt spool x)) s.1.state.disk =
        (.ok ⟨time, 0⟩, s.1.state.disk) :=
      fun _ _ => congrArg (fun m => (m, s.1.state.disk)) (metadata_dir (hv.proper.sent x) htime)
    unfold removeOld
    rw [SpoolView.cleanAmong_cons]
    refine (file_leads hfaults rfl _ (hmetadata _ _)).thenOk fun t ht => ?_
    obtain ⟨hdisk, hbeside⟩ := ht
    rw [← hdisk] at hv hthere
    rw [SpoolView.cleanAmong_one hentry]
    dsimp only
    by_cases hold : time < cutoff
    · rw [if_pos hold, if_pos hold]
      refine (remove_leads hfaults hv (hthere x (.head _))).thenOk fun u hu => ?_
      obtain ⟨hshows, hremoved, hbeside'⟩ := hu
      refine (ih hrest hshows fun y hy => ?_).mono fun r w hw => ⟨hw.1, hw.2.1, hbeside.trans (hbeside'.trans hw.2.2)⟩
      rw [(hremoved.others y fun heq => hx (heq ▸ hy)).sent.dir]
      exact hthere y (.tail _ hy)
    · rw [if_neg hold, if_neg hold]
      exact (ih hrest hv fun y hy => hthere y (.tail _ hy)).mono
        fun r w hw => ⟨hw.1, hw.2.1, hbeside.trans hw.2.2⟩

/-- The directories below a directory, in the order of their names. -/
theorem pendingEntries_leads (dir : Path) :
    (pendingEntries dir).run.Leads (peer.exec env i) s fun r t => ∃ names : List String,
      r = .ok (names.map (dir ++ [·])) ∧ names.Pairwise (· < ·) ∧
        (∀ x, x ∈ names ↔ (s.1.state.disk.dir (dir ++ [x])).isSome = true) ∧
        t.1.state.disk = s.1.state.disk ∧ Beside s t := by
  refine (attempt_leads hfaults rfl).thenOk fun t ht => ?_
  obtain ⟨names, hnames, hsorted, hmem⟩ := listing_sorted (env.order s.1.history.length) s.1.state.disk dir
  exact .done ⟨names, congrArg Except.ok hnames, hsorted, hmem, ht⟩

/-- **A clean-up leaves what is not older than it says**, counted from the clock as it reads it. -/
theorem cleanupSent_leads (days : UInt64) (hv : Shows spool s.1.state.disk v) :
    (cleanupSent (sentDir spool) days).run.Leads (peer.exec env i) s fun r t => r = .ok () ∧ ∃ k,
      Shows spool t.1.state.disk (v.clean (env.clock k - retentionSpan days)) ∧ Beside s t ∧
        ReadsClock env i k s.1 t.1 := by
  have hnow : (call .now : Action ShipError Time).run.Leads (peer.exec env i) s fun r t =>
      r = .ok (env.clock s.1.history.length) ∧ t.1.state = s.1.state ∧ t.2 = s.2 ∧
        t.1.history = ⟨i, .now, env.clock s.1.history.length⟩ :: s.1.history := ⟨_, _, rfl, rfl, rfl, rfl, rfl⟩
  refine hnow.thenOk fun t ht => ?_
  obtain ⟨hstate, hpeer, hh⟩ := ht
  refine (pendingEntries_leads hfaults _).andThen (fun entries u hu => ?_) fun e u hu => ?_
  · obtain ⟨names, hentries, hsorted, hmem, hdisk, hbeside⟩ := hu
    obtain rfl := Except.ok.inj hentries
    have hdisk : u.1.state.disk = s.1.state.disk := by rw [hdisk, hstate]
    rw [hstate, ← hdisk] at hmem
    rw [← hdisk] at hv
    refine (removeOld_leads hfaults _ (hsorted.imp ne_of_lt) hv fun x hx => (hmem x).mp hx).mono fun r w hw => ?_
    obtain ⟨hr, hshows, hbeside'⟩ := hw
    have hgrows := hbeside.trans hbeside'
    refine ⟨hr, s.1.history.length, ?_, ?_, s.1.history, rfl, List.suffix_refl _, hh ▸ hgrows.2.2⟩
    · rw [SpoolView.cleanAmong_all fun x hx => (hmem x).mpr ?_] at hshows
      · exact hshows
      · rw [← hv.view] at hx
        exact entryAt_isSome.symm.trans hx
    · exact Beside.trans ⟨by rw [hstate], hpeer, hh ▸ List.suffix_cons ..⟩ hgrows
  · obtain ⟨names, hentries, -⟩ := hu
    cases hentries

end CleanUp

/-! ### A run -/

section Run
variable {ι τ : Type} {peer : Peer τ} {env : Env} {i : ι} {s : ClientState ι × τ} {spool : Path}

/-- A spool that a run can work on: its lock is free, and only entries lie where entries do. -/
structure Workable (spool : Path) (w : ClientState ι) : Prop where
  free : w.state.holder (lockPath spool) = none
  numbered : w.state.disk.Numbered
  proper : Proper spool w.state.disk

/-- Entries that are shown to be as they were are waiting. -/
theorem waiting_of_view {d e : Disk} {names : List String} (h : (view spool e).pending = (view spool d).pending)
    (hnames : ∀ x ∈ names, ((view spool d).pending x).isSome = true) : Waiting spool d names e := by
  intro x hx
  have hthere : (d.dir (pendingAt spool x)).isSome = true := entryAt_isSome.symm.trans (hnames x hx)
  exact ⟨hthere, sameTree_of_entryAt (congrFun h x) hthere⟩

variable (hfaults : ∀ n, env.faults n = none)
include hfaults

theorem createDirAll_leads {p : Path} (hp : p.length ≤ spool.length + 1)
    (hproper : Proper spool s.1.state.disk) :
    (file ShipError.io (.createDirAll p)).run.Leads (peer.exec env i) s fun r t => r = .ok () ∧
      view spool t.1.state.disk = view spool s.1.state.disk ∧ Proper spool t.1.state.disk ∧
      (∀ q, (t.1.state.disk.dir q).isSome = true ↔ q <+: p ∨ (s.1.state.disk.dir q).isSome = true) ∧
      (s.1.state.disk.Numbered → t.1.state.disk.Numbered) ∧ Beside s t := by
  refine (file_leads hfaults rfl _ rfl).mono fun r t ht => ?_
  obtain ⟨hr, hdisk, hbeside⟩ := ht
  rw [hdisk]
  refine ⟨hr, view_congr (createDirAll_untouched hp), hproper.congr (createDirAll_untouched hp), fun q => ?_,
    fun hd => hd, hbeside⟩
  exact Disk.createDirAll_dir ..

theorem acquire_leads (hw : Workable spool s.1) :
    (acquire ShipError.io spool).run.Leads (peer.exec env i) s fun r t => r = .ok () ∧
      view spool t.1.state.disk = view spool s.1.state.disk ∧ Proper spool t.1.state.disk ∧
      t.1.state.holder = Function.update s.1.state.holder (lockPath spool) (some i) ∧ t.2 = s.2 ∧
      s.1.history <:+ t.1.history := by
  unfold acquire
  refine (createDirAll_leads hfaults (Nat.le_succ _) hw.proper).thenOk fun t ht => ?_
  obtain ⟨hview, hproper, hdirs, hnumbered, hholder, hpeer, hgrows⟩ := ht
  have hspool : orphan (.openAppend (lockPath spool)) t.1.state.disk = false := by
    show (t.1.state.disk.dir (lockPath spool).parent).isNone = false
    rw [lockPath_eq, Path.parent, List.dropLast_concat, Option.isNone_eq_false_iff]
    exact (hdirs spool).mpr (.inl (List.prefix_refl _))
  refine (file_leads hfaults hspool _ rfl).thenOk fun u hu => ?_
  obtain ⟨hdisk, hholder', hpeer', hgrows'⟩ := hu
  have hsame : ∀ x, Untouched spool x t.1.state.disk u.1.state.disk := by
    rw [hdisk]
    exact openLock_untouched (hnumbered hw.numbered)
  have hfree : u.1.state.holder (lockPath spool) = none := by
    rw [hholder', hholder]
    exact hw.free
  let taken : ClientState ι := ⟨{u.1.state with holder := Function.update u.1.state.holder (lockPath spool) (some i)},
    ⟨i, .lock (lockPath spool), ()⟩ :: u.1.history⟩
  refine ⟨.ok (), (taken, u.2), ?_, rfl, (view_congr hsame).trans hview, hproper.congr hsame, ?_, hpeer'.trans hpeer,
    (hgrows.trans hgrows').trans (List.suffix_cons ..)⟩
  · have hlock : execAs env i (.lock (lockPath spool)) u.1 = some ((), taken) := by
      show (World.exec env i u.1.history.length (.lock (lockPath spool)) u.1.state).map _ = _
      unfold World.exec
      simp only [hfree]
      rfl
    show ((execAs env i (.lock (lockPath spool)) u.1).map _).bind _ = _
    rw [hlock]
    rfl
  · show Function.update u.1.state.holder (lockPath spool) (some i) = _
    rw [hholder', hholder]

/-- The lock is held while the code runs, and no longer. -/
theorem locked_leads (hw : Workable spool s.1) {p : Action ShipError Nat}
    {Q : Except ShipError Nat → ClientState ι → τ → Prop}
    (hQ : ∀ r x u u', u'.state.disk = u.state.disk → u.history <:+ u'.history → Q r u x → Q r u' x)
    (hp : ∀ t : ClientState ι × τ, view spool t.1.state.disk = view spool s.1.state.disk → Proper spool t.1.state.disk →
      t.2 = s.2 → s.1.history <:+ t.1.history → p.run.Leads (peer.exec env i) t fun r u =>
        Q r u.1 u.2 ∧ u.1.state.holder = t.1.state.holder) :
    (acquire ShipError.io spool >>= fun _ => guarded spool p).run.Leads (peer.exec env i) s fun r t =>
      Q r t.1 t.2 ∧ t.1.state.holder = s.1.state.holder := by
  refine (acquire_leads hfaults hw).thenOk fun t ht => ?_
  obtain ⟨hview, hproper, hholder, hpeer, hgrows⟩ := ht
  refine Program.Leads.bind ((hp t hview hproper hpeer hgrows).mono fun r u hu => ?_)
  obtain ⟨hu, hholder'⟩ := hu
  refine ⟨r, (⟨{u.1.state with holder := Function.update u.1.state.holder (lockPath spool) none},
    ⟨i, .unlock (lockPath spool), ()⟩ :: u.1.history⟩, u.2), rfl, hQ r u.2 u.1 _ rfl (List.suffix_cons ..) hu, ?_⟩
  show Function.update u.1.state.holder (lockPath spool) none = s.1.state.holder
  rw [hholder', hholder, Function.update_idem, ← hw.free, Function.update_eq_self]

/-- The code finds a place for what is sent. -/
theorem places_leads (hproper : Proper spool s.1.state.disk)
    {p : Action ShipError Nat} {Q : Except ShipError Nat → ClientState ι × τ → Prop}
    (hp : ∀ t : ClientState ι × τ, Shows spool t.1.state.disk (view spool s.1.state.disk) → Beside s t →
      p.run.Leads (peer.exec env i) t Q) :
    (file ShipError.io (.createDirAll (pendingDir spool)) >>= fun _ =>
      file ShipError.io (.createDirAll (sentDir spool)) >>= fun _ => p).run.Leads (peer.exec env i) s Q := by
  refine (createDirAll_leads hfaults (pendingDir_short spool) hproper).thenOk fun t ht => ?_
  obtain ⟨hview, hproper', -, -, hbeside⟩ := ht
  refine (createDirAll_leads hfaults (sentDir_short spool) hproper').thenOk fun u hu => ?_
  obtain ⟨hview', hproper'', hdirs, -, hbeside'⟩ := hu
  exact hp u ⟨hview'.trans hview, hproper'', (hdirs _).mpr (.inl (List.prefix_refl _))⟩ (hbeside.trans hbeside')

end Run

section Ship
variable {ι τ : Type} {peer : Peer τ} {env : Env} {i : ι} {C : Crates} {w : ClientState ι} {s s' : τ} {spool : Path}
  {names : List String} {endpoint : Url} {token : String} {config : ShipConfig} {n : Nat} {error : Option ShipError}

/-- Where a run to one endpoint ends that has moved `n` entries: what was sent is cleaned up, by the clock as the run
reads it, and then the entries are moved. -/
def Shipped (env : Env) (i : ι) (spool : Path) (names : List String) (n : Nat) (error : Option ShipError) (s' : τ)
    (w : ClientState ι) (r : Except ShipError Nat) (w' : ClientState ι) (x : τ) : Prop :=
  r = error.elim (.ok n) .error ∧ x = s' ∧ ∃ k, ReadsClock env i k w w' ∧ view spool w'.state.disk =
    (names.take n).foldl SpoolView.move
      ((view spool w.state.disk).clean (env.clock k - retentionSpan DEFAULT_SENT_RETENTION_DAYS))

/-- Where a run to the stored endpoints ends: the entries are moved, and if all are then what was sent is cleaned up,
by the longest retention that they have stored and by the clock as the run reads it. -/
def ShippedStored (env : Env) (i : ι) (C : Crates) (spool : Path) (names : List String) (n : Nat)
    (error : Option ShipError) (s' : τ) (w : ClientState ι) (r : Except ShipError Nat) (w' : ClientState ι)
    (x : τ) : Prop :=
  r = error.elim (.ok n) .error ∧ x = s' ∧ ∃ k, (error = none → ReadsClock env i k w w') ∧
    view spool w'.state.disk = error.elim
      (((names.take n).foldl SpoolView.move (view spool w.state.disk)).clean (env.clock k - retentionSpan
        (retentionOrDefault (recordedRetention C w.state.disk none (names.map (pendingAt spool))))))
      (fun _ => (names.take n).foldl SpoolView.move (view spool w.state.disk))

variable (hfaults : ∀ n, env.faults n = none) (hsorted : names.Pairwise (· < ·))
  (hnames : ∀ x, x ∈ names ↔ ((view spool w.state.disk).pending x).isSome = true)
include hfaults hsorted hnames

/-- The entries are listed while they are pending as they were. -/
theorem listed_leads {u : ClientState ι × τ} {v : SpoolView} (hu : Shows spool u.1.state.disk v)
    (hpending : v.pending = (view spool w.state.disk).pending) :
    (pendingEntries (pendingDir spool)).run.Leads (peer.exec env i) u fun r t => r = .ok (names.map (pendingAt spool)) ∧
      Shows spool t.1.state.disk v ∧ Waiting spool w.state.disk names t.1.state.disk ∧ Beside u t := by
  refine (pendingEntries_leads hfaults _).mono fun r t ht => ?_
  obtain ⟨names', hr, hsorted', hmem, hdisk, hbeside⟩ := ht
  obtain rfl : names' = names := by
    refine hsorted'.eq_of_mem_iff hsorted fun x => ?_
    rw [hmem, hnames, ← entryAt_isSome, ← hpending, ← hu.view]
    rfl
  rw [hdisk]
  exact ⟨hr, hu, waiting_of_view ((congrArg SpoolView.pending hu.view).trans hpending) fun x => (hnames x).mp, hbeside⟩

variable (hw : Workable spool w) (hlocal : ∀ x ∈ names, Local C w.state.disk.content (pendingAt spool x))
include hw hlocal

theorem shipPending_leads (hpass : peer.pass (names.map fun x =>
      requestAt C w.state.disk.content endpoint token config (pendingAt spool x)) s =
      some ((n, error), s')) :
    (shipPending C spool endpoint token config).run.Leads (peer.exec env i) (w, s) fun r t =>
      Shipped env i spool names n error s' w r t.1 t.2 ∧ t.1.state.holder = w.state.holder := by
  unfold shipPending
  dsimp only
  rw [join_pending, join_sent]
  refine locked_leads (s := (w, s)) (Q := Shipped env i spool names n error s' w) hfaults hw ?_
    fun t hview hproper hpeer hlocked => ?_
  · rintro r x u u' hdisk hgrows ⟨hr, hx, k, hclock, hview⟩
    exact ⟨hr, hx, k, hclock.later (List.suffix_refl _) hgrows, hdisk ▸ hview⟩
  refine places_leads hfaults hproper fun u hu hplaced => ?_
  rw [hview] at hu
  refine (cleanupSent_leads hfaults _ hu).thenOk fun x hx => ?_
  obtain ⟨k, hshows, hclean, hclock⟩ := hx
  -- the listing is taken after the clean-up, which leaves what is pending
  refine (listed_leads hfaults hsorted hnames hshows rfl).thenOk fun y hy => ?_
  obtain ⟨hshows, hwaiting, hlisted⟩ := hy
  obtain ⟨hholder, hsame, -⟩ := hplaced.trans (hclean.trans hlisted)
  rw [← show y.2 = s from hsame.trans hpeer] at hpass
  refine (leads_grows (shipEntries_leads hfaults endpoint token config (hsorted.imp ne_of_lt) hlocal hshows hwaiting 0
    hpass)).mono fun r z hz => ?_
  obtain ⟨⟨hr, hshows', hholder', hpeer'⟩, hshipped⟩ := hz
  rw [Nat.zero_add] at hr
  exact ⟨⟨hr, hpeer', k, hclock.later (hlocked.trans hplaced.2.2) (hlisted.2.2.trans hshipped), hshows'.view⟩,
    hholder'.trans hholder⟩

/-- **A run to the stored endpoints**: it cleans up last, by the longest retention that its
entries have stored, and not at all if it stops before all are shipped. -/
theorem shipStored_exact (hpass : peer.pass (names.map fun x =>
      storedRequestAt C w.state.disk token config (pendingAt spool x)) s =
      some ((n, error), s')) :
    ∃ w' k, (shipStored C spool token config).run.run (peer.exec env i) (w, s) =
        some (error.elim (.ok n) .error, w', s') ∧ (error = none → ReadsClock env i k w w') ∧
      view spool w'.state.disk = error.elim
        (((names.take n).foldl SpoolView.move (view spool w.state.disk)).clean (env.clock k - retentionSpan
          (retentionOrDefault (recordedRetention C w.state.disk none (names.map (pendingAt spool))))))
        (fun _ => (names.take n).foldl SpoolView.move (view spool w.state.disk)) ∧
      w'.state.holder = w.state.holder := by
  have hrun : (shipStored C spool token config).run.Leads (peer.exec env i) (w, s) fun r t =>
      ShippedStored env i C spool names n error s' w r t.1 t.2 ∧ t.1.state.holder = w.state.holder := by
    unfold shipStored
    dsimp only
    rw [join_pending, join_sent]
    refine locked_leads (s := (w, s)) (Q := ShippedStored env i C spool names n error s' w) hfaults hw ?_
      fun t hview hproper hpeer hlocked => ?_
    · rintro r x u u' hdisk hgrows ⟨hr, hx, k, hclock, hview⟩
      exact ⟨hr, hx, k, fun he => (hclock he).later (List.suffix_refl _) hgrows, hdisk ▸ hview⟩
    refine places_leads hfaults hproper fun u hu hplaced => ?_
    rw [hview] at hu
    refine (listed_leads hfaults hsorted hnames hu rfl).thenOk fun y hy => ?_
    obtain ⟨hu, hwaiting, hlisted⟩ := hy
    obtain ⟨hholder, hsame, hgrows⟩ := hplaced.trans hlisted
    rw [← show y.2 = s from hsame.trans hpeer] at hpass
    have hship := leads_grows (shipStoredEntries_leads (i := i) hfaults token config (hsorted.imp ne_of_lt) hlocal hu
      hwaiting 0 none hpass)
    refine hship.andThen (fun shipped z hz => ?_) fun e z hz => ?_
    · obtain ⟨⟨hr, hshows, hholder', hpeer'⟩, hshipped⟩ := hz
      cases error with
      | some e => cases hr
      | none =>
        obtain rfl := Except.ok.inj hr
        refine (cleanupSent_leads hfaults _ hshows).thenOk fun a ha => ?_
        obtain ⟨k, hclean, hbeside, hclock⟩ := ha
        have hbefore := hlocked.trans (hgrows.trans hshipped)
        refine .done ⟨⟨?_, hbeside.2.1.trans hpeer', k, fun _ => hclock.later hbefore (List.suffix_refl _), hclean.view⟩,
          hbeside.1.trans (hholder'.trans hholder)⟩
        rw [Nat.zero_add]
        rfl
    · obtain ⟨⟨hr, hshows, hholder', hpeer'⟩, -⟩ := hz
      cases error with
      | none => cases hr
      | some e' =>
        exact ⟨⟨congrArg Except.error (Except.error.inj hr), hpeer', 0, fun h => (by cases h), hshows.view⟩,
          hholder'.trans hholder⟩
  obtain ⟨r, t, hrun, ⟨hr, hpeer, k, hclock, hview⟩, hholder⟩ := hrun
  refine ⟨t.1, k, ?_, hclock, hview, hholder⟩
  rw [hrun, hr, ← hpeer]

end Ship

/-! Two entries, of which the second has only its metadata. -/

def twoEntries : ClientState Unit := sampleState (sampleFile "spool/pending/b/metadata.json" []
  (oneEntry.state.disk.createDirAll ["spool", "pending", "b"] 0))

/-- It acknowledges everything and counts. -/
def counting : Peer Nat := fun _ n => some (.ok ⟨201, none⟩, n + 1)

theorem twoEntries_known : twoEntries.state.disk.known =
    [["spool", "pending", "b", "metadata.json"], ["spool", "pending", "b"], ["spool", "pending", "a", "sdk-config.json"],
      ["spool", "pending", "a", "dump.bin"], ["spool", "pending", "a", "metadata.json"], [], ["spool"],
      ["spool", "pending"], ["spool", "pending", "a"]] := by
  decide +kernel

theorem twoEntries_pending (x : String) :
    x ∈ ["a", "b"] ↔ ((view ["spool"] twoEntries.state.disk).pending x).isSome = true := by
  have hview : ((view ["spool"] twoEntries.state.disk).pending x).isSome =
      (twoEntries.state.disk.dir (pendingAt ["spool"] x)).isSome := entryAt_isSome
  rw [hview]
  constructor
  · intro hx
    rcases List.mem_pair.mp hx with rfl | rfl
    all_goals decide +kernel
  · intro hx
    have hknown := twoEntries.state.disk.listed _ (.inr hx)
    rw [twoEntries_known] at hknown
    simpa [pendingAt, pendingDir, or_comm] using hknown

theorem twoEntries_workable : Workable ["spool"] twoEntries where
  free := rfl
  numbered := by
    have hone : oneEntry.state.disk.Numbered := .create_write (.create_write (.create_write nofun))
    exact Disk.Numbered.create_write (d := oneEntry.state.disk.createDirAll ["spool", "pending", "b"] 0) hone
  proper := by
    -- a file is at a path that is known
    have hcontent : ∀ q, q ∉ twoEntries.state.disk.known → twoEntries.state.disk.content q = none := by
      intro q hq
      by_contra hne
      refine hq (twoEntries.state.disk.listed q (.inl ?_))
      rw [Disk.content, Option.map_eq_none_iff] at hne
      exact Option.isSome_iff_ne_none.mpr hne
    refine ⟨fun x => hcontent _ ?_, fun x hx => ?_⟩
    · rw [twoEntries_known]
      simp [sentAt, sentDir]
    · have hx' := (twoEntries_pending x).mpr (entryAt_isSome.trans hx)
      rcases List.mem_pair.mp hx' with rfl | rfl
      · exact ⟨⟨by decide, by decide, by decide⟩, by decide +kernel⟩
      · exact ⟨⟨by decide, by decide, by decide⟩, by decide +kernel⟩

theorem twoEntries_local (x : String) : Local strictCrates twoEntries.state.disk.content (pendingAt ["spool"] x) := by
  intro bytes metadata _ hmetadata m hm
  obtain rfl : sampleMetadata [] = metadata := Except.ok.inj hmetadata
  cases hm

/-- Only the first tells where it is to go. -/
theorem shipStored_exact_two : ∃ w' : ClientState Unit,
    (shipStored strictCrates ["spool"] "t" .default).run.run (counting.exec quietEnv ()) (twoEntries, 0) =
      some (.error (.missingStoredConfig ["spool", "pending", "b"]), w', 1) ∧
    view ["spool"] w'.state.disk = (view ["spool"] twoEntries.state.disk).move "a" ∧
    w'.state.holder = twoEntries.state.holder := by
  have hfaults : ∀ n, quietEnv.faults n = none := fun _ => rfl
  have hpass : counting.pass (["a", "b"].map fun x => storedRequestAt strictCrates twoEntries.state.disk "t" .default
      (pendingAt ["spool"] x)) 0 = some ((1, some (.missingStoredConfig ["spool", "pending", "b"])), 1) := by
    decide +kernel
  obtain ⟨w', k, h⟩ := shipStored_exact (i := ()) hfaults (by decide) twoEntries_pending twoEntries_workable
    (fun x _ => twoEntries_local x) hpass
  exact ⟨w', h.1, h.2.2⟩

end Detritus.Client
