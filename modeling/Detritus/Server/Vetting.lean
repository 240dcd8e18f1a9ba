import Detritus.Files.Guard
import Detritus.Server.Confinement
import Detritus.Server.LogSteps

/-! What tasks that keep to their remit leave behind.

Every file under `by-source` and `logs` is one of a source, and holds only what some task
was allowed to put there: an index, or lines that were sent for the source. -/
namespace Detritus.Server
open Files Protocol Process

section Vetted
variable {ι : Type} (P : StoragePaths) (R : Remit ι)

/-- The trees that belong to sources. -/
def Owned (p : Path) : Prop := P.bySource <+: p ∨ P.logsDir <+: p

/-- What a file of a source may hold: an index, with whatever a longer one before it has left at the end, or lines. -/
def MayHold (p : Path) (bytes : Bytes) : Prop :=
  ∃ source : SourceKey, source.Valid ∧
    ((IsIndex P source p ∧ (bytes = [] ∨ ∃ i index, R.index i source index ∧ index <+: bytes)) ∨
    (IsLog P source p ∧ ∃ lines : List Json, bytes = lines.flatMap R.encode ∧ ∀ line ∈ lines, ∃ i, R.line i source line))

/-- What the channels hold, and what the tasks know of them. -/
structure Channels (ws : Writers) (h : List (ServerEvent ι)) : Prop where
  valid : ∀ k source, ws.sourceOf k = some source → source.Valid
  queued : ∀ k source line, ws.sourceOf k = some source → line ∈ ws.queued k → ∃ i, R.line i source line
  senders : ∀ i source k, (⟨i, .senderFor source, k⟩ : ServerEvent ι) ∈ h → ws.sourceOf k = some source
  accepted : ∀ i k source, (⟨i, .accept k, source⟩ : ServerEvent ι) ∈ h → ws.sourceOf k = some source
  received : ∀ i k line, (⟨i, .recv k, some line⟩ : ServerEvent ι) ∈ h →
    ∃ source, ws.sourceOf k = some source ∧ ∃ i, R.line i source line

/-- The state of things, with an eye on some of the paths of sources. -/
structure Vetted (G : Path → Prop) (w : ServerState ι) : Prop where
  disk : w.state.disk.Guarded G (MayHold P R) fun n p => ∃ i, OpenedAt i n p w.history
  channels : Channels R w.state.writers w.history

/-- A task acts for sources that were checked, or that it accepted from a channel. -/
def Remit.Checked : Prop :=
  ∀ i source h, R.acts i source h → source.Valid ∨ ∃ k, (⟨i, .accept k, source⟩ : ServerEvent ι) ∈ h

end Vetted

/-! ### Channels -/

namespace Writers
variable {ws : Writers}

/-- A channel as it was, or the one that was asked for. -/
theorem sourceOf_senderFor (ws : Writers) (source : SourceKey) :
    (∀ k s, ws.sourceOf k = some s → (ws.senderFor source).2.sourceOf k = some s) ∧
    (∀ k s, (ws.senderFor source).2.sourceOf k = some s → ws.sourceOf k = some s ∨ s = source) := by
  unfold senderFor
  cases hl : ws.lookup source with
  | some k' =>
    refine ⟨fun k s hk => LogSystem.sourceOf_modify k' (fun c => {c with senders := c.senders + 1}) (fun _ => rfl) k s hk,
      fun k s hk => .inl ?_⟩
    obtain ⟨c', hc', rfl⟩ := Option.map_eq_some_iff.mp hk
    obtain ⟨c, hc, rfl⟩ := get_modify hc'
    unfold sourceOf
    rw [hc]
    split <;> rfl
  | none =>
    unfold sourceOf
    refine ⟨fun k s hk => ?_, fun k s hk => ?_⟩
    · obtain ⟨c, hc, rfl⟩ := Option.map_eq_some_iff.mp hk
      rw [List.getElem?_append_left (List.getElem?_eq_some_iff.mp hc).1, hc]
      rfl
    · obtain ⟨c, hc, rfl⟩ := Option.map_eq_some_iff.mp hk
      rw [List.getElem?_append] at hc
      split at hc
      · exact .inl (by rw [hc]; rfl)
      · have := List.mem_of_getElem? hc
        rw [List.mem_singleton.mp this]
        exact .inr rfl

/-- A change in place that keeps the sources. -/
theorem sourceOf_modify_eq (k : Nat) {f : Channel → Channel} (hf : ∀ c, (f c).source = c.source) :
    Writers.sourceOf (ws.modify k f) = ws.sourceOf := by
  funext j
  unfold sourceOf
  rw [List.getElem?_modify]
  by_cases hj : k = j <;> cases ws[j]? <;> simp [hj, hf]

theorem sourceOf_drain : ws.drain.2.sourceOf = ws.sourceOf := by
  funext j
  unfold sourceOf drain
  rw [List.getElem?_map]
  cases ws[j]? with
  | none => rfl
  | some c => simp only [Option.map_some]; split <;> rfl

theorem queued_drain : ws.drain.2.queued = ws.queued := by
  funext j
  unfold queued drain
  rw [List.getElem?_map]
  cases ws[j]? with
  | none => rfl
  | some c => simp only [Option.map_some, Option.elim_some]; split <;> rfl

end Writers

section Steps
variable {ι : Type} {P : StoragePaths} {R : Remit ι} {ws ws' : Writers} {h : List (ServerEvent ι)} {e : ServerEvent ι}
  {source : SourceKey}

theorem Channels.step (C : Channels R ws h) (hs : ∀ k s, ws.sourceOf k = some s → ws'.sourceOf k = some s)
    (hv : ∀ k s, ws'.sourceOf k = some s → s.Valid)
    (hq : ∀ k s line, ws'.sourceOf k = some s → line ∈ ws'.queued k → ∃ i, R.line i s line)
    (hsender : ∀ i s k, e = ⟨i, .senderFor s, k⟩ → ws'.sourceOf k = some s)
    (haccept : ∀ i k s, e = ⟨i, .accept k, s⟩ → ws'.sourceOf k = some s)
    (hrecv : ∀ i k line, e = ⟨i, .recv k, some line⟩ → ∃ s, ws'.sourceOf k = some s ∧ ∃ i, R.line i s line) :
    Channels R ws' (e :: h) := by
  refine ⟨hv, hq, fun i s k hm => ?_, fun i k s hm => ?_, fun i k line hm => ?_⟩
  · rcases List.mem_cons.mp hm with he | hm
    · exact hsender i s k he.symm
    · exact hs k s (C.senders i s k hm)
  · rcases List.mem_cons.mp hm with he | hm
    · exact haccept i k s he.symm
    · exact hs k s (C.accepted i k s hm)
  · rcases List.mem_cons.mp hm with he | hm
    · exact hrecv i k line he.symm
    · obtain ⟨s, hk, hline⟩ := C.received i k line hm
      exact ⟨s, hs k s hk, hline⟩

/-- A call that leaves the channels alone, and tells nothing of them. -/
theorem Channels.quiet (C : Channels R ws h) (hs : ws'.sourceOf = ws.sourceOf) (hq : ws'.queued = ws.queued)
    (hsender : ∀ i s k, e ≠ ⟨i, .senderFor s, k⟩) (haccept : ∀ i k s, e ≠ ⟨i, .accept k, s⟩)
    (hrecv : ∀ i k line, e ≠ ⟨i, .recv k, some line⟩) : Channels R ws' (e :: h) := by
  refine C.step (fun k s => by rw [hs]; exact id) (by rw [hs]; exact C.valid) (by rw [hs, hq]; exact C.queued) ?_ ?_ ?_
  · exact fun i s k he => absurd he (hsender i s k)
  · exact fun i k s he => absurd he (haccept i k s)
  · exact fun i k line he => absurd he (hrecv i k line)

theorem Channels.senderFor (C : Channels R ws h) (i : ι) (hv : source.Valid) :
    Channels R (ws.senderFor source).2 (⟨i, .senderFor source, (ws.senderFor source).1⟩ :: h) := by
  obtain ⟨hold, hnew⟩ := Writers.sourceOf_senderFor ws source
  have hqueued : (ws.senderFor source).2.queued = ws.queued := by
    obtain ⟨_, _, _, heq, -, -, -, hq⟩ := ws.senderFor_spec source
    rw [heq]
    exact hq
  refine C.step hold (fun k s hk => ?_) (fun k s line hk hl => ?_) (fun _ s k he => ?_) ?_ ?_
  · rcases hnew k s hk with hk | rfl
    · exact C.valid k s hk
    · exact hv
  · rw [hqueued] at hl
    -- a channel with lines in its queue was there before
    have hlt : ∃ c, ws[k]? = some c := by
      cases hc : ws[k]? with
      | none => simp [Writers.queued, hc] at hl
      | some c => exact ⟨c, rfl⟩
    obtain ⟨c, hc⟩ := hlt
    have hsource : ws.sourceOf k = some c.source := by simp [Writers.sourceOf, hc]
    have := (hold k _ hsource).symm.trans hk
    obtain rfl := Option.some.inj this
    exact C.queued k _ line hsource hl
  · obtain ⟨-, hop, hans⟩ := Event.mk.inj he
    obtain rfl := ServerOp.senderFor.inj hop
    obtain rfl := eq_of_heq hans
    obtain ⟨c, hc, hs⟩ := Writers.senderFor_source ws source
    simp [Writers.sourceOf, hc, hs]
  · exact fun _ _ _ he => by cases he
  · exact fun _ _ _ he => by cases he

theorem Channels.trySend (C : Channels R ws h) (i : ι) {k : Nat} {line : Json}
    (hsender : (⟨i, .senderFor source, k⟩ : ServerEvent ι) ∈ h) (hline : R.line i source line) :
    Channels R (ws.enqueue k [line]) (⟨i, .trySend k line, .ok ()⟩ :: h) := by
  have hk := C.senders i source k hsender
  obtain ⟨c, hc, -⟩ := Option.map_eq_some_iff.mp hk
  have hs : (ws.enqueue k [line]).sourceOf = ws.sourceOf := Writers.sourceOf_modify_eq k fun _ => rfl
  refine C.step (fun k s => by rw [hs]; exact id) (by rw [hs]; exact C.valid) (fun j s l hj hl => ?_) ?_ ?_ ?_
  · rw [hs] at hj
    rw [Writers.queued_enqueue _ hc] at hl
    by_cases hjk : j = k
    · subst hjk
      obtain rfl := Option.some.inj (hk.symm.trans hj)
      rw [Function.update_self, List.mem_append, List.mem_singleton] at hl
      rcases hl with hl | rfl
      · exact C.queued j source l hj hl
      · exact ⟨i, hline⟩
    · rw [Function.update_of_ne hjk] at hl
      exact C.queued j s l hj hl
  · exact fun _ _ _ he => by cases he
  · exact fun _ _ _ he => by cases he
  · exact fun _ _ _ he => by cases he

theorem Channels.recv (C : Channels R ws h) (i : ι) {k : Nat} {line : Json} {rest : List Json} {c : Channel}
    (hc : ws[k]? = some c) (hq : c.queue = line :: rest) :
    Channels R (ws.modify k fun c => {c with queue := rest}) (⟨i, .recv k, some line⟩ :: h) := by
  have hs : Writers.sourceOf (ws.modify k fun c => {c with queue := rest}) = ws.sourceOf :=
    Writers.sourceOf_modify_eq k fun _ => rfl
  have hk : ws.sourceOf k = some c.source := by simp [Writers.sourceOf, hc]
  have hmem : ∀ l ∈ line :: rest, ∃ i, R.line i c.source l := fun l hl =>
    C.queued k c.source l hk (by simpa [Writers.queued, hc, hq] using hl)
  refine C.step (fun k s => by rw [hs]; exact id) (by rw [hs]; exact C.valid) (fun j s l hj hl => ?_) ?_ ?_
    fun _ k' l he => ?_
  · rw [hs] at hj
    by_cases hjk : k = j
    · subst hjk
      obtain rfl := Option.some.inj (hk.symm.trans hj)
      exact hmem l (List.mem_cons_of_mem _ (by simpa [Writers.queued, hc] using hl))
    · exact C.queued j s l hj (by simpa [Writers.queued, hjk] using hl)
  · exact fun _ _ _ he => by cases he
  · exact fun _ _ _ he => by cases he
  · obtain ⟨-, hop, hans⟩ := Event.mk.inj he
    obtain rfl := ServerOp.recv.inj hop
    obtain rfl := Option.some.inj (eq_of_heq hans)
    rw [hs]
    exact ⟨c.source, hk, hmem line (.head _)⟩

variable {env : Env} {n : Nat} {w : ServerState ι} {v : World} {i : ι} {p : Path} {op : ServerOp} {x : op.Answer}

/-- What a task acts for has been checked. -/
theorem Channels.checked (C : Channels R ws h) (hR : R.Checked) (hs : R.acts i source h) : source.Valid := by
  rcases hR i source _ hs with hv | ⟨k, hk⟩
  · exact hv
  · exact C.valid k source (C.accepted i k source hk)

theorem Channels.exec (C : Channels R w.state.writers w.history) (hR : R.Checked) (hm : Reaches P R i op w.history)
    (hx : World.exec env n op w.state = some (x, v)) : Channels R v.writers (⟨i, op, x⟩ :: w.history) := by
  cases op with
  | senderFor source =>
    obtain ⟨rfl, rfl⟩ := result_eq hx
    exact C.senderFor i (C.checked hR hm)
  | trySend k line =>
    obtain ⟨source, hsender, hline⟩ := hm
    obtain ⟨⟨r, ws⟩, hsend, hr⟩ := Option.map_eq_some_iff.mp hx
    obtain ⟨rfl, rfl⟩ := Prod.mk.inj hr
    obtain ⟨c, hc, hsend⟩ := Option.map_eq_some_iff.mp hsend
    have hquiet (e : SendError) : Channels R w.state.writers (⟨i, .trySend k line, .error e⟩ :: w.history) :=
      C.quiet rfl rfl (fun _ _ _ he => by cases he) (fun _ _ _ he => by cases he) fun _ _ _ he => by cases he
    split_ifs at hsend
    · obtain ⟨rfl, rfl⟩ := Prod.mk.inj hsend
      exact hquiet _
    · obtain ⟨rfl, rfl⟩ := Prod.mk.inj hsend
      exact hquiet _
    · obtain ⟨rfl, rfl⟩ := Prod.mk.inj hsend
      exact C.trySend i hsender hline
  | recv k =>
    obtain ⟨⟨r, ws⟩, hrecv, hr⟩ := Option.map_eq_some_iff.mp hx
    obtain ⟨rfl, rfl⟩ := Prod.mk.inj hr
    unfold Writers.recv at hrecv
    split at hrecv
    · cases hrecv
    · next c hc =>
      split at hrecv
      · next line rest hq =>
        obtain ⟨rfl, rfl⟩ := result_eq hrecv
        exact C.recv i hc hq
      · split at hrecv
        · obtain ⟨rfl, rfl⟩ := result_eq hrecv
          refine C.quiet rfl rfl (fun _ _ _ he => by cases he) (fun _ _ _ he => by cases he) fun _ _ _ he => ?_
          obtain ⟨-, hop, hans⟩ := Event.mk.inj he
          obtain rfl := ServerOp.recv.inj hop
          cases eq_of_heq hans
        · cases hrecv
  | accept k =>
    obtain ⟨c, hc, hr⟩ := Option.map_eq_some_iff.mp hx
    obtain ⟨rfl, rfl⟩ := Prod.mk.inj hr
    refine C.step (fun _ _ => id) C.valid C.queued (fun _ _ _ he => by cases he) (fun _ k' s he => ?_)
      fun _ _ _ he => by cases he
    obtain ⟨-, hop, hans⟩ := Event.mk.inj he
    obtain rfl := ServerOp.accept.inj hop
    obtain rfl := eq_of_heq hans
    simp [Writers.sourceOf, hc]
  | dropSender k | finish k =>
    obtain rfl := (result_eq hx).2
    refine C.quiet (Writers.sourceOf_modify_eq k fun _ => rfl) ?_ (fun _ _ _ he => by cases he)
      (fun _ _ _ he => by cases he) fun _ _ _ he => by cases he
    funext j
    exact Writers.queued_modify _ k j fun _ => rfl
  | drain =>
    obtain rfl := (result_eq hx).2
    exact C.quiet Writers.sourceOf_drain Writers.queued_drain (fun _ _ _ he => by cases he)
      (fun _ _ _ he => by cases he) fun _ _ _ he => by cases he
  | file op =>
    obtain ⟨-, rfl⟩ := World.exec_file.mp hx
    exact C.quiet rfl rfl (fun _ _ _ he => by cases he) (fun _ _ _ he => by cases he) fun _ _ _ he => by cases he
  | newUuid | capacity k =>
    obtain ⟨_, -, hr⟩ := Option.map_eq_some_iff.mp hx
    obtain rfl := (Prod.mk.inj hr).2
    exact C.quiet rfl rfl (fun _ _ _ he => by cases he) (fun _ _ _ he => by cases he) fun _ _ _ he => by cases he
  | join k =>
    have hv : v = w.state := by
      simp only [World.exec] at hx
      split at hx
      · split at hx
        · exact (result_eq hx).2.symm
        · cases hx
      · cases hx
    rw [hv]
    exact C.quiet rfl rfl (fun _ _ _ he => by cases he) (fun _ _ _ he => by cases he) fun _ _ _ he => by cases he
  | panic | unended => exact x.elim
  | _ =>
    obtain rfl := (result_eq hx).2
    exact C.quiet rfl rfl (fun _ _ _ he => by cases he) (fun _ _ _ he => by cases he) fun _ _ _ he => by cases he

/-! ### Files -/

theorem temp_not_owned (hp : IsTemp P p) : ¬ Owned P p := by
  obtain ⟨u, rfl⟩ := hp
  exact not_or.mpr ⟨P.bySource_not_tempPath u, P.logsDir_not_tempPath u⟩

theorem blob_not_owned (hp : IsBlob P p) : ¬ Owned P p := by
  obtain ⟨d, rfl⟩ := hp
  exact not_or.mpr ⟨P.bySource_not_blobPath d, fun hl => P.regions_apart.2.1 ⟨hl, P.byHash_blobPath d⟩⟩

/-- A handle that is known after a call was known before, or is what the call returned. -/
theorem openedAt_cons {n : Nat} {q : Path} (ho : ∃ j, OpenedAt j n q (e :: h)) :
    (∃ j, OpenedAt j n q h) ∨ ∃ j, ∃ hd : Handle, hd.inode = n ∧
      (e = ⟨j, .file (.create q), (.ok hd : Except IoError Handle)⟩ ∨
        e = ⟨j, .file (.openAppend q), (.ok hd : Except IoError Handle)⟩) := by
  obtain ⟨j, hd, hn, hm | hm⟩ := ho
  · rcases List.mem_cons.mp hm with rfl | hm
    · exact .inr ⟨j, hd, hn, .inl rfl⟩
    · exact .inl ⟨j, hd, hn, .inl hm⟩
  · rcases List.mem_cons.mp hm with rfl | hm
    · exact .inr ⟨j, hd, hn, .inr rfl⟩
    · exact .inl ⟨j, hd, hn, .inr hm⟩

/-- A new index is empty. -/
theorem mayHold_index (hv : source.Valid) (hi : IsIndex P source p) :
    MayHold P R p [] := ⟨source, hv, .inl ⟨hi, .inl rfl⟩⟩

theorem mayHold_log (hv : source.Valid) (hl : IsLog P source p) :
    MayHold P R p [] := ⟨source, hv, .inr ⟨hl, [], rfl, by simp⟩⟩

theorem index_not_log {s t : SourceKey} (hs : s.Valid) (ht : t.Valid) (hi : IsIndex P s p) (hl : IsLog P t p) :
    False := by
  obtain ⟨time, d, hi⟩ := hi
  obtain ⟨date, hl⟩ := hl
  refine (P.regions_apart (p := p)).2.2 ⟨?_, ?_⟩
  · rw [hl]
    exact P.logsDir_logFile ht date
  · rw [hi]
    exact P.bySource_indexPath hs time d

/-- What a task writes is such as the path may hold. -/
theorem Channels.writes (C : Channels R ws h) (hR : R.Checked) {hd : Handle} {bytes old : Bytes}
    (hw : Writes P R i p hd bytes h) (hp : Owned P p) (hold : MayHold P R p old) :
    MayHold P R p (overlay old (if hd.append then old.length else hd.offset) bytes) := by
  rcases hw with ht | ⟨source, hs, hi, hoffset, happend, hindex⟩ | ⟨source, k, line, hl, happend, rfl, hacc, hrecv⟩
  · exact absurd hp (temp_not_owned ht)
  · refine ⟨source, C.checked hR hs, .inl ⟨hi, .inr ⟨i, bytes, hindex, ?_⟩⟩⟩
    rw [happend, if_neg Bool.false_ne_true, hoffset, overlay_start]
    exact List.prefix_append ..
  · have hk := C.accepted i k source hacc
    have hvalid := C.valid k source hk
    obtain ⟨source', hk', hline⟩ := C.received i k line hrecv
    obtain rfl := Option.some.inj (hk.symm.trans hk')
    obtain ⟨s, hs, ⟨hi, -⟩ | ⟨hl', lines, rfl, hlines⟩⟩ := hold
    · exact (index_not_log hs hvalid hi hl).elim
    obtain ⟨date, hdate⟩ := hl
    obtain ⟨date', hdate'⟩ := hl'
    obtain ⟨rfl, -⟩ := P.logFile_injective hvalid hs (hdate.symm.trans hdate')
    refine ⟨source, hvalid, .inr ⟨⟨date, hdate⟩, lines ++ [line], ?_, ?_⟩⟩
    · rw [happend, if_pos rfl, overlay_end, List.flatMap_append, List.flatMap_singleton]
    · intro l hl
      rcases List.mem_append.mp hl with hl | hl
      · exact hlines l hl
      · rw [List.mem_singleton.mp hl]
        exact hline

section Watched
variable {G : Path → Prop} (hG : ∀ p, G p → Owned P p)
include hG

theorem Vetted.disk_step (V : Vetted P R G w) (hR : R.Checked) (hm : Reaches P R i op w.history)
    (hx : World.exec env n op w.state = some (x, v)) :
    v.disk.Guarded G (MayHold P R) fun n p => ∃ j, OpenedAt j n p (⟨i, op, x⟩ :: w.history) := by
  have D := V.disk
  -- a call that opens no file
  have hquiet (hop : ∀ q, op ≠ .file (.create q) ∧ op ≠ .file (.openAppend q)) (m : Nat) (q : Path)
      (ho : ∃ j, OpenedAt j m q (⟨i, op, x⟩ :: w.history)) : ∃ j, OpenedAt j m q w.history := by
    rcases openedAt_cons ho with ho | ⟨j, hd, -, he | he⟩
    · exact ho
    · exact absurd (Event.mk.inj he).2.1 (hop q).1
    · exact absurd (Event.mk.inj he).2.1 (hop q).2
  by_cases hfile : ∃ fop, op = .file fop
  swap
  · rw [World.exec_disk (fun o ho => hfile ⟨o, ho⟩) hx]
    refine D.mono (hquiet fun q => ⟨?_, ?_⟩) <;> exact fun he => hfile ⟨_, he⟩
  obtain ⟨fop, rfl⟩ := hfile
  obtain ⟨hans, rfl⟩ := World.exec_file.mp hx
  cases fop with
  | create p =>
    refine (D.create fun hp => ?_).mono fun m q ho => ?_
    · rcases hm with ht | ⟨source, hs, hi⟩
      · exact absurd (hG p hp) (temp_not_owned ht)
      · exact mayHold_index (V.channels.checked hR hs) hi
    · rcases openedAt_cons ho with ho | ⟨j, hd, hn, he | he⟩
      · exact .inl ho
      · obtain ⟨-, hop, hxd⟩ := Event.mk.inj he
        obtain rfl := FileOp.create.inj (ServerOp.file.inj hop)
        rw [← hn, ← Except.ok.inj (hans.symm.trans (eq_of_heq hxd))]
        exact .inr ⟨rfl, rfl⟩
      · cases he
  | openAppend p =>
    refine (D.openAppend fun _ => ?_).mono fun m q ho => ?_
    · obtain ⟨source, hs, hl⟩ := hm
      exact mayHold_log (V.channels.checked hR hs) hl
    · rcases openedAt_cons ho with ho | ⟨j, hd, hn, he | he⟩
      · exact .inl ho
      · cases he
      · obtain ⟨-, hop, hxd⟩ := Event.mk.inj he
        obtain rfl := FileOp.openAppend.inj (ServerOp.file.inj hop)
        rw [← hn, ← Except.ok.inj (hans.symm.trans (eq_of_heq hxd))]
        exact .inr ⟨rfl, rfl⟩
  | write hd bytes =>
    obtain ⟨p, ho, hw⟩ := hm
    refine Disk.Guarded.mono (D.write ⟨i, ho⟩ fun old hp hold => V.channels.writes hR hw (hG p hp) hold)
      (hquiet fun q => ?_)
    exact ⟨by simp, by simp⟩
  | hardLink src dst =>
    refine (D.hardLink (fun hs => temp_not_owned hm.1 (hG _ hs)) fun hd => blob_not_owned hm.2 (hG _ hd)).mono
      (hquiet fun q => ?_)
    exact ⟨by simp, by simp⟩
  | removeFile p =>
    refine (D.removeFile fun hp => temp_not_owned hm (hG _ hp)).mono (hquiet fun q => ?_)
    exact ⟨by simp, by simp⟩
  | removeDirAll p | renameDir src dst | metadata p | readDir p => exact hm.elim
  | createDirAll p | sync hd | read p | tryExists p =>
    refine (D.same (FileOp.exec_quiet rfl ..)).mono (hquiet fun q => ?_)
    exact ⟨by simp, by simp⟩

/-- **What tasks do within their remit leaves nothing that was not vetted.** -/
theorem Vetted.step (V : Vetted P R G w) (hR : R.Checked) {w' : ServerState ι} (hm : Reaches P R i op w.history)
    (hx : execAs env i op w = some (x, w')) : Vetted P R G w' := by
  obtain ⟨hexec, hh⟩ := record_eq_some.mp hx
  refine ⟨?_, ?_⟩
  · rw [hh]
    exact V.disk_step hG hR hm hexec
  · rw [hh]
    exact V.channels.exec hR hm hexec

end Watched

end Steps

end Detritus.Server
