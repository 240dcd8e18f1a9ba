import Detritus.Server.LogSystem

/-! Legal calls keep the invariant, and leave the other tasks what they rely on. -/
namespace Detritus.Server
open Files Protocol Process
variable {k : Nat} {source : SourceKey} {c : Channel}

/-! ### Channels after a call -/

theorem Writers.get_modify {ws : Writers} {k j : Nat} {f : Channel → Channel} {c' : Channel}
    (h : (ws.modify k f)[j]? = some c') : ∃ c, ws[j]? = some c ∧ c' = if k = j then f c else c := by
  rw [List.getElem?_modify] at h
  obtain ⟨c, hc, rfl⟩ := Option.map_eq_some_iff.mp h
  refine ⟨c, hc, ?_⟩
  by_cases hk : k = j <;> simp [hk]

section Parts
variable {κ : Type} {ws ws' : Writers} {h h' : List (LogEvent κ)}

theorem Queues.mono (H : Queues ws h) (hq : ws'.queued = ws.queued) (hl : ws.length ≤ ws'.length)
    (hs : sent h' = sent h) (hr : ∀ k, received k h' = received k h) : Queues ws' h' where
  fifo k := by rw [hs, hr, hq]; exact H.fifo k
  known x hx := (H.known x (hs ▸ hx)).imp (Nat.lt_of_lt_of_le · hl) id

/-- A line joins the queue of its channel. -/
theorem Queues.trySend (H : Queues ws h) (r : κ) (line : Json) (hc : ws[k]? = some c) :
    Queues (ws.enqueue k [line]) (⟨.handler r, .trySend k line, .ok ()⟩ :: h) where
  fifo j := by
    have hsent : sent (⟨.handler r, .trySend k line, .ok ()⟩ :: h) = sent h ++ [⟨.handler r, k, line⟩] := noted_cons ..
    have hreceived : received j (⟨.handler r, .trySend k line, .ok ()⟩ :: h) = received j h := noted_cons_none _ rfl
    rw [hsent, hreceived, Writers.queued_enqueue _ hc, List.filter_append, List.map_append, H.fifo j]
    by_cases hj : j = k
    · subst hj
      simp
    · simp [Function.update_of_ne hj, Ne.symm hj]
  known x hx := by
    have hsent : sent (⟨.handler r, .trySend k line, .ok ()⟩ :: h) = sent h ++ [⟨.handler r, k, line⟩] := noted_cons ..
    rw [hsent, List.mem_append, List.mem_singleton] at hx
    rw [Writers.enqueue, List.length_modify]
    rcases hx with hx | rfl
    · exact H.known x hx
    · exact ⟨(List.getElem?_eq_some_iff.mp hc).1, r, rfl⟩

/-- A writer takes the first line of its queue. -/
theorem Queues.recv (H : Queues ws h) {line : Json} {rest : List Json} (hc : ws[k]? = some c)
    (hq : c.queue = line :: rest) :
    Queues (ws.modify k fun c => {c with queue := rest}) (⟨.writer k, .recv k, some line⟩ :: h) where
  fifo j := by
    have hsent : sent (⟨.writer k, .recv k, some line⟩ :: h) = sent h := noted_cons_none _ rfl
    rw [hsent, H.fifo j]
    by_cases hj : j = k
    · subst hj
      have hreceived : received j (⟨.writer j, .recv j, some line⟩ :: h) = received j h ++ [line] :=
        (noted_cons ..).trans (by simp [takes, received])
      simp [hreceived, Writers.queued, hc, hq]
    · have hreceived : received j (⟨.writer k, .recv k, some line⟩ :: h) = received j h :=
        noted_cons_none _ (by simp [takes, Ne.symm hj])
      rw [hreceived]
      simp [Writers.queued, Ne.symm hj]
  known x hx := by
    have hsent : sent (⟨.writer k, .recv k, some line⟩ :: h) = sent h := noted_cons_none _ rfl
    rw [List.length_modify]
    exact H.known x (hsent ▸ hx)

theorem Names.mono (H : Names ws h) (hh : h ⊆ h') (hd : Drained h' → Drained h)
    (hw : ∀ (k : Nat) (c' : Channel), ws'[k]? = some c' →
      ∃ c, ws[k]? = some c ∧ c'.source = c.source ∧ c'.listed = c.listed) : Names ws' h' where
  distinct k k' c c' hc hc' hs := by
    obtain ⟨b, hb, hbs, -⟩ := hw k c hc
    obtain ⟨b', hb', hbs', -⟩ := hw k' c' hc'
    exact H.distinct k k' b b' hb hb' (hbs ▸ hbs' ▸ hs)
  valid k c hc := by
    obtain ⟨b, hb, hs, -⟩ := hw k c hc
    exact hs ▸ H.valid k b hb
  listed hn k c hc := by
    obtain ⟨b, hb, -, hl⟩ := hw k c hc
    exact hl ▸ H.listed (fun hd' => hn (hd'.imp fun _ hm => hh hm)) k b hb
  replied hd' j := (H.replied (hd hd') j).imp fun _ hm => hh hm

/-- A source that is not in the map has no channel. -/
theorem Names.unlisted (H : Names ws h) (hn : ¬ Drained h) (hl : ws.lookup source = none) (hc : ws[k]? = some c) :
    c.source ≠ source := by
  intro hs
  have hall := List.findIdx?_eq_none_iff.mp hl c (List.mem_of_getElem? hc)
  simp [H.listed hn k c hc, hs] at hall

theorem Names.senderFor (H : Names ws h) (hn : ¬ Drained h) (i : LogTask κ) (hv : source.Valid)
    (hl : ws.lookup source = none) :
    Names (ws ++ [⟨source, [], 2, true, false⟩]) (⟨i, .senderFor source, ws.length⟩ :: h) := by
  have hget : ∀ (k : Nat) (c : Channel), (ws ++ [⟨source, [], 2, true, false⟩])[k]? = some c →
      ws[k]? = some c ∨ k = ws.length ∧ c = ⟨source, [], 2, true, false⟩ := by
    intro k c hc
    rw [List.getElem?_append] at hc
    split at hc
    · exact .inl hc
    · obtain ⟨hk, hc⟩ := List.getElem?_eq_some_iff.mp hc
      simp only [List.length_singleton] at hk
      exact .inr ⟨by omega, by simpa using hc.symm⟩
  constructor
  · intro k k' c c' hc hc' hs
    rcases hget k c hc with hc | ⟨rfl, rfl⟩ <;> rcases hget k' c' hc' with hc' | ⟨rfl, rfl⟩
    · exact H.distinct k k' c c' hc hc' hs
    · exact absurd hs (H.unlisted hn hl hc)
    · exact absurd hs.symm (H.unlisted hn hl hc')
    · rfl
  · intro k c hc
    rcases hget k c hc with hc | ⟨-, rfl⟩
    · exact H.valid k c hc
    · exact hv
  · intro _ k c hc
    rcases hget k c hc with hc | ⟨-, rfl⟩
    · exact H.listed hn k c hc
    · rfl
  · rintro ⟨channels, hm⟩
    have : Drained h := ⟨channels, by simpa using hm⟩
    exact absurd this hn

theorem Writers.get_drain {c' : Channel} (hc : ws.drain.2[k]? = some c') : ∃ c, ws[k]? = some c ∧
    c' = if c.listed then {c with listed := false, senders := c.senders - 1} else c := by
  unfold Writers.drain at hc
  rw [List.getElem?_map] at hc
  obtain ⟨c, hget, rfl⟩ := Option.map_eq_some_iff.mp hc
  exact ⟨c, hget, rfl⟩

theorem Names.drain (H : Names ws h) (channels : List Nat) (hr : ∀ j, Replied j h) :
    Names ws.drain.2 (⟨.shutdown, .drain, channels⟩ :: h) where
  distinct k k' c c' hc hc' hs := by
    obtain ⟨b, hb, rfl⟩ := Writers.get_drain hc
    obtain ⟨b', hb', rfl⟩ := Writers.get_drain hc'
    refine H.distinct k k' b b' hb hb' ?_
    split_ifs at hs <;> exact hs
  valid k c hc := by
    obtain ⟨b, hb, rfl⟩ := Writers.get_drain hc
    split_ifs <;> exact H.valid k b hb
  listed hn := absurd ⟨channels, List.mem_cons_self⟩ hn
  replied _ j := (hr j).imp fun _ hm => List.mem_cons_of_mem _ hm

/-- Counts that a call leaves alone. -/
theorem count_same {e : LogEvent κ} (ho : ∀ k, opens k e = false) (hd : ∀ k, drops k e = false)
    (h : List (LogEvent κ)) (k : Nat) :
    (e :: h).countP (opens k) = h.countP (opens k) ∧ (e :: h).countP (drops k) = h.countP (drops k) :=
  ⟨List.countP_cons_of_neg (by simp [ho]), List.countP_cons_of_neg (by simp [hd])⟩

section Counts
variable [DecidableEq κ]

theorem Counts.mono (H : Counts ws h) {e : LogEvent κ} (ho : ∀ k, opens k e = false) (hd : ∀ k, drops k e = false)
    (hl : ws.length ≤ ws'.length) (hw : ∀ (k : Nat) (c' : Channel), ws'[k]? = some c' →
      ∃ c, ws[k]? = some c ∧ c'.senders = c.senders ∧ c'.listed = c.listed) : Counts ws' (e :: h) where
  senders k c' hc' := by
    obtain ⟨c, hc, hs, hl⟩ := hw k c' hc'
    obtain ⟨hopens, hdrops⟩ := count_same ho hd h k
    rw [hs, hl, hopens, hdrops]
    exact H.senders k c hc
  unopened k hk := by
    obtain ⟨hopens, hdrops⟩ := count_same ho hd h k
    rw [hopens, hdrops]
    exact H.unopened k (hl.trans hk)
  held i k := by
    simp only [countBy_cons, ho, hd]
    simpa using H.held i k

/-- Where a task holds a sender, there is one. -/
theorem Counts.pos (H : Counts ws h) {i : LogTask κ} (hc : ws[k]? = some c) (hh : LogSystem.Holding i k h) :
    0 < c.senders := by
  have := H.senders k c hc
  have := countP_lt (H.held · k) hh
  omega

/-- The map holds a sender of what is in it. -/
theorem Counts.pos_of_listed (H : Counts ws h) (hc : ws[k]? = some c) (hl : c.listed = true) : 0 < c.senders := by
  have hs := H.senders k c hc
  have := countP_le (H.held · k)
  rw [hl] at hs
  simp only [if_true] at hs
  omega

theorem Counts.senderFor_old (H : Counts ws h) (i : LogTask κ) (source : SourceKey) (k : Nat) (hk : k < ws.length) :
    Counts (ws.modify k fun c => {c with senders := c.senders + 1}) (⟨i, .senderFor source, k⟩ :: h) where
  senders j c' hc' := by
    obtain ⟨c, hc, rfl⟩ := Writers.get_modify hc'
    have hs := H.senders j c hc
    rw [List.countP_cons_of_neg (p := drops j) (by simp [drops]), List.countP_cons]
    by_cases hj : k = j
    · simp only [hj, opens, if_true, decide_true]
      omega
    · simp only [hj, opens, if_false, decide_false]
      simpa using hs
  unopened j hj := by
    rw [List.length_modify] at hj
    have : k ≠ j := by omega
    rw [List.countP_cons_of_neg (by simp [opens, this]), List.countP_cons_of_neg (by simp [drops])]
    exact H.unopened j hj
  held i' j := by
    simp only [countBy_cons, drops]
    have := H.held i' j
    simp
    omega

/-- A new channel has two senders: the list and the one handed out. -/
theorem Counts.senderFor_new (H : Counts ws h) (i : LogTask κ) (source : SourceKey) :
    Counts (ws ++ [⟨source, [], 2, true, false⟩]) (⟨i, .senderFor source, ws.length⟩ :: h) where
  senders j c' hc' := by
    rw [List.countP_cons_of_neg (p := drops j) (by simp [drops]), List.countP_cons]
    rw [List.getElem?_append] at hc'
    split at hc'
    · next hj =>
      have : ws.length ≠ j := by omega
      simpa [opens, this] using H.senders j c' hc'
    · next hj =>
      obtain ⟨hk, hc⟩ := List.getElem?_eq_some_iff.mp hc'
      simp only [List.length_singleton] at hk
      obtain ⟨ho, hd⟩ := H.unopened j (by omega)
      obtain rfl : j = ws.length := by omega
      simp only [Nat.sub_self, List.getElem_cons_zero] at hc
      subst hc
      simp [opens, ho, hd]
  unopened j hj := by
    rw [List.length_append, List.length_singleton] at hj
    have : ws.length ≠ j := by omega
    rw [List.countP_cons_of_neg (by simp [opens, this]), List.countP_cons_of_neg (by simp [drops])]
    exact H.unopened j (by omega)
  held i' j := by
    simp only [countBy_cons, drops]
    have := H.held i' j
    simp
    omega

theorem Counts.dropSender (H : Counts ws h) {i : LogTask κ} (hh : LogSystem.Holding i k h) :
    Counts (ws.dropSender k) (⟨i, .dropSender k, ()⟩ :: h) where
  senders j c' hc' := by
    obtain ⟨c, hc, rfl⟩ := Writers.get_modify hc'
    have hs := H.senders j c hc
    rw [List.countP_cons_of_neg (p := opens j) (by simp [opens]), List.countP_cons]
    by_cases hj : k = j
    · subst hj
      have := H.pos hc hh
      simp only [drops, if_true, decide_true]
      omega
    · simpa [hj, drops] using hs
  unopened j hj := by
    rw [Writers.dropSender, List.length_modify] at hj
    obtain ⟨ho, hd⟩ := H.unopened j hj
    have hk : k ≠ j := by
      rintro rfl
      have := countP_lt (H.held · k) hh
      omega
    rw [List.countP_cons_of_neg (by simp [opens]), List.countP_cons_of_neg (by simp [drops, hk])]
    exact ⟨ho, hd⟩
  held i' j := by
    simp only [countBy_cons, opens, drops]
    by_cases hj : i = i' ∧ k = j
    · obtain ⟨rfl, rfl⟩ := hj
      unfold LogSystem.Holding at hh
      simp
      omega
    · have := H.held i' j
      simp [hj]
      omega

theorem Counts.drain (H : Counts ws h) (i : LogTask κ) (channels : List Nat) :
    Counts ws.drain.2 (⟨i, .drain, channels⟩ :: h) where
  senders j c' hc' := by
    obtain ⟨c, hc, rfl⟩ := Writers.get_drain hc'
    have hs := H.senders j c hc
    obtain ⟨hopens, hdrops⟩ := count_same (e := ⟨i, .drain, channels⟩) (fun _ => rfl) (fun _ => rfl) h j
    rw [hopens, hdrops]
    by_cases hl : c.listed = true
    · have := H.pos_of_listed hc hl
      simp only [hl, if_true, Bool.false_eq_true, if_false] at hs ⊢
      omega
    · simpa [hl] using hs
  unopened j hj := by
    obtain ⟨hopens, hdrops⟩ := count_same (e := ⟨i, .drain, channels⟩) (fun _ => rfl) (fun _ => rfl) h j
    rw [hopens, hdrops]
    exact H.unopened j (by simpa [Writers.drain] using hj)
  held i' j := by
    simpa [countBy_cons, opens, drops] using H.held i' j

end Counts

end Parts

/-! ### Files after a call -/

namespace LogSystem
variable {κ : Type} {Y : LogSystem κ} {ws ws' : Writers} {d : Disk} {date : NaiveDate}

theorem LogFiles.mono (H : Y.LogFiles ws d) (hw : ∀ k s, ws.sourceOf k = some s → ws'.sourceOf k = some s)
    {d' : Disk} (hd : d.SameFiles d') : Y.LogFiles ws' d' where
  below p n hp := by
    rw [hd.next]
    exact H.below p n (hd.file ▸ hp)
  injective s date q n hp hq := H.injective s date q n (hd.file ▸ hp) (hd.file ▸ hq)
  logs s date n hv hp := by
    obtain ⟨k, hk⟩ := H.logs s date n hv (hd.file ▸ hp)
    exact ⟨k, hw k s hk⟩

theorem LogFiles.openAppend (H : Y.LogFiles ws d) (hvalid : source.Valid) (hk : ws.sourceOf k = some source)
    (now : Time) : Y.LogFiles ws (d.openAppend (Y.storage.logFile source date) now).2 := by
  unfold Disk.openAppend
  cases hp : d.file (Y.storage.logFile source date) with
  | some n => exact H
  | none =>
    have hfile : ∀ q n, (d.fresh (Y.storage.logFile source date) now).file q = some n →
        q = Y.storage.logFile source date ∧ n = d.next ∨ d.file q = some n := by
      intro q n hq
      rw [Disk.fresh_file] at hq
      by_cases he : q = Y.storage.logFile source date
      · subst he
        rw [Function.update_self] at hq
        exact .inl ⟨rfl, (Option.some.inj hq).symm⟩
      · rw [Function.update_of_ne he] at hq
        exact .inr hq
    constructor
    · intro q n hq
      rw [Disk.fresh_next]
      rcases hfile q n hq with ⟨-, rfl⟩ | hq
      · omega
      · exact Nat.lt_succ_of_lt (H.below q n hq)
    · intro s day q' n hq hq'
      rcases hfile _ n hq with ⟨he, rfl⟩ | hq <;> rcases hfile q' _ hq' with ⟨he', hn⟩ | hq'
      · exact he'.trans he.symm
      · exact absurd (H.below q' _ hq') (Nat.lt_irrefl _)
      · exact absurd (hn ▸ H.below _ _ hq) (Nat.lt_irrefl _)
      · exact H.injective s day q' n hq hq'
    · intro s day n hv hq
      rcases hfile _ n hq with ⟨he, -⟩ | hq
      · exact ⟨k, (Y.storage.logFile_injective hv hvalid he).1 ▸ hk⟩
      · exact H.logs s day n hv hq

theorem LogFiles.write (H : Y.LogFiles ws d) (handle : Handle) (bytes : Bytes) (now : Time) :
    Y.LogFiles ws (d.write handle bytes now).2 := ⟨H.below, H.injective, H.logs⟩

/-! ### What a call changes -/

/-- What a call of a task changes, as far as the others are concerned. -/
structure Change (Y : LogSystem κ) (i : LogTask κ) (w w' : LogState κ) : Prop where
  history : ∃ e : LogEvent κ, e.task = i ∧ w'.history = e :: w.history
  kept : ∀ (k : Nat) (c : Channel), w.state.writers[k]? = some c → ∃ c', w'.state.writers[k]? = some c' ∧
    c'.source = c.source ∧ (c.ended = true → c'.ended = true) ∧ (i ≠ .writer k → Unharmed c c')
  born : ∀ (k : Nat) (c' : Channel), w'.state.writers[k]? = some c' → w.state.writers[k]? = none →
    Y.Unborn c' w'.state.disk
  files : ∀ (k : Nat) (c : Channel), i ≠ .writer k → w.state.writers[k]? = some c → ∀ date,
    w'.state.disk.file (Y.storage.logFile c.source date) = w.state.disk.file (Y.storage.logFile c.source date) ∧
    w'.state.disk.content (Y.storage.logFile c.source date) =
      w.state.disk.content (Y.storage.logFile c.source date)
  complete : Drained w.history → w'.state.writers.length = w.state.writers.length

theorem Unharmed.refl (c : Channel) : Unharmed c c := ⟨rfl, rfl, fun hq hs => ⟨hq, hs⟩, fun _ => rfl⟩

theorem Change.apart {i j : LogTask κ} {w w' : LogState κ} (C : Y.Change i w w') (hij : j ≠ i) :
    Apart j w.history w'.history := by
  obtain ⟨e, rfl, hh⟩ := C.history
  rw [hh]
  exact Apart.cons (Ne.symm hij)

theorem Change.frame {i j : LogTask κ} {w w' : LogState κ} (C : Y.Change i w w') (hij : j ≠ i) : Y.Frame j w w' where
  apart := C.apart hij
  kept k c hc := by
    obtain ⟨c', hc', hs, he, hu⟩ := C.kept k c hc
    exact ⟨c', hc', hs, he, fun hj => hu (hj ▸ Ne.symm hij)⟩
  born k c' hc' _ := C.born k c' hc'
  files k c hj hc := C.files k c (hj ▸ Ne.symm hij) hc
  complete := C.complete

theorem received_apart {h h' : List (LogEvent κ)} (a : Apart (.writer k) h h') : received k h' = received k h := by
  refine a.noted fun e he => ?_
  unfold takes
  split
  · split
    · next k' _ => exact if_neg fun hk => he (by rw [← hk.1])
    · rfl
  · rfl

theorem stamps_apart {h h' : List (LogEvent κ)} (a : Apart (.writer k) h h') : stamps k h' = stamps k h := by
  refine a.noted fun e he => ?_
  unfold reads
  split
  · split
    · next k' _ => exact if_neg fun hk => he (by rw [← hk])
    · rfl
  · rfl

theorem Change.settled {i : LogTask κ} {w w' : LogState κ} (C : Y.Change i w w') (H : Y.Settled w)
    (hown : ∀ k c', i = .writer k → w'.state.writers[k]? = some c' → c'.ended = true → c'.queue = [] ∧
      (received k w'.history).length = (stamps k w'.history).length ∧
      Y.Stored c'.source (journal k w'.history) w'.state.disk) : Y.Settled w' := by
  intro k c' hc' he
  by_cases hi : i = .writer k
  · exact hown k c' hi hc' he
  · cases hc : w.state.writers[k]? with
    | none => exact absurd he (by simp [(C.born k c' hc' hc).1])
    | some c =>
      obtain ⟨b, hb, -, -, hu⟩ := C.kept k c hc
      obtain rfl := Option.some.inj (hb.symm.trans hc')
      obtain ⟨hsource, hended, -, hover⟩ := hu hi
      have hc_ended : c.ended = true := hended ▸ he
      obtain ⟨hqueue, hlen, hstored⟩ := H k c hc hc_ended
      have a := C.apart (Ne.symm hi)
      refine ⟨(hover hc_ended).trans hqueue, ?_, fun date => ?_⟩
      · rw [received_apart a, stamps_apart a]
        exact hlen
      · rw [hsource, (C.files k c hi hc date).2, journal, received_apart a, stamps_apart a]
        exact hstored date

/-! ### One call -/

section Step
variable {i : LogTask κ} {w : LogState κ} {v : World} {op : ServerOp} {e : LogEvent κ} {h : List (LogEvent κ)}

/-- A call that leaves no trace in queues, counts and the map. -/
structure Silent (e : LogEvent κ) : Prop where
  sends : sends e = none
  takes : ∀ k, takes k e = none
  opens : ∀ k, opens k e = false
  drops : ∀ k, drops k e = false
  drain : ∀ i channels, e ≠ ⟨i, .drain, channels⟩

/-- The operations on which nothing depends that the history tells of channels. -/
def silentOp : ServerOp → Bool
  | .senderFor _ | .trySend _ _ | .dropSender _ | .recv _ | .drain => false
  | _ => true

theorem Silent.of_op (h : silentOp op = true) (i : LogTask κ) (x : op.Answer) : Silent (⟨i, op, x⟩ : LogEvent κ) := by
  cases op <;> first
    | exact absurd h Bool.false_ne_true
    | exact ⟨rfl, fun _ => rfl, fun _ => rfl, fun _ => rfl, fun _ _ h => by cases h⟩

theorem drained_cons (he : ∀ i channels, e ≠ ⟨i, .drain, channels⟩) (hd : Drained (e :: h)) : Drained h := by
  obtain ⟨channels, hm⟩ := hd
  rcases List.mem_cons.mp hm with hm | hm
  · exact absurd hm.symm (he .shutdown channels)
  · exact ⟨channels, hm⟩

theorem Change.of_same (hw : v.writers = w.state.writers) (hd : w.state.disk.SameFiles v.disk) (he : e.task = i) :
    Y.Change i w ⟨v, e :: w.history⟩ where
  history := ⟨e, he, rfl⟩
  kept k c hc := ⟨c, by rw [hw]; exact hc, rfl, id, fun _ => .refl c⟩
  born k c' hc' hc := by
    rw [hw, hc] at hc'
    cases hc'
  files k c _ _ date := ⟨by rw [hd.file], by simp only [Disk.content, hd.file, hd.inode]⟩
  complete _ := by rw [hw]

theorem Change.of_modify (k : Nat) (f : Channel → Channel) (he : e.task = i) (hs : ∀ c, (f c).source = c.source)
    (hended : ∀ c, c.ended = true → (f c).ended = true)
    (hf : ∀ c, w.state.writers[k]? = some c → i ≠ .writer k → Unharmed c (f c)) :
    Y.Change i w ⟨w.state.withWriters (w.state.writers.modify k f), e :: w.history⟩ where
  history := ⟨e, he, rfl⟩
  kept j c hc := by
    by_cases hj : k = j
    · subst hj
      exact ⟨f c, by simp [World.withWriters, hc], hs c, hended c, hf c hc⟩
    · exact ⟨c, by simp [World.withWriters, hj, hc], rfl, id, fun _ => .refl c⟩
  born j c' hc' hc := by
    obtain ⟨c, hc'', -⟩ := Writers.get_modify hc'
    rw [hc] at hc''
    cases hc''
  files _ _ _ _ _ := ⟨rfl, rfl⟩
  complete _ := List.length_modify ..

/-- The sources of channels that were changed in place. -/
theorem sourceOf_modify (k : Nat) (f : Channel → Channel) (hs : ∀ c, (f c).source = c.source) (j : Nat)
    (s : SourceKey) (h : ws.sourceOf j = some s) : Writers.sourceOf (ws.modify k f) j = some s := by
  unfold Writers.sourceOf at h ⊢
  rw [List.getElem?_modify]
  by_cases hj : k = j <;> cases hc : ws[j]? <;> simp_all

variable [DecidableEq κ] {x : op.Answer} {j : κ}

/-- A call may leave this world: the invariant is kept, and only what the caller may change is changed. -/
abbrev Keeps (Y : LogSystem κ) (w : LogState κ) (v : World) (e : LogEvent κ) : Prop :=
  Y.Inv ⟨v, e :: w.history⟩ ∧ Y.Change e.task w ⟨v, e :: w.history⟩

theorem Inv.silent (H : Y.Inv w) (x : op.Answer) (hw : v.writers = w.state.writers)
    (hd : w.state.disk.SameFiles v.disk) (hs : Silent ⟨i, op, x⟩)
    (hown : ∀ k, i = .writer k → reads k ⟨i, op, x⟩ = none ∨ Active k w) :
    Y.Keeps w v ⟨i, op, x⟩ := by
  let e : LogEvent κ := ⟨i, op, x⟩
  have C : Y.Change i w ⟨v, e :: w.history⟩ := .of_same hw hd rfl
  have hreceived : ∀ k, received k (e :: w.history) = received k w.history := fun k =>
    noted_cons_none _ (hs.takes k)
  refine ⟨⟨?_, ?_, ?_, ?_, ?_⟩, C⟩
  · exact H.queues.mono (by rw [hw]) (by rw [hw]) (noted_cons_none _ hs.sends) hreceived
  · exact H.names.mono (List.subset_cons_self ..) (drained_cons hs.drain) fun k c hc =>
      ⟨c, by rw [← hw]; exact hc, rfl, rfl⟩
  · exact H.counts.mono hs.opens hs.drops (by rw [hw]) fun k c hc => ⟨c, by rw [← hw]; exact hc, rfl, rfl⟩
  · exact H.files.mono (fun k s hk => by rw [hw]; exact hk) hd
  · refine C.settled H.settled fun k c' hi hc' hend => ?_
    rw [hw] at hc'
    rcases hown k hi with hr | ⟨c, hc, hactive⟩
    · have hstamps : stamps k (e :: w.history) = stamps k w.history := noted_cons_none _ hr
      obtain ⟨hqueue, hlen, hstored⟩ := H.settled k c' hc' hend
      rw [journal, hreceived k, hstamps]
      refine ⟨hqueue, hlen, fun date => ?_⟩
      simp only [Disk.content, hd.file, hd.inode]
      exact hstored date
    · rw [hc'] at hc
      obtain rfl := Option.some.inj hc
      rw [hend] at hactive
      cases hactive

omit [DecidableEq κ] in
/-- A change in one channel that keeps its source and place in the map. -/
theorem Names.modify (H : Names ws h) (k : Nat) (f : Channel → Channel)
    (he : ∀ i channels, e ≠ ⟨i, .drain, channels⟩) (hf : ∀ c, (f c).source = c.source ∧ (f c).listed = c.listed) :
    Names (ws.modify k f) (e :: h) := by
  refine H.mono (List.subset_cons_self ..) (drained_cons he) fun j c' hc' => ?_
  obtain ⟨c, hc, rfl⟩ := Writers.get_modify hc'
  refine ⟨c, hc, ?_⟩
  split_ifs
  · exact hf c
  · exact ⟨rfl, rfl⟩

/-- A change in one channel that keeps its senders. -/
theorem Counts.modify (H : Counts ws h) (k : Nat) (f : Channel → Channel) (ho : ∀ k, opens k e = false)
    (hd : ∀ k, drops k e = false) (hf : ∀ c, (f c).senders = c.senders ∧ (f c).listed = c.listed) :
    Counts (ws.modify k f) (e :: h) := by
  refine H.mono ho hd (by simp) fun j c' hc' => ?_
  obtain ⟨c, hc, rfl⟩ := Writers.get_modify hc'
  refine ⟨c, hc, ?_⟩
  split_ifs
  · exact hf c
  · exact ⟨rfl, rfl⟩

/-- A call that changes one channel, but neither its source nor its place in the map. -/
theorem Inv.modify (H : Y.Inv w) {f : Channel → Channel}
    (hf : ∀ c, (f c).source = c.source ∧ (f c).listed = c.listed) (hended : ∀ c, c.ended = true → (f c).ended = true)
    (hother : ∀ c, w.state.writers[k]? = some c → e.task ≠ .writer k → Unharmed c (f c))
    (he : ∀ i channels, e ≠ ⟨i, .drain, channels⟩) (hqueues : Queues (w.state.writers.modify k f) (e :: w.history))
    (hcounts : Counts (w.state.writers.modify k f) (e :: w.history))
    (hown : ∀ k', e.task = .writer k' → k' = k ∧ ∀ c, w.state.writers[k]? = some c → (f c).ended = true →
      (f c).queue = [] ∧ (received k (e :: w.history)).length = (stamps k (e :: w.history)).length ∧
      Y.Stored c.source (journal k (e :: w.history)) w.state.disk) :
    Y.Keeps w (w.state.withWriters (w.state.writers.modify k f)) e := by
  have C : Y.Change e.task w ⟨w.state.withWriters (w.state.writers.modify k f), e :: w.history⟩ :=
    .of_modify k f rfl (fun c => (hf c).1) hended hother
  refine ⟨⟨hqueues, Names.modify H.names k f he hf, hcounts, ?_, C.settled H.settled fun k' c' hi hc' hend => ?_⟩, C⟩
  · exact H.files.mono (sourceOf_modify k f fun c => (hf c).1) ⟨rfl, rfl, rfl⟩
  · obtain ⟨rfl, hown⟩ := hown k' hi
    obtain ⟨c, hc, rfl⟩ := Writers.get_modify hc'
    rw [if_pos rfl] at hend ⊢
    rw [(hf c).1]
    exact hown c hc hend

/-- Nobody is answered and goes on, so nothing is drained while a request goes on. -/
theorem Inv.not_drained (H : Y.Inv w) (hr : ¬ Replied j w.history) : ¬ Drained w.history :=
  fun hd => hr (H.names.replied hd j)

theorem Inv.senderFor (H : Y.Inv w) (hr : ¬ Replied j w.history) (hv : source.Valid) {ws : Writers}
    (hk : w.state.writers.senderFor source = (k, ws)) :
    Y.Keeps w (w.state.withWriters ws) ⟨.handler j, .senderFor source, k⟩ := by
  have hn := H.not_drained hr
  have hreceived : ∀ k', received k' (⟨.handler j, .senderFor source, k⟩ :: w.history) = received k' w.history :=
    fun _ => noted_cons_none _ rfl
  have hqueued : ws.queued = w.state.writers.queued := by
    obtain ⟨_, _, _, hsender, -, -, -, hq⟩ := w.state.writers.senderFor_spec source
    rw [hk] at hsender
    rw [(Prod.mk.inj hsender).2, hq]
  unfold Writers.senderFor at hk
  cases hl : w.state.writers.lookup source with
  | some k' =>
    rw [hl] at hk
    obtain ⟨rfl, rfl⟩ := Prod.mk.inj hk
    obtain ⟨hlt, hlisted, -⟩ := List.findIdx?_eq_some_iff_getElem.mp hl
    refine H.modify (fun _ => ⟨rfl, rfl⟩) (fun _ h => h) (fun c hc _ => ?_) (fun _ _ h => by cases h)
      (H.queues.mono hqueued (by simp) (noted_cons_none _ rfl) hreceived) (H.counts.senderFor_old _ source k' hlt)
      fun _ h => by cases h
    have hpos := H.counts.pos_of_listed hc (H.names.listed hn k' c hc)
    exact ⟨rfl, rfl, fun _ hs => absurd hs (by omega), fun _ => rfl⟩
  | none =>
    rw [hl] at hk
    obtain ⟨rfl, rfl⟩ := Prod.mk.inj hk
    have C : Y.Change (.handler j) w ⟨w.state.withWriters (w.state.writers ++
        [⟨source, [], 2, true, false⟩]), ⟨.handler j, .senderFor source, w.state.writers.length⟩ :: w.history⟩ := by
      refine ⟨⟨_, rfl, rfl⟩, fun k c hc => ?_, fun k c' hc' hc => ?_, fun _ _ _ _ _ => ⟨rfl, rfl⟩,
        fun hd => absurd hd hn⟩
      · have hlt := (List.getElem?_eq_some_iff.mp hc).1
        exact ⟨c, (List.getElem?_append_left hlt).trans hc, rfl, id, fun _ => .refl c⟩
      · rw [World.withWriters, List.getElem?_append_right (List.getElem?_eq_none_iff.mp hc)] at hc'
        have hmem := List.mem_of_getElem? hc'
        rw [List.mem_singleton.mp hmem]
        refine ⟨rfl, fun date => ?_⟩
        -- a file of this source would be one of a channel, and it has none
        cases hfile : w.state.disk.file (Y.storage.logFile source date) with
        | none => exact hfile
        | some n =>
          obtain ⟨k', hs⟩ := H.files.logs source date n hv hfile
          obtain ⟨b, hb, hsource⟩ := Option.map_eq_some_iff.mp hs
          exact absurd hsource (H.names.unlisted hn hl hb)
    refine ⟨⟨?_, ?_, ?_, ?_, ?_⟩, C⟩
    · exact H.queues.mono hqueued (by simp) (noted_cons_none _ rfl) hreceived
    · exact H.names.senderFor hn _ hv hl
    · exact H.counts.senderFor_new _ source
    · refine H.files.mono (fun k s hs => ?_) ⟨rfl, rfl, rfl⟩
      obtain ⟨c, hc, rfl⟩ := Option.map_eq_some_iff.mp hs
      simp [Writers.sourceOf, List.getElem?_append_left (List.getElem?_eq_some_iff.mp hc).1, hc]
    · exact C.settled H.settled fun _ _ h => by cases h

theorem Inv.trySend (H : Y.Inv w) (line : Json) (hc : w.state.writers[k]? = some c) (hopen : c.ended = false)
    (hh : Holding (.handler j) k w.history) :
    Y.Keeps w (w.state.withWriters (w.state.writers.enqueue k [line])) ⟨.handler j, .trySend k line, .ok ()⟩ := by
  refine H.modify (fun _ => ⟨rfl, rfl⟩) (fun _ h => h) (fun b hb _ => ?_) (fun _ _ h => by cases h)
    (H.queues.trySend _ line hc) (Counts.modify H.counts k _ (fun _ => rfl) (fun _ => rfl) fun _ => ⟨rfl, rfl⟩)
    fun _ h => by cases h
  obtain rfl := Option.some.inj (hc.symm.trans hb)
  have hpos := H.counts.pos hc hh
  exact ⟨rfl, rfl, fun _ hs => absurd hs (by omega), fun he => by rw [hopen] at he; cases he⟩

theorem Inv.dropSender (H : Y.Inv w) (hh : Holding (.handler j) k w.history) :
    Y.Keeps w (w.state.withWriters (w.state.writers.dropSender k)) ⟨.handler j, .dropSender k, ()⟩ := by
  refine H.modify (fun _ => ⟨rfl, rfl⟩) (fun _ h => h) (fun c hc _ => ?_) (fun _ _ h => by cases h) ?_
    (H.counts.dropSender hh) fun _ h => by cases h
  · have hpos := H.counts.pos hc hh
    exact ⟨rfl, rfl, fun _ hs => absurd hs (by omega), fun _ => rfl⟩
  · refine H.queues.mono ?_ (by simp) (noted_cons_none _ rfl) fun _ => noted_cons_none _ rfl
    funext q
    exact Writers.queued_modify _ k q fun _ => rfl

theorem Inv.recv (H : Y.Inv w) {line : Json} {rest : List Json} (hc : w.state.writers[k]? = some c)
    (hopen : c.ended = false) (hq : c.queue = line :: rest) :
    Y.Keeps w (w.state.withWriters (w.state.writers.modify k fun c => {c with queue := rest}))
      ⟨.writer k, .recv k, some line⟩ := by
  refine H.modify (fun _ => ⟨rfl, rfl⟩) (fun _ h => h) (fun _ _ hn => absurd rfl hn) (fun _ _ h => by cases h)
    (H.queues.recv hc hq) (Counts.modify H.counts k _ (fun _ => rfl) (fun _ => rfl) fun _ => ⟨rfl, rfl⟩)
    fun k' hk => ⟨(LogTask.writer.inj hk).symm, fun b hb he => ?_⟩
  obtain rfl := Option.some.inj (hc.symm.trans hb)
  rw [hopen] at he
  cases he

/-- A writer ends with its queue empty and its lines in files. -/
theorem Inv.finish (H : Y.Inv w) (hc : w.state.writers[k]? = some c) (hq : c.queue = [])
    (hlen : (received k w.history).length = (stamps k w.history).length)
    (hstored : Y.Stored c.source (journal k w.history) w.state.disk) :
    Y.Keeps w (w.state.withWriters (w.state.writers.modify k fun c => {c with ended := true}))
      ⟨.writer k, .finish k, ()⟩ := by
  have hreceived : ∀ k', received k' (⟨.writer k, .finish k, ()⟩ :: w.history) = received k' w.history :=
    fun _ => noted_cons_none _ rfl
  have hstamps : stamps k (⟨.writer k, .finish k, ()⟩ :: w.history) = stamps k w.history := noted_cons_none _ rfl
  refine H.modify (fun _ => ⟨rfl, rfl⟩) (fun _ _ => rfl) (fun _ _ hn => absurd rfl hn) (fun _ _ h => by cases h) ?_
    (Counts.modify H.counts k _ (fun _ => rfl) (fun _ => rfl) fun _ => ⟨rfl, rfl⟩)
    fun k' hk => ⟨(LogTask.writer.inj hk).symm, fun b hb _ => ?_⟩
  · refine H.queues.mono ?_ (by simp) (noted_cons_none _ rfl) hreceived
    funext q
    exact Writers.queued_modify _ k q fun _ => rfl
  · obtain rfl := Option.some.inj (hc.symm.trans hb)
    rw [journal, hreceived, hstamps]
    exact ⟨hq, hlen, hstored⟩

/-- The shutdown closes the list. -/
theorem Inv.drain (H : Y.Inv w) (channels : List Nat) (hr : ∀ j, Replied j w.history) :
    Y.Keeps w (w.state.withWriters w.state.writers.drain.2) ⟨.shutdown, .drain, channels⟩ := by
  have hget : ∀ (k : Nat) (c : Channel), w.state.writers[k]? = some c → w.state.writers.drain.2[k]? =
      some (if c.listed then {c with listed := false, senders := c.senders - 1} else c) := by
    intro k c hc
    simp [Writers.drain, hc]
  have hlen : w.state.writers.drain.2.length = w.state.writers.length := List.length_map ..
  have C : Y.Change .shutdown w
      ⟨w.state.withWriters w.state.writers.drain.2, ⟨.shutdown, .drain, channels⟩ :: w.history⟩ := by
    refine ⟨⟨_, rfl, rfl⟩, fun k c hc => ⟨_, hget k c hc, ?_⟩, fun k c' hc' hc => ?_, fun _ _ _ _ _ => ⟨rfl, rfl⟩,
      fun _ => hlen⟩
    · split_ifs with hl
      · have hpos := H.counts.pos_of_listed hc hl
        exact ⟨rfl, id, fun _ => ⟨rfl, rfl, fun _ hs => absurd hs (by omega), fun _ => rfl⟩⟩
      · exact ⟨rfl, id, fun _ => .refl c⟩
    · obtain ⟨b, hb, -⟩ := Writers.get_drain hc'
      rw [hc] at hb
      cases hb
  refine ⟨⟨?_, ?_, ?_, ?_, ?_⟩, C⟩
  · refine H.queues.mono ?_ (Nat.le_of_eq hlen.symm) (noted_cons_none _ rfl) fun _ => noted_cons_none _ rfl
    funext k
    unfold Writers.queued
    cases hc : w.state.writers[k]? with
    | none => simp [World.withWriters, Writers.drain, hc]
    | some c =>
      simp only [World.withWriters, hget k c hc, Option.elim_some]
      split_ifs <;> rfl
  · exact H.names.drain channels hr
  · exact H.counts.drain _ channels
  · refine H.files.mono (fun k s hs => ?_) ⟨rfl, rfl, rfl⟩
    obtain ⟨c, hc, rfl⟩ := Option.map_eq_some_iff.mp hs
    simp only [Writers.sourceOf, World.withWriters, hget k c hc, Option.map_some]
    split_ifs <;> rfl
  · exact C.settled H.settled fun _ _ h => by cases h

/-- A change of the files of a writer's source. -/
theorem Inv.files_of (H : Y.Inv w) {d : Disk} (op : FileOp) (x : op.Answer) (hactive : Active k w)
    (hfiles : Y.LogFiles w.state.writers d) (hsame : ∀ (k' : Nat) (c : Channel), k' ≠ k →
      w.state.writers[k']? = some c → ∀ date,
        d.file (Y.storage.logFile c.source date) = w.state.disk.file (Y.storage.logFile c.source date) ∧
        d.content (Y.storage.logFile c.source date) = w.state.disk.content (Y.storage.logFile c.source date)) :
    Y.Keeps w {w.state with disk := d} ⟨.writer k, .file op, x⟩ := by
  have C : Y.Change (.writer k) w ⟨{w.state with disk := d}, ⟨.writer k, .file op, x⟩ :: w.history⟩ :=
    ⟨⟨_, rfl, rfl⟩, fun _ c hc => ⟨c, hc, rfl, id, fun _ => .refl c⟩,
      fun _ _ hc' hc => absurd (hc.symm.trans hc') (by simp),
      fun k' c hk => hsame k' c fun h => hk (h ▸ rfl), fun _ => rfl⟩
  refine ⟨⟨?_, ?_, ?_, hfiles, ?_⟩, C⟩
  · exact H.queues.mono rfl (Nat.le_refl _) (noted_cons_none _ rfl) fun _ => noted_cons_none _ rfl
  · exact H.names.mono (List.subset_cons_self ..) (drained_cons fun _ _ h => by cases h) fun _ c hc =>
      ⟨c, hc, rfl, rfl⟩
  · exact H.counts.mono (fun _ => rfl) (fun _ => rfl) (Nat.le_refl _) fun _ c hc => ⟨c, hc, rfl, rfl⟩
  · refine C.settled H.settled fun k' c' hk hc' he => ?_
    obtain rfl := LogTask.writer.inj hk
    obtain ⟨c, hc, hopen⟩ := hactive
    obtain rfl := Option.some.inj (hc.symm.trans hc')
    rw [hopen] at he
    cases he

/-- The log files of two channels are different files. -/
theorem Inv.logFile_ne (H : Y.Inv w) {k k' : Nat} (hk : k' ≠ k) (hs : w.state.writers.sourceOf k = some source)
    (hc : w.state.writers[k']? = some c) (date date' : NaiveDate) :
    Y.storage.logFile c.source date ≠ Y.storage.logFile source date' := by
  obtain ⟨b, hb, rfl⟩ := Option.map_eq_some_iff.mp hs
  intro he
  have hsource := (Y.storage.logFile_injective (H.names.valid k' c hc) (H.names.valid k b hb) he).1
  exact hk (H.names.distinct k' k c b hc hb hsource)

theorem Inv.openAppend (H : Y.Inv w) (hactive : Active k w) (hs : w.state.writers.sourceOf k = some source)
    (now : Time) (x : Except IoError Handle) :
    Y.Keeps w {w.state with disk := (w.state.disk.openAppend (Y.storage.logFile source date) now).2}
      ⟨.writer k, .file (.openAppend (Y.storage.logFile source date)), x⟩ := by
  have hvalid : source.Valid := by
    obtain ⟨c, hc, rfl⟩ := Option.map_eq_some_iff.mp hs
    exact H.names.valid k c hc
  refine H.files_of (.openAppend (Y.storage.logFile source date)) x hactive (H.files.openAppend hvalid hs now) ?_
  intro k' c hk hc date'
  have hne := H.logFile_ne hk hs hc date' date
  exact ⟨Disk.openAppend_other hne, (Disk.openAppend_content H.files.below _).2 hne⟩

theorem Inv.write (H : Y.Inv w) (hactive : Active k w) (hs : w.state.writers.sourceOf k = some source)
    {handle : Handle} (ha : handle.append = true)
    (hf : w.state.disk.file (Y.storage.logFile source date) = some handle.inode) (bytes : Bytes) (now : Time)
    (x : Except IoError Handle) :
    Y.Keeps w {w.state with disk := (w.state.disk.write handle bytes now).2}
      ⟨.writer k, .file (.write handle bytes), x⟩ := by
  refine H.files_of (.write handle bytes) x hactive (H.files.write handle bytes now) ?_
  intro k' c hk hc date'
  refine ⟨rfl, ?_⟩
  rw [Disk.write_append_content ha, if_neg]
  exact fun he => H.logFile_ne hk hs hc date' date (H.files.injective source date _ _ hf he)

/-- Every legal call of a handler. -/
theorem Inv.step_handler (H : Y.Inv w) {n : Nat} (hl : Y.Legal (.handler j) op w)
    (hx : World.exec Y.env n op w.state = some (x, v)) :
    Y.Keeps w v ⟨.handler j, op, x⟩ := by
  obtain ⟨hr, hl⟩ := hl
  cases op with
  | check _ _ _ | observe _ | report _ =>
    rw [← (result_eq hx).2]
    refine H.silent x rfl ⟨rfl, rfl, rfl⟩ (.of_op rfl _ x) ?_
    exact fun _ h => by cases h
  | capacity k =>
    obtain ⟨c, -, hr⟩ := Option.map_eq_some_iff.mp hx
    rw [← (Prod.mk.inj hr).2]
    refine H.silent x rfl ⟨rfl, rfl, rfl⟩ (.of_op rfl _ x) ?_
    exact fun _ h => by cases h
  | senderFor source =>
    obtain ⟨hk, rfl⟩ := result_eq hx
    exact H.senderFor hr hl (Prod.ext hk rfl)
  | trySend k line =>
    obtain ⟨⟨r, ws⟩, hsend, hr⟩ := Option.map_eq_some_iff.mp hx
    obtain ⟨rfl, rfl⟩ := Prod.mk.inj hr
    unfold Writers.trySend at hsend
    obtain ⟨c, hc, hsend⟩ := Option.map_eq_some_iff.mp hsend
    have hsilent (e : SendError) : Silent (⟨.handler j, .trySend k line, .error e⟩ : LogEvent κ) :=
      ⟨rfl, fun _ => rfl, fun _ => rfl, fun _ => rfl, fun _ _ h => by cases h⟩
    split_ifs at hsend with hended hfull
    · obtain ⟨rfl, rfl⟩ := Prod.mk.inj hsend
      exact H.silent _ rfl ⟨rfl, rfl, rfl⟩ (hsilent _) fun _ h => by cases h
    · obtain ⟨rfl, rfl⟩ := Prod.mk.inj hsend
      exact H.silent _ rfl ⟨rfl, rfl, rfl⟩ (hsilent _) fun _ h => by cases h
    · obtain ⟨rfl, rfl⟩ := Prod.mk.inj hsend
      exact H.trySend line hc (by simpa using hended) hl
  | dropSender k =>
    rw [← (result_eq hx).2]
    exact H.dropSender hl
  | _ => exact hl.elim

theorem Inv.step_shutdown (H : Y.Inv w) {n : Nat} (hl : Y.Legal .shutdown op w)
    (hx : World.exec Y.env n op w.state = some (x, v)) :
    Y.Keeps w v ⟨.shutdown, op, x⟩ := by
  cases op with
  | drain =>
    obtain ⟨rfl, rfl⟩ := result_eq hx
    exact H.drain _ hl
  | join k =>
    have hv : v = w.state := by
      simp only [World.exec] at hx
      split at hx
      · split at hx
        · exact (result_eq hx).2.symm
        · cases hx
      · cases hx
    rw [hv]
    refine H.silent x rfl ⟨rfl, rfl, rfl⟩ (.of_op rfl _ x) ?_
    exact fun _ h => by cases h
  | _ => exact hl.elim

/-- Every legal call of a writer. -/
theorem Inv.step_writer (H : Y.Inv w) {k n : Nat} (hl : Y.Legal (.writer k) op w)
    (hx : World.exec Y.env n op w.state = some (x, v)) :
    Y.Keeps w v ⟨.writer k, op, x⟩ := by
  cases op with
  | report _ =>
    rw [← (result_eq hx).2]
    exact H.silent x rfl ⟨rfl, rfl, rfl⟩ (.of_op rfl _ x) fun _ _ => .inl rfl
  | accept c =>
    obtain ⟨_, -, hr⟩ := Option.map_eq_some_iff.mp hx
    rw [← (Prod.mk.inj hr).2]
    exact H.silent x rfl ⟨rfl, rfl, rfl⟩ (.of_op rfl _ x) fun _ _ => .inl rfl
  | now =>
    rw [← (result_eq hx).2]
    refine H.silent x rfl ⟨rfl, rfl, rfl⟩ (.of_op rfl _ x) fun k' hk => ?_
    obtain rfl := LogTask.writer.inj hk
    exact .inr hl
  | recv c =>
    obtain ⟨rfl, c', hc', hopen⟩ := hl
    obtain ⟨⟨r, ws⟩, hrecv, hr⟩ := Option.map_eq_some_iff.mp hx
    obtain ⟨rfl, rfl⟩ := Prod.mk.inj hr
    simp only [Writers.recv, hc'] at hrecv
    split at hrecv
    · next line rest hq =>
      obtain ⟨rfl, rfl⟩ := result_eq hrecv
      exact H.recv hc' hopen hq
    · split at hrecv
      · obtain ⟨rfl, rfl⟩ := result_eq hrecv
        refine H.silent _ rfl ⟨rfl, rfl, rfl⟩ ⟨rfl, fun k' => ?_, fun _ => rfl, fun _ => rfl, ?_⟩ fun _ _ => .inl rfl
        · simp [takes]
        · exact fun _ _ h => by cases h
      · cases hrecv
  | finish c =>
    obtain ⟨rfl, c', hc', hq, hlen, hstored⟩ := hl
    rw [← (result_eq hx).2]
    exact H.finish hc' hq hlen hstored
  | file op =>
    obtain ⟨hr, rfl⟩ := World.exec_file.mp hx
    cases op with
    | sync _ | createDirAll _ =>
      exact H.silent x rfl ⟨rfl, rfl, rfl⟩ (.of_op rfl _ x) fun _ _ => .inl rfl
    | openAppend p =>
      obtain ⟨hactive, source, date, hs, rfl⟩ := hl
      exact H.openAppend hactive hs _ x
    | write handle bytes =>
      obtain ⟨hactive, ha, source, date, hs, hf⟩ := hl
      exact H.write hactive hs ha hf bytes _ x
    | _ => exact hl.elim
  | _ => exact hl.elim

/-- **A legal call keeps the invariant and changes only what the caller may.** -/
theorem Inv.step (H : Y.Inv w) {w' : LogState κ} (hl : Y.Legal i op w) (hx : execAs Y.env i op w = some (x, w')) :
    Y.Inv w' ∧ Y.Change i w w' := by
  obtain ⟨hexec, hh⟩ := record_eq_some.mp hx
  obtain ⟨v, h⟩ := w'
  obtain rfl : h = ⟨i, op, x⟩ :: w.history := hh
  cases i with
  | handler j => exact H.step_handler hl hexec
  | writer k => exact H.step_writer hl hexec
  | shutdown => exact H.step_shutdown hl hexec

end Step

end LogSystem

end Detritus.Server
