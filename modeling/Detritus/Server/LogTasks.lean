import Detritus.Server.LogSteps

/-! The tasks of the log store, each against any company.

A request tells the writers its records, entry by entry; what it has told is read off the
history (`told`) and at the end it is all of them if the request is accepted and the first
of them if it is not. A writer keeps the files equal to its journal. -/
namespace Detritus.Server
open Files Protocol Process Contract

namespace LogSystem
variable {κ : Type} {Y : LogSystem κ} {i : LogTask κ} {w w' : LogState κ} {h h' : List (LogEvent κ)}

/-! ### Contracts -/

theorem Unharmed.trans {a b c : Channel} (h : Unharmed a b) (h' : Unharmed b c) : Unharmed a c where
  source := h'.source.trans h.source
  ended := h'.ended.trans h.ended
  closed hq hs := h'.closed (h.closed hq hs).1 (h.closed hq hs).2
  past he := (h'.past (h.ended.trans he)).trans (h.past he)

theorem Frame.refl (i : LogTask κ) (w : LogState κ) : Y.Frame i w w where
  apart := .refl
  kept _ c hc := ⟨c, hc, rfl, id, fun _ => .refl c⟩
  born _ _ hc' _ hc := absurd (hc.symm.trans hc') (by simp)
  files _ _ _ _ _ := ⟨rfl, rfl⟩
  complete _ := rfl

theorem Drained.mono (hh : h ⊆ h') : Drained h → Drained h' :=
  Exists.imp fun _ hm => hh hm

theorem Frame.trans {w'' : LogState κ} (F : Y.Frame i w w') (G : Y.Frame i w' w'') : Y.Frame i w w'' where
  apart := F.apart.trans G.apart
  kept k c hc := by
    obtain ⟨c', hc', hs, he, hu⟩ := F.kept k c hc
    obtain ⟨c'', hc'', hs', he', hu'⟩ := G.kept k c' hc'
    exact ⟨c'', hc'', hs'.trans hs, he' ∘ he, fun hi => (hu hi).trans (hu' hi)⟩
  born k c'' hc'' hi hc := by
    cases hc' : w'.state.writers[k]? with
    | none => exact G.born k c'' hc'' hi hc'
    | some c' =>
      obtain ⟨hended, hnone⟩ := F.born k c' hc' hi hc
      obtain ⟨b, hb, hs, -, hu⟩ := G.kept k c' hc'
      obtain rfl := Option.some.inj (hb.symm.trans hc'')
      refine ⟨(hu hi).ended.trans hended, fun date => ?_⟩
      rw [hs, (G.files k c' hi hc' date).1]
      exact hnone date
  files k c hi hc date := by
    obtain ⟨c', hc', hs, -⟩ := F.kept k c hc
    obtain ⟨hf, hcontent⟩ := G.files k c' hi hc' date
    rw [hs] at hf hcontent
    exact ⟨hf.trans (F.files k c hi hc date).1, hcontent.trans (F.files k c hi hc date).2⟩
  complete hd := (G.complete (Drained.mono F.apart.subset hd)).trans (F.complete hd)

/-- The condition on runs: the pool is shut down when every request has been answered. -/
def Orderly : LogTask κ → ServerOp → LogState κ → Prop
  | .shutdown, _, w => ∀ j, Replied j w.history
  | _, _, _ => True

variable [DecidableEq κ] {e : LogEvent κ} {k : Nat}

variable (Y) in
def sharing : Sharing (execAs Y.env) (Orderly : LogTask κ → _) where
  Inv := Y.Inv
  frame := Y.Frame
  change := Y.Change
  refl := .refl
  trans _ := .trans

variable (Y) in
def contract (i : LogTask κ) : Contract serverInterface (LogState κ) := Y.sharing.contract i

theorem sound : Y.sharing.Sound Y.Legal := fun I hl hx => I.step hl hx

/-! ### Requests -/

/-- What a request has told the writers: the source of the channel, and the line. -/
def told (j : κ) (w : LogState κ) : List (Option SourceKey × Json) :=
  ((sent w.history).filter (·.task = .handler j)).map fun x => (w.state.writers.sourceOf x.channel, x.line)

omit [DecidableEq κ] in
theorem sends_task {x : Sent κ} (h : sends e = some x) : x.task = e.task := by
  unfold sends at h
  split at h
  · split at h
    · rw [← Option.some.inj h]
    · cases h
  · cases h

omit [DecidableEq κ] in
theorem sent_cons (e : LogEvent κ) (h : List (LogEvent κ)) : sent (e :: h) = sent h ++ (sends e).toList :=
  noted_cons ..

/-- What a task has sent does not depend on the others. -/
theorem sent_apart (a : Apart i h h') : (sent h').filter (·.task = i) = (sent h).filter (·.task = i) := by
  obtain ⟨new, rfl, hn⟩ := a
  induction new with
  | nil => rfl
  | cons e new ih =>
    rw [List.cons_append, sent_cons, List.filter_append, ih fun e he => hn e (.tail _ he)]
    cases hs : sends e with
    | none => simp
    | some x =>
      have : x.task ≠ i := sends_task hs ▸ hn e (.head _)
      simp [this]

/-- Channels keep their sources. -/
theorem told_kept {j : κ} (H : Y.Inv w) (hkept : ∀ (k : Nat) (c : Channel), w.state.writers[k]? = some c →
      ∃ c', w'.state.writers[k]? = some c' ∧ c'.source = c.source) :
    ((sent w.history).filter (·.task = .handler j)).map
      (fun x => (w'.state.writers.sourceOf x.channel, x.line)) = told j w := by
  refine List.map_congr_left fun x hx => ?_
  have hlt := (H.queues.known x (List.mem_filter.mp hx).1).1
  obtain ⟨c', hc', hs⟩ := hkept x.channel _ (List.getElem?_eq_getElem hlt)
  simp [Writers.sourceOf, hc', hs, List.getElem?_eq_getElem hlt]

/-- What others do does not change what a handler has sent. -/
theorem told_frame {j : κ} (H : Y.Inv w) (F : Y.Frame (.handler j) w w') : told j w' = told j w := by
  rw [told, sent_apart F.apart]
  refine told_kept H fun k c hc => ?_
  obtain ⟨c', hc', hs, -⟩ := F.kept k c hc
  exact ⟨c', hc', hs⟩

/-- A call of the handler adds what it sends. -/
theorem told_change {j : κ} (H : Y.Inv w) (C : Y.Change (.handler j) w w') (hh : w'.history = e :: w.history) :
    told j w' = told j w ++
      ((sends e).toList.filter (·.task = .handler j)).map fun x => (w'.state.writers.sourceOf x.channel, x.line) := by
  rw [told, hh, sent_cons, List.filter_append, List.map_append, told_kept H]
  intro k c hc
  obtain ⟨c', hc', hs, -⟩ := C.kept k c hc
  exact ⟨c', hc', hs⟩

/-- The request is under way and has told the writers these records. -/
structure Sending (Y : LogSystem κ) (j : κ) (records : List (SourceKey × LogRecord)) (w : LogState κ) : Prop where
  inv : Y.Inv w
  waiting : ¬ Replied j w.history
  told : told j w = records.map fun x => (some x.1, logRecordJson x.2)

/-- It holds the sender of a source. -/
structure Entering (Y : LogSystem κ) (j : κ) (k : Nat) (source : SourceKey) (records : List (SourceKey × LogRecord))
    (w : LogState κ) : Prop extends Y.Sending j records w where
  holding : Holding (.handler j) k w.history
  source : w.state.writers.sourceOf k = some source

omit [DecidableEq κ] in
theorem replied_apart {j : κ} (a : Apart (.handler j) h h') :
    Replied j h' ↔ Replied j h := exists_congr fun _ => a.mem rfl

omit [DecidableEq κ] in
theorem sourceOf_frame (F : Y.Frame i w w') {s : SourceKey} (h : w.state.writers.sourceOf k = some s) :
    w'.state.writers.sourceOf k = some s := by
  obtain ⟨c, hc, rfl⟩ := Option.map_eq_some_iff.mp h
  obtain ⟨c', hc', hs, -⟩ := F.kept k c hc
  simp [Writers.sourceOf, hc', hs]

omit [DecidableEq κ] in
theorem sourceOf_change (C : Y.Change i w w') {s : SourceKey} (h : w.state.writers.sourceOf k = some s) :
    w'.state.writers.sourceOf k = some s := by
  obtain ⟨c, hc, rfl⟩ := Option.map_eq_some_iff.mp h
  obtain ⟨c', hc', hs, -⟩ := C.kept k c hc
  simp [Writers.sourceOf, hc', hs]

variable {j : κ} {records : List (SourceKey × LogRecord)} {source : SourceKey} {finished : Prop} {α : Type}
  {A : List α → LogState κ → Prop}

theorem sending_stable : (Y.contract (.handler j)).Stable (Y.Sending j records) :=
  stable_of (fun _ h => h.inv) fun _ _ ht F S =>
    ⟨ht, fun hr => S.waiting ((replied_apart F.apart).mp hr), (told_frame S.inv F).trans S.told⟩

theorem entering_stable : (Y.contract (.handler j)).Stable (Y.Entering j k source records) := by
  refine stable_of (fun _ h => h.inv) fun s t ht F S => ?_
  refine ⟨⟨ht, fun hr => S.waiting ((replied_apart F.apart).mp hr), (told_frame S.inv F).trans S.told⟩, ?_,
    sourceOf_frame F S.source⟩
  unfold Holding
  rw [F.apart.countBy, F.apart.countBy]
  exact S.holding

/-! ### One call of a request -/

omit [DecidableEq κ] in
theorem replied_cons {h : List (LogEvent κ)} (hr : Replied j (e :: h))
    (he : ∀ status, e ≠ ⟨.handler j, .observe (.request .logs status), ()⟩) : Replied j h := by
  obtain ⟨status, hm⟩ := hr
  rcases List.mem_cons.mp hm with hm | hm
  · exact absurd hm.symm (he status)
  · exact ⟨status, hm⟩

/-- A call that sends nothing and is not the answer. -/
theorem Sending.step (S : Y.Sending j records w) (hI : Y.Inv w') (C : Y.Change (.handler j) w w')
    (hh : w'.history = e :: w.history) (hs : sends e = none)
    (he : ∀ status, e ≠ ⟨.handler j, .observe (.request .logs status), ()⟩) : Y.Sending j records w' := by
  refine ⟨hI, fun hr => S.waiting (replied_cons (hh ▸ hr) he), ?_⟩
  rw [told_change S.inv C hh, hs, S.told]
  simp

theorem Entering.step (S : Y.Entering j k source records w) (hI : Y.Inv w') (C : Y.Change (.handler j) w w')
    (hh : w'.history = e :: w.history) (hs : sends e = none)
    (he : ∀ status, e ≠ ⟨.handler j, .observe (.request .logs status), ()⟩) (hd : drops k e = false) :
    Y.Entering j k source records w' := by
  refine ⟨S.toSending.step hI C hh hs he, ?_, sourceOf_change C S.source⟩
  have hheld := S.holding
  unfold Holding at hheld ⊢
  rw [hh, countBy_cons, countBy_cons, hd]
  simp only [Bool.false_eq_true, and_false, if_false]
  omega

/-- A record that the channel took. -/
theorem Entering.send {record : LogRecord} (S : Y.Entering j k source records w) (hI : Y.Inv w')
    (C : Y.Change (.handler j) w w')
    (hh : w'.history = ⟨.handler j, .trySend k (logRecordJson record), .ok ()⟩ :: w.history) :
    Y.Entering j k source (records ++ [(source, record)]) w' := by
  refine ⟨⟨hI, fun hr => S.waiting (replied_cons (hh ▸ hr) fun _ h => by cases h), ?_⟩, ?_, sourceOf_change C S.source⟩
  · rw [told_change S.inv C hh, S.told]
    simp [sends, sourceOf_change C S.source]
  · have hheld := S.holding
    unfold Holding at hheld ⊢
    rw [hh, countBy_cons, countBy_cons]
    simpa [opens, drops] using hheld

/-! ### A request -/

/-- An assertion about the first of some records, and about all if they are done. -/
def Progress {α : Type} (finished : Prop) (all : List α) (A : List α → LogState κ → Prop) (w : LogState κ) : Prop :=
  ∃ first, first <+: all ∧ (finished → first = all) ∧ A first w

omit [DecidableEq κ] in
theorem Progress.none {all : List α} (hf : ¬ finished) (h : A [] w) :
    Progress finished all A w := ⟨[], List.nil_prefix, fun hd => absurd hd hf, h⟩

omit [DecidableEq κ] in
theorem Progress.all {all : List α} (h : A all w) :
    Progress finished all A w := ⟨all, List.prefix_refl _, fun _ => rfl, h⟩

omit [DecidableEq κ] in
theorem Progress.cut {all more : List α} (h : Progress finished all A w) : Progress False (all ++ more) A w := by
  obtain ⟨first, hp, -, hA⟩ := h
  exact ⟨first, hp.trans (List.prefix_append ..), False.elim, hA⟩

omit [DecidableEq κ] in
theorem Progress.append {finished finished' : Prop} (before : List α) {rest : List α} (hf : finished' → finished)
    (h : Progress finished rest (fun first => A (before ++ first)) w) : Progress finished' (before ++ rest) A w := by
  obtain ⟨first, hp, hall, hA⟩ := h
  exact ⟨before ++ first, (List.prefix_append_right_inj _).mpr hp, fun hd => by rw [hall (hf hd)], hA⟩

theorem progress_stable {all : List α} (h : ∀ first, (Y.contract i).Stable (A first)) :
    (Y.contract i).Stable (Progress finished all A) := by
  rintro s t hr ⟨first, hp, hall, hA⟩
  exact ⟨first, hp, hall, h first s t hr hA⟩

/-- Records for a source. -/
def addressed (source : SourceKey) (rs : List LogRecord) : List (SourceKey × LogRecord) := rs.map (source, ·)

/-- Records are sent in order, up to the first that is not taken. -/
theorem sendRecords_yields (rs : List LogRecord) (hs : Y.Entering j k source records w) :
    (Y.contract (.handler j)).Yields
      (fun r => Progress (r = .ok ()) (addressed source rs) fun first => Y.Entering j k source (records ++ first))
      (fun _ _ => False) (sendRecords source k rs) w := by
  have hfalse : ∀ _ : Status, (Y.contract (.handler j)).Stable fun _ => False := fun _ _ _ _ h => h
  induction rs generalizing records w with
  | nil =>
    unfold sendRecords
    refine Yields.pure (progress_stable fun _ => entering_stable) (.all ?_)
    simpa [addressed] using hs
  | cons record rest ih =>
    unfold sendRecords
    refine yields_call sound hfalse entering_stable (fun _ h => h.inv) hs (fun t S _ => ⟨S.waiting, S.holding⟩) ?_
    intro t x u S _ hu C hx
    obtain ⟨-, hh⟩ := record_eq_some.mp hx
    cases x with
    | error e =>
      refine Yields.pure (progress_stable fun _ => entering_stable) (.none (by simp) ?_)
      simpa using S.step hu C hh rfl (fun _ h => by cases h) rfl
    | ok _ =>
      -- the record is sent; its depth is reported before the next
      have S := S.send hu C hh
      refine yields_call sound hfalse entering_stable (fun _ h => h.inv) S (fun t S _ => ⟨S.waiting, trivial⟩) ?_
      intro t x u S _ hu C hx
      obtain ⟨-, hh⟩ := record_eq_some.mp hx
      have S := S.step hu C hh rfl (fun _ h => by cases h) rfl
      refine yields_call sound hfalse entering_stable (fun _ h => h.inv) S (fun t S _ => ⟨S.waiting, trivial⟩) ?_
      intro t x u S _ hu C hx
      obtain ⟨-, hh⟩ := record_eq_some.mp hx
      have S := S.step hu C hh rfl (fun _ h => by cases h) rfl
      refine (ih S).mono (fun r t h => ?_) fun _ _ h => h
      refine Progress.append [(source, record)] id ?_
      simp only [List.append_assoc] at h
      exact h

/-- The sender that a request gets is its own until it drops it. -/
theorem Sending.enter (S : Y.Sending j records w) (hI : Y.Inv w') (C : Y.Change (.handler j) w w')
    (hx : execAs Y.env (.handler j) (.senderFor source) w = some (k, w')) : Y.Entering j k source records w' := by
  obtain ⟨hexec, hh⟩ := record_eq_some.mp hx
  refine ⟨S.step hI C hh rfl (fun _ h => by cases h), ?_, ?_⟩
  · have hheld := S.inv.counts.held (.handler j) k
    unfold Holding
    rw [hh, countBy_cons, countBy_cons]
    simp only [opens, drops, decide_true, and_self, if_true, Bool.false_eq_true, and_false, if_false]
    omega
  · obtain ⟨hk, hw⟩ := result_eq hexec
    rw [← hw, ← hk]
    obtain ⟨c, hc, hsource⟩ := Writers.senderFor_source w.state.writers source
    simp [Writers.sourceOf, hc, hsource]

/-- The records of one resource. -/
theorem sendEntry_yields (hv : source.Valid) (rs : List LogRecord) (hs : Y.Sending j records w) :
    (Y.contract (.handler j)).Yields (fun _ => Y.Sending j (records ++ addressed source rs))
      (fun _ => Progress False (addressed source rs) fun first => Y.Sending j (records ++ first))
      (sendEntry source rs) w := by
  have hE : ∀ _ : Status, (Y.contract (.handler j)).Stable
      (Progress False (addressed source rs) fun first => Y.Sending j (records ++ first)) :=
    fun _ => progress_stable fun _ => sending_stable
  unfold sendEntry
  refine yields_call sound hE sending_stable (fun _ h => h.inv) hs (fun t S _ => ⟨S.waiting, hv⟩) ?_
  intro t k u S _ hu C hx
  refine Yields.bind hE ((sendRecords_yields rs (S.enter hu C hx)).mono ?_ fun _ _ h => h.elim)
  rintro r t ⟨first, hp, hall, S⟩
  refine yields_call sound hE entering_stable (fun _ h => h.inv) S (fun t S _ => ⟨S.waiting, S.holding⟩) ?_
  intro t x u S _ hu C hx
  obtain ⟨-, hh⟩ := record_eq_some.mp hx
  have S := S.toSending.step hu C hh rfl fun _ h => by cases h
  match r with
  | .ok () =>
    refine Yields.pure sending_stable ?_
    rw [← hall rfl]
    exact S
  | .error e => exact Yields.throw (hE e) ⟨first, hp, False.elim, S⟩

/-- Where the records of an entry go. -/
def placed (r : ResourceLogs) : List (SourceKey × LogRecord) :=
  match sourceFromResourceLogs r with
  | .ok source => addressed source r.records
  | .error _ => []

theorem exportEntries_yields {h : LogsHandler} {token : TokenContext} (entries : List ResourceLogs)
    (hs : Y.Sending j records w) :
    (Y.contract (.handler j)).Yields (fun _ => Y.Sending j (records ++ entries.flatMap placed))
      (fun _ => Progress False (entries.flatMap placed) fun first => Y.Sending j (records ++ first))
      (exportEntries h token entries) w := by
  induction entries generalizing records w with
  | nil =>
    unfold exportEntries
    refine Yields.pure sending_stable ?_
    simpa using hs
  | cons entry rest ih =>
    have hE : ∀ _ : Status, (Y.contract (.handler j)).Stable
        (Progress False ((entry :: rest).flatMap placed) fun first => Y.Sending j (records ++ first)) :=
      fun _ => progress_stable fun _ => sending_stable
    unfold exportEntries
    cases hadmit : admitEntry token entry with
    | error e => exact Yields.throw (hE e) (.none id (by simpa using hs))
    | ok source =>
    obtain ⟨hsource, hv, -⟩ := admitEntry_ok hadmit
    have hplaced : placed entry = addressed source entry.records := by rw [placed, hsource]
    refine yields_call sound hE sending_stable (fun _ h => h.inv) hs (fun t S _ => ⟨S.waiting, trivial⟩) ?_
    intro t x u S _ hu C hx
    obtain ⟨-, hh⟩ := record_eq_some.mp hx
    have S := S.step hu C hh rfl fun _ h => by cases h
    cases x with
    | false => exact Yields.throw (hE ⟨.resourceExhausted, "log rate limit exceeded"⟩) (.none id (by simpa using S))
    | true =>
    refine Yields.bind hE ((sendEntry_yields hv entry.records S).mono (fun _ t S => ?_) fun _ t h => ?_)
    · refine (ih S).mono (fun _ t h => ?_) fun _ t h => ?_
      · rw [List.flatMap_cons, hplaced, ← List.append_assoc]
        exact h
      · rw [List.flatMap_cons, hplaced]
        refine Progress.append _ id ?_
        simpa only [List.append_assoc] using h
    · rw [List.flatMap_cons, hplaced]
      exact h.cut

theorem validateEntries_yields {h : LogsHandler} {token : TokenContext} (entries : List ResourceLogs)
    (hs : Y.Sending j records w) :
    (Y.contract (.handler j)).Yields (fun _ => Y.Sending j records) (fun _ => Y.Sending j records)
      (validateEntries h token entries) w := by
  induction entries generalizing w with
  | nil =>
    unfold validateEntries
    exact Yields.pure sending_stable hs
  | cons entry rest ih =>
    have hstep : ∀ {op : ServerOp} {status : Status},
        (∀ t, Y.Sending j records t → Y.Legal (.handler j) op t) →
        (∀ x status, (⟨.handler j, op, x⟩ : LogEvent κ) ≠ ⟨.handler j, .observe (.request .logs status), ()⟩) →
        (∀ x, sends (⟨.handler j, op, x⟩ : LogEvent κ) = none) →
        (Y.contract (.handler j)).Yields (fun _ => Y.Sending j records) (fun _ => Y.Sending j records)
          ((call op >>= fun _ => throw status) : Handler Status Unit) w := by
      intro op status hl he hsends
      refine yields_call sound (fun _ => sending_stable) sending_stable (fun _ h => h.inv) hs (fun t S _ => hl t S) ?_
      intro t x u S _ hu C hx
      obtain ⟨-, hh⟩ := record_eq_some.mp hx
      exact Yields.throw sending_stable (S.step hu C hh (hsends x) (he x))
    unfold validateEntries
    split
    · exact ih hs
    · exact hstep (fun t S => ⟨S.waiting, trivial⟩) (fun _ _ h => by cases h) fun _ => rfl
    · exact hstep (fun t S => ⟨S.waiting, trivial⟩) (fun _ _ h => by cases h) fun _ => rfl

/-- A request that is answered well has sent all its records, any other a first part. -/
theorem exportInner_yields {request : LogsRequest} {h : LogsHandler} (hs : Y.Sending j [] w) :
    (Y.contract (.handler j)).Yields (fun _ => Y.Sending j (request.resourceLogs.flatMap placed))
      (fun _ => Progress False (request.resourceLogs.flatMap placed) (Y.Sending j)) (exportInner h request) w := by
  have hE : ∀ _ : Status, (Y.contract (.handler j)).Stable
      (Progress False (request.resourceLogs.flatMap placed) (Y.Sending j)) :=
    fun _ => progress_stable fun _ => sending_stable
  unfold exportInner
  cases validateProtocolMetadata request.version with
  | error e => exact Yields.throw (hE e) (.none id hs)
  | ok _ =>
  cases tokenFromExtensions request.token with
  | error e => exact Yields.throw (hE e) (.none id hs)
  | ok token =>
  show (Y.contract (.handler j)).Yields _ _ (validateEntries h token request.resourceLogs >>= fun _ =>
    exportEntries h token request.resourceLogs) w
  refine Yields.bind hE ((validateEntries_yields request.resourceLogs hs).mono (fun _ t S => ?_) fun _ t S => ?_)
  · simpa using exportEntries_yields request.resourceLogs S
  · exact .none id S

/-- A request that has been answered: it has told the writers the first of its records, and all of them if
it was accepted. -/
structure Answered (Y : LogSystem κ) (j : κ) (r : Except Status Unit) (w : LogState κ) : Prop where
  inv : Y.Inv w
  replied : Replied j w.history
  told : Progress (r = .ok ()) ((Y.requests j).resourceLogs.flatMap placed)
    (fun first w => told j w = first.map fun x => (some x.1, logRecordJson x.2)) w

theorem answered_stable (r : Except Status Unit) : (Y.contract (.handler j)).Stable (Y.Answered j r) := by
  refine stable_of (fun _ h => h.inv) fun s t ht F A => ⟨ht, (replied_apart F.apart).mpr A.replied, ?_⟩
  obtain ⟨first, hp, hall, htold⟩ := A.told
  exact ⟨first, hp, hall, (told_frame A.inv F).trans htold⟩

/-- **A request against any company.** -/
theorem exportLogs_holds (hs : Y.Sending j [] w) :
    (Y.contract (.handler j)).Holds (Y.Answered j) (exportLogs Y.handler (Y.requests j)) w := by
  unfold exportLogs
  refine Holds.andThen (exportInner_yields hs) fun r t ht => ?_
  have hprogress : Progress (r = .ok ()) ((Y.requests j).resourceLogs.flatMap placed) (Y.Sending j) t := by
    cases r with
    | ok _ => exact .all ht
    | error e =>
      obtain ⟨first, hp, -, S⟩ := ht
      exact ⟨first, hp, nofun, S⟩
  obtain ⟨first, hp, hall, S⟩ := hprogress
  refine holds_call sound sending_stable (fun _ h => h.inv) S (fun t S _ => ⟨S.waiting, trivial⟩) ?_
  intro t x u S _ hu C hx
  obtain ⟨-, hh⟩ := record_eq_some.mp hx
  refine Holds.done (answered_stable r) ⟨hu, ?_, first, hp, hall, ?_⟩
  · rw [hh]
    exact ⟨_, List.mem_cons_self ..⟩
  · show told j u = _
    rw [told_change S.inv C hh, S.told]
    simp [sends]

end LogSystem

end Detritus.Server
