import Detritus.Client.SpoolSystem

/-! How long entries are kept after they were sent.

A clean-up removes an entry by the time its directory was last modified, which a move does
not change, and by one retention for all entries: the default, or the longest of those that
were moved in the same run. The entry's own retention and the time at which it was sent do
not enter. What the entry was promised is kept where the one outweighs the other. -/
namespace Detritus.Client.SpoolSystem
open Files Protocol Process

variable {ι κ : Type} [DecidableEq ι] [DecidableEq κ] {τ : Type} {h : List (ClientEvent τ)} {x : String}

/-- A number of days as a duration. -/
def daysSpan (days : UInt64) : Time := days.toNat * (24 * 60 * 60) * 1000000000

/-- The entry was moved by the call of this number. -/
def MovedAt {τ : Type} (spool : Path) (x : String) (n : Nat) (h : List (ClientEvent τ)) : Prop :=
  ∃ since e before, h = since ++ e :: before ∧ mark spool e = .moved x ∧ before.length = n

/-- The retention that an entry in `sent` has stored. -/
def ownRetention (Y : SpoolSystem ι κ) (w : ClientState (ι ⊕ κ)) (x : String) : Option UInt64 :=
  (w.state.disk.content (sentAt Y.dir x ++ ["sdk-config.json"])).bind fun bytes =>
    (Y.crates.uploadConfig bytes).toOption.map StoredUploadConfig.sentRetentionDays

/-- Where a clean-up removes an entry, the retention it goes by, counted from the modification
time it has read, lasts as long as the entry's own, counted from the move. -/
def Timely (Y : SpoolSystem ι κ) (i : ι ⊕ κ) (op : ClientOp) (w : ClientState (ι ⊕ κ)) : Prop :=
  ∀ x days metadata n r, op = .file (.removeDirAll (sentAt Y.dir x)) →
    Looked Y.dir Y.crates i x days metadata w.history → MovedAt Y.dir x n w.history → Y.ownRetention w x = some r →
    Y.env.clock n + daysSpan r ≤ metadata.modified + retentionSpan days

/-- What a process was told of the time, the clock had said before. -/
theorem now_told (Y : SpoolSystem ι κ) {disk : Disk} {allows : ι ⊕ κ → ClientOp → ClientState (ι ⊕ κ) → Prop}
    {c : Config Y.pool} (hc : (Y.start disk).Reach allows c) {i : ι ⊕ κ} {now : Time}
    (h : (⟨i, .now, now⟩ : ClientEvent (ι ⊕ κ)) ∈ c.world.history) :
    ∃ n < c.world.history.length, now = Y.env.clock n := by
  refine hc.invariant (fun w => ∀ i now, (⟨i, .now, now⟩ : ClientEvent (ι ⊕ κ)) ∈ w.history →
    ∃ n < w.history.length, now = Y.env.clock n) ?_ ?_ ?_ i now h
  · intro j op w x w' _ hx hw i now he
    obtain ⟨hm, hh⟩ := record_eq_some.mp hx
    rw [hh] at he ⊢
    rcases List.mem_cons.mp he with heq | he
    · obtain ⟨-, hop, hanswer⟩ := Process.Event.mk.inj heq
      subst hop
      obtain rfl := eq_of_heq hanswer
      exact ⟨_, Nat.lt_succ_self _, (result_eq hm).1.symm⟩
    · obtain ⟨n, hn, hclock⟩ := hw i now he
      exact ⟨n, Nat.lt_succ_of_lt hn, hclock⟩
  · intro j w w' hs hw
    rw [Y.straight.stop j w w' hs]
    exact hw
  · intro i now he
    cases he

/-- **An entry that was sent is kept for its own retention, in executions whose removals are timely.** -/
theorem kept_for_retention (Y : SpoolSystem ι κ) {disk : Disk} (hstart : Orderly Y.dir Y.env disk)
    (hclock : Monotone Y.env.clock) {c d : Config Y.pool} (hc : (Y.start disk).Reach Y.Timely c)
    (hs : c.Step Y.Timely d) {e : ClientEvent (ι ⊕ κ)} (he : d.world.history = e :: c.world.history) {x : String}
    (hremoved : mark Y.dir e = .removed x) {n : Nat} (hmoved : MovedAt Y.dir x n c.world.history) {r : UInt64}
    (hown : Y.ownRetention c.world x = some r) :
    Y.env.clock n + daysSpan r ≤ Y.env.clock c.world.history.length := by
  have hany : ∀ (i : ι ⊕ κ) (op : ClientOp) w, Y.Timely i op w → True := fun _ _ _ _ => trivial
  have hreach := hc.mono hany
  -- the removal is a call of a clean-up that has found the entry too old
  obtain ⟨hexpired, htimely⟩ : Expired Y.dir Y.crates e.task x c.world.history ∧ Y.Timely e.task e.op c.world := by
    cases hs with
    | @call i op next v w ht ha hx =>
      have hinv := reach_inv hstart hreach
      have hstep := (reach_at hstart hreach i _ ht c.world (Relies.refl i _) trivial v w hx).1 hinv
      obtain rfl := (List.cons.inj (he.symm.trans (record_eq_some.mp hx).2)).1
      have heffect := hstep.called he
      rw [hremoved] at heffect
      exact ⟨heffect.2.expired, ha⟩
    | turn _ => exact absurd he.symm (List.cons_ne_self e _)
    | @stop i q w ht hs => exact absurd (he.symm.trans (Y.straight.stop _ _ _ hs)) (List.cons_ne_self e _)
  obtain ⟨days, metadata, now, hlooked, hnow, hold⟩ := hexpired
  have hop := mark_from Y.dir e
  rw [hremoved] at hop
  have hlasts := htimely x days metadata n r hop hlooked hmoved hown
  obtain ⟨k, hk, rfl⟩ := Y.now_told hc hnow
  calc Y.env.clock n + daysSpan r
    _ ≤ metadata.modified + retentionSpan days := hlasts
    _ ≤ Y.env.clock k := Nat.le_of_lt (Nat.add_lt_of_lt_sub hold)
    _ ≤ Y.env.clock c.world.history.length := hclock (Nat.le_of_lt hk)

/-! ### Two runs -/

theorem movedAt_of_marks {spool : Path} {k : Nat} (hk : (h.map (mark spool))[k]? = some (.moved x)) :
    MovedAt spool x (h.length - (k + 1)) h := by
  rw [List.getElem?_map, Option.map_eq_some_iff] at hk
  obtain ⟨e, he, hmark⟩ := hk
  obtain ⟨hlt, rfl⟩ := List.getElem?_eq_some_iff.mp he
  refine ⟨h.take k, h[k], h.drop (k + 1), ?_, hmark, List.length_drop⟩
  rw [← List.drop_eq_getElem_cons hlt, List.take_append_drop]

theorem marks_of_movedAt {spool : Path} {n : Nat} (hm : MovedAt spool x n h) :
    ∃ k, (h.map (mark spool))[k]? = some (.moved x) ∧ n + (k + 1) = h.length := by
  obtain ⟨since, e, before, rfl, hmark, rfl⟩ := hm
  refine ⟨since.length, ?_, ?_⟩
  · rw [List.map_append, List.getElem?_append_right (by simp), List.length_map, Nat.sub_self]
    exact congrArg some hmark
  · rw [List.length_append, List.length_cons]
    omega

/-- The clock stands still but for one jump, by a hundred days. -/
def jump (m n : Nat) : Time := if n < m then 0 else daysSpan 100

theorem jump_monotone (m : Nat) : Monotone (jump m) := by
  intro a b hab
  unfold jump
  split
  · exact Nat.zero_le _
  · rw [if_neg (by omega)]

/-- The name of the only entry. -/
def first : String := "00000000-0000-0000-0000-000000000000"

/-- The marks of a capture and a run up to where the entry is to be removed, the latest first. -/
def marksBefore : List Mark :=
  [.other, .other, .other, .moved first, .other, .acked first, .other, .other, .other, .other,
    .listed [["spool", "pending", first]], .other, .other, .locked, .other, .other, .other, .other, .other, .other,
    .other, .other, .other, .opened first, .issued (.repeated 0)]

theorem length_marksBefore (hmarks : h.map (mark ["spool"]) = marksBefore) : h.length = 25 := by
  rw [← List.length_map (mark ["spool"]), hmarks]
  rfl

/-- The entry that a mark tells was moved. -/
def movedEntry : Mark → Option String
  | .moved x => some x
  | _ => none

/-- One entry was moved, by the call of number 21. -/
theorem movedAt_marksBefore (hmarks : h.map (mark ["spool"]) = marksBefore) {n : Nat} :
    MovedAt ["spool"] x n h ↔ x = first ∧ n = 21 := by
  constructor
  · intro hmoved
    obtain ⟨k, hk, hn⟩ := marks_of_movedAt hmoved
    rw [length_marksBefore hmarks] at hn
    rw [hmarks] at hk
    have hall : ∀ k < 25, ∀ y ∈ marksBefore[k]?.bind movedEntry, y = first ∧ k = 3 := by decide +kernel
    obtain ⟨rfl, hthree⟩ := hall k (by omega) x (congrArg (·.bind movedEntry) hk)
    exact ⟨rfl, by omega⟩
  · rintro ⟨rfl, rfl⟩
    have hthird : (h.map (mark ["spool"]))[3]? = some (.moved first) := by
      rw [hmarks]
      rfl
    have hat := movedAt_of_marks hthird
    rwa [length_marksBefore hmarks] at hat

/-- Anything but a removal. -/
def sparing : ClientOp → Bool
  | .file (.removeDirAll _) => false
  | _ => true

/-- The entry is about to be removed. -/
def aboutToRemove (m : Nat) (c : Config (oneOfEach (jump m)).pool) : Bool :=
  c.world.history.map (mark ["spool"]) = marksBefore && (oneOfEach (jump m)).ownRetention c.world first = some 30 &&
    (c.move (fun _ _ _ => true) (.run (.inl ()))).any fun d =>
      d.world.history.head?.map (mark ["spool"]) = some (.removed first)

theorem removal_reached {m : Nat} {allows : Unit ⊕ Unit → ClientOp → ClientState (Unit ⊕ Unit) → Prop}
    (hallows : ∀ i op w, sparing op = true → allows i op w)
    (hruns : (((oneOfEach (jump m)).start .empty).runs (fun _ op _ => sparing op) (captureThenShip 16)).any
      (aboutToRemove m) = true) :
    ∃ (c d : Config (oneOfEach (jump m)).pool) (e : ClientEvent (Unit ⊕ Unit)),
      ((oneOfEach (jump m)).start .empty).Reach allows c ∧ c.Step (fun _ _ _ => True) d ∧
      d.world.history = e :: c.world.history ∧ mark ["spool"] e = .removed first ∧
      c.world.history.map (mark ["spool"]) = marksBefore ∧ (oneOfEach (jump m)).ownRetention c.world first = some 30 := by
  obtain ⟨c, hmoves, hc⟩ := (Option.any_eq_true ..).mp hruns
  have hreach : ((oneOfEach (jump m)).start .empty).Reach allows c := Config.runs_reach hallows _ hmoves
  rw [aboutToRemove, Bool.and_eq_true, Bool.and_eq_true, decide_eq_true_eq, decide_eq_true_eq] at hc
  obtain ⟨⟨hmarks, hown⟩, hmove⟩ := hc
  obtain ⟨d, hd, hhead⟩ := (Option.any_eq_true ..).mp hmove
  rw [decide_eq_true_eq] at hhead
  have hstep : c.Step (fun _ _ _ => True) d := Config.move_step (fun _ _ _ _ => trivial) hd
  rcases (oneOfEach (jump m)).straight.step_history hstep with hsame | ⟨e, hcons, -⟩
  · rw [hsame, ← List.head?_map, hmarks] at hhead
    cases hhead
  · rw [hcons] at hhead
    exact ⟨c, d, e, hreach, hstep, hcons, Option.some.inj hhead, hmarks, hown⟩

/-- A hundred days after its capture an entry that asks for thirty is removed by the run that sends it. -/
theorem removed_when_sent : ∃ (c d : Config (oneOfEach (jump 9)).pool) (e : ClientEvent (Unit ⊕ Unit)) (n : Nat),
    Monotone (oneOfEach (jump 9)).env.clock ∧ Orderly ["spool"] (oneOfEach (jump 9)).env .empty ∧
    ((oneOfEach (jump 9)).start .empty).Reach (fun _ _ _ => True) c ∧ c.Step (fun _ _ _ => True) d ∧
    d.world.history = e :: c.world.history ∧ mark ["spool"] e = .removed first ∧
    MovedAt ["spool"] first n c.world.history ∧ (oneOfEach (jump 9)).ownRetention c.world first = some 30 ∧
    (oneOfEach (jump 9)).env.clock c.world.history.length < (oneOfEach (jump 9)).env.clock n + daysSpan 30 := by
  obtain ⟨c, d, e, hreach, hstep, hcons, hremoved, hmarks, hown⟩ :=
    removal_reached (m := 9) (fun _ _ _ _ => trivial) (by decide +kernel)
  refine ⟨c, d, e, 21, jump_monotone 9, empty_orderly _ _, hreach, hstep, hcons, hremoved,
    (movedAt_marksBefore hmarks).mpr ⟨rfl, rfl⟩, hown, ?_⟩
  rw [length_marksBefore hmarks]
  decide

/-- Whatever is read from an entry asks for thirty days, so no clean-up goes by less. -/
theorem thirty_days_used {m : Nat} {i : Unit ⊕ Unit} {days : UInt64} {h : List (ClientEvent (Unit ⊕ Unit))}
    (hu : Uses ["spool"] (oneOfEach (jump m)).crates i days h) : daysSpan 30 ≤ retentionSpan days := by
  rcases hu with ⟨-, rfl⟩ | ⟨⟨x, -, bytes, config, -, hconfig, hdays⟩, -⟩
  · decide
  · obtain rfl : (⟨"http://localhost/", 30⟩ : StoredUploadConfig) = config := Except.ok.inj hconfig
    rw [← hdays]
    decide

/-- An entry that is sent when it is captured, and removed a hundred days later. -/
theorem kept_for_retention_thirty : ∃ (c d : Config (oneOfEach (jump 22)).pool) (e : ClientEvent (Unit ⊕ Unit)),
    ((oneOfEach (jump 22)).start .empty).Reach (oneOfEach (jump 22)).Timely c ∧
    c.Step (oneOfEach (jump 22)).Timely d ∧ d.world.history = e :: c.world.history ∧
    mark ["spool"] e = .removed first ∧ MovedAt ["spool"] first 21 c.world.history ∧
    (oneOfEach (jump 22)).env.clock 21 + daysSpan 30 ≤ (oneOfEach (jump 22)).env.clock c.world.history.length := by
  have hsparing : ∀ i op w, sparing op = true → (oneOfEach (jump 22)).Timely i op w := by
    intro i op w hop x days metadata n r heq
    rw [heq] at hop
    cases hop
  obtain ⟨c, d, e, hreach, hstep, hcons, hremoved, hmarks, hown⟩ :=
    removal_reached (m := 22) hsparing (by decide +kernel)
  have htimely : ∀ i op, (oneOfEach (jump 22)).Timely i op c.world := by
    intro i op x days metadata n r _ ⟨_, _, _, _, huses⟩ hmoved hr
    obtain ⟨rfl, rfl⟩ := (movedAt_marksBefore hmarks).mp hmoved
    rw [hown] at hr
    obtain rfl := Option.some.inj hr
    calc (oneOfEach (jump 22)).env.clock 21 + daysSpan 30
      _ = daysSpan 30 := Nat.zero_add _
      _ ≤ retentionSpan days := thirty_days_used huses
      _ ≤ metadata.modified + retentionSpan days := Nat.le_add_left ..
  have hmoved := (movedAt_marksBefore hmarks).mpr ⟨rfl, rfl⟩
  have hstep' := hstep.mono fun i op _ => htimely i op
  exact ⟨c, d, e, hreach, hstep', hcons, hremoved, hmoved,
    kept_for_retention _ (empty_orderly _ _) (jump_monotone 22) hreach hstep' hcons hremoved hmoved hown⟩

end Detritus.Client.SpoolSystem
