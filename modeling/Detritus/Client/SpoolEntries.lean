import Detritus.Client.Spool

/-! What becomes of an entry.

An entry that is there stays, in `pending` or in `sent`, until a clean-up removes it, and
its name is not used again. Only the process that owns the name changes its files. -/
namespace Detritus.Client
open Files Protocol Process

section Entries
variable {τ : Type} {spool : Path} {C : Crates} {env : Env} {start : Disk} {i j : τ} {s t : ClientState τ} {x : String}

/-- An entry has one of its two places. -/
def Present (spool : Path) (w : ClientState τ) (x : String) : Prop := IsPending spool w x ∨ IsSent spool w x

/-- The files of an entry by their paths in it, wherever it is. -/
def entryFiles (spool : Path) (w : ClientState τ) (x : String) : Option (Path → Option Bytes) :=
  if (w.state.disk.dir (pendingAt spool x)).isSome then some fun rest => w.state.disk.content (pendingAt spool x ++ rest)
  else if (w.state.disk.dir (sentAt spool x)).isSome then some fun rest => w.state.disk.content (sentAt spool x ++ rest)
  else none

/-- A clean-up has removed the entry, which it had found too old. -/
def CleanedUp (spool : Path) (C : Crates) (x : String) (h : List (ClientEvent τ)) : Prop :=
  ∃ since e before, h = since ++ e :: before ∧ mark spool e = .removed x ∧ Expired spool C e.task x before

theorem CleanedUp.append {h : List (ClientEvent τ)} (hc : CleanedUp spool C x h) (new : List (ClientEvent τ)) :
    CleanedUp spool C x (new ++ h) := by
  obtain ⟨since, e, before, rfl, hmark, hexpired⟩ := hc
  exact ⟨new ++ since, e, before, (List.append_assoc ..).symm, hmark, hexpired⟩

theorem SameEntry.present (h : SameEntry spool x s.state.disk t.state.disk) :
    Present spool t x ↔ Present spool s x := by
  rw [Present, IsPending, IsSent, h.pending, h.sent, Present, IsPending, IsSent]

theorem SameEntry.entryFiles_eq (h : SameEntry spool x s.state.disk t.state.disk) :
    entryFiles spool t x = entryFiles spool s x := by
  unfold entryFiles
  simp only [h.pending, h.sent, h.pendingFiles, h.sentFiles]

/-- An entry that moves takes its files along. -/
theorem Moves.entryFiles_eq (h : Moves spool i x s t) :
    IsSent spool t x ∧ entryFiles spool t x = entryFiles spool s x := by
  have hsent : IsSent spool t x := by
    rw [IsSent, h.sent]
    exact h.pending
  refine ⟨hsent, ?_⟩
  calc entryFiles spool t x
    _ = some fun rest => t.state.disk.content (sentAt spool x ++ rest) := (if_neg h.gone).trans (if_pos hsent)
    _ = some fun rest => s.state.disk.content (pendingAt spool x ++ rest) := by simp only [h.files]
    _ = entryFiles spool s x := (if_pos h.pending).symm

/-- A call touches no entry but the one that its mark names and those of the process itself. -/
theorem Effect.entry {m : Mark} (h : Effect spool C env j s t m) (x : String) :
    SameEntry spool x s.state.disk t.state.disk ∨ m = .opened x ∧ Opens spool j x s t ∨
      m = .moved x ∧ Moves spool j x s t ∨ m = .removed x ∧ Removes spool C j x s t ∨
      Owns spool j x s.history ∧ Writes spool j s t := by
  cases m with
  | issued u => exact .inl (h.2.2 x)
  | locked => exact .inl (h.2.2.2 x)
  | unlocked => exact .inl (h.2.2 x)
  | listed entries => exact .inl (h.2.2 x)
  | acked y => exact .inl (h.2.2.2 x)
  | opened y =>
    by_cases hxy : x = y
    · exact .inr (.inl ⟨hxy ▸ rfl, hxy ▸ h.2⟩)
    · exact .inl (h.2.others x hxy)
  | moved y =>
    by_cases hxy : x = y
    · exact .inr (.inr (.inl ⟨hxy ▸ rfl, hxy ▸ h.2⟩))
    · exact .inl (h.2.others x hxy)
  | removed y =>
    by_cases hxy : x = y
    · exact .inr (.inr (.inr (.inl ⟨hxy ▸ rfl, hxy ▸ h.2⟩)))
    · exact .inl (h.2.others x hxy)
  | other =>
    by_cases hown : Owns spool j x s.history
    · exact .inr (.inr (.inr (.inr ⟨hown, h.2⟩)))
    · exact .inl (h.2.others x hown)

theorem Writes.present (h : Writes spool j s t) : Present spool t x ↔ Present spool s x := by
  rw [Present, h.pending, IsSent, h.sent]
  rfl

/-- **What one step does to an entry that is there.** -/
theorem SpoolStep.entry (hi : SpoolInv spool env start s) (hstart : Orderly spool env start)
    (h : SpoolStep spool C env j s t) (hx : Present spool s x) :
    (Present spool t x ∧ ((∀ e : ClientEvent τ, t.history = e :: s.history → ¬ Owns spool e.task x s.history) →
        entryFiles spool t x = entryFiles spool s x)) ∨
      ¬ Present spool t x ∧ CleanedUp spool C x t.history := by
  rcases h.effect with ⟨-, hidle, -⟩ | ⟨e, htask, hhistory, heffect⟩
  · exact .inl ⟨(hidle x).present.mpr hx, fun _ => (hidle x).entryFiles_eq⟩
  rcases heffect.entry x with hsame | ⟨-, hopens⟩ | ⟨-, hmoves⟩ | ⟨hm, hremoves⟩ | ⟨howns, hwrites⟩
  · exact .inl ⟨hsame.present.mpr hx, fun _ => hsame.entryFiles_eq⟩
  · obtain ⟨hpending, hsent, -⟩ := hi.unused hstart hopens.owns hopens.first
    exact (hx.elim hpending hsent).elim
  · obtain ⟨hsent, hfiles⟩ := hmoves.entryFiles_eq
    exact .inl ⟨.inr hsent, fun _ => hfiles⟩
  · refine .inr ⟨?_, [], e, s.history, hhistory, hm, htask ▸ hremoves.expired⟩
    rintro (hpending | hsent)
    · rw [IsPending, hremoves.pending] at hpending
      exact hi.apart x hpending hremoves.sent
    · exact hremoves.gone hsent
  · exact .inl ⟨hwrites.present.mpr hx, fun hown => absurd howns (htask ▸ hown e hhistory)⟩

/-- An entry that is gone does not come back. -/
theorem SpoolStep.gone (hi : SpoolInv spool env start s) (hstart : Orderly spool env start)
    (h : SpoolStep spool C env j s t) (hused : Used spool start x s.history) (hx : ¬ Present spool s x) :
    ¬ Present spool t x := by
  rcases h.effect with ⟨-, hidle, -⟩ | ⟨e, htask, hhistory, heffect⟩
  · rwa [(hidle x).present]
  rcases heffect.entry x with hsame | ⟨-, hopens⟩ | ⟨-, hmoves⟩ | ⟨-, hremoves⟩ | ⟨-, hwrites⟩
  · rwa [hsame.present]
  · exact absurd (hi.owner_of_used hstart (List.Subset.refl _) hused hopens.owns).2 hopens.first
  · exact absurd (.inl hmoves.pending) hx
  · exact absurd (.inr hremoves.sent) hx
  · rwa [hwrites.present]

/-- A step that is noted is a call. -/
theorem SpoolStep.called (h : SpoolStep spool C env i s t) {e : ClientEvent τ} (hh : t.history = e :: s.history) :
    Effect spool C env i s t (mark spool e) := by
  rcases h.effect with ⟨hsame, -⟩ | ⟨e', -, hcons, heffect⟩
  · exact absurd (hh.symm.trans hsame) (List.cons_ne_self e _)
  · obtain rfl := (List.cons.inj (hh.symm.trans hcons)).1
    exact heffect

/-- One that is not is a stop. -/
theorem SpoolStep.stopped (h : SpoolStep spool C env i s t) (hh : t.history = s.history) :
    holder spool s = some i ∧ holder spool t = none ∨ holder spool s ≠ some i ∧ holder spool t = holder spool s := by
  rcases h.effect with ⟨-, -, hholder⟩ | ⟨e, -, hcons, -⟩
  · exact hholder
  · exact absurd (hcons.symm.trans hh) (List.cons_ne_self e _)

/-- The lock changes hands only by being taken and released. -/
theorem Effect.holder_eq {m : Mark} (h : Effect spool C env i s t m) (hlocked : m ≠ .locked) (hunlocked : m ≠ .unlocked) :
    holder spool t = holder spool s := by
  cases m with
  | locked => exact absurd rfl hlocked
  | unlocked => exact absurd rfl hunlocked
  | issued u => exact h.2.1
  | listed entries => exact h.2.1
  | acked y => exact h.2.1
  | opened y => exact h.1
  | moved y => exact h.1
  | removed y => exact h.1
  | other => exact h.1

end Entries

end Detritus.Client
