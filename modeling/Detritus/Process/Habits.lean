import Detritus.Process.Discipline

/-! Calls that a task never makes, and calls that it makes last.

Both can be seen from a task's program alone, and they are so in every execution, whatever
the other tasks do. -/
namespace Detritus.Process

/-- Calls that are never made, and calls that no other comes after. -/
structure Habits (S : Interface) where
  /-- The answers that are possible. -/
  fits : (op : S.Op) → S.Answer op → Prop
  never : S.Op → Prop
  last : S.Op → Prop

namespace Habits
variable {S : Interface} {ι α β : Type} (H : Habits S)

def Keeps : Program S α → Prop
  | .done _ => True
  | .call op next => ¬ H.never op ∧ (H.last op → ∀ x, ∃ a, next x = .done a) ∧ ∀ x, H.fits op x → Keeps (next x)

variable {H} {p : Program S α}

theorem Keeps.map (h : H.Keeps p) (f : α → β) : H.Keeps (p >>= fun a => .done (f a)) := by
  induction p with
  | done a => trivial
  | call op next ih =>
    obtain ⟨hnever, hlast, hnext⟩ := h
    refine ⟨hnever, fun hop x => ?_, fun x hx => ih x (hnext x hx)⟩
    obtain ⟨a, ha⟩ := hlast hop x
    exact ⟨f a, congrArg (· >>= fun a => Program.done (f a)) ha⟩

/-- A part that makes neither kind of call, and the rest. -/
theorem Keeps.bind {D : Discipline S ι} {i : ι} {Q : α → List (Event S ι) → Prop} {h : List (Event S ι)}
    {f : α → Program S β} (hp : D.Obeys i Q p h) (hfits : ∀ op x, H.fits op x → D.fits op x)
    (hmay : ∀ op h, D.may i op h → ¬ H.never op ∧ ¬ H.last op) (hf : ∀ a, H.Keeps (f a)) : H.Keeps (p >>= f) := by
  induction p generalizing h with
  | done a => exact hf a
  | call op next ih =>
    obtain ⟨hnever, hlast⟩ := hmay op h hp.1
    exact ⟨hnever, fun hop => absurd hop hlast, fun x hx => ih x (hp.2 x (hfits op x hx))⟩

theorem Keeps.of_obeys {D : Discipline S ι} {i : ι} {Q : α → List (Event S ι) → Prop} {h : List (Event S ι)}
    (hp : D.Obeys i Q p h) (hfits : ∀ op x, H.fits op x → D.fits op x)
    (hmay : ∀ op h, D.may i op h → ¬ H.never op ∧ ¬ H.last op) : H.Keeps p := by
  induction p generalizing h with
  | done a => trivial
  | call op next ih =>
    obtain ⟨hnever, hlast⟩ := hmay op h hp.1
    exact ⟨hnever, fun hop => absurd hop hlast, fun x hx => ih x (hp.2 x (hfits op x hx))⟩

end Habits

/-! ### In company -/

section Pool
variable {S : Interface} {ι σ : Type} {γ : ι → Type} [DecidableEq ι] {P : Pool S ι (Recorded S ι σ) γ}
  {M : ι → Nat → Machine S σ}

/-- The task makes no more calls. -/
def Config.Over (c : Config P) (i : ι) : Prop := c.thread i = none ∨ ∃ a, c.Finished i a

omit [DecidableEq ι] in
theorem Config.Over.of_thread {c d : Config P} {i : ι} (h : c.Over i) (hthread : d.thread i = c.thread i) :
    d.Over i := by
  unfold Config.Over Config.Finished
  rw [hthread]
  exact h

/-- Tasks without loops, over a world that notes who called; a stop is not noted. -/
structure Pool.Straight (P : Pool S ι (Recorded S ι σ) γ) (M : ι → Nat → Machine S σ) : Prop where
  exec : P.exec = fun i => record (M i) i
  stop : ∀ i w w', P.stop i w = some w' → w'.history = w.history
  once : ∀ i, IsEmpty (P.task i).Var

namespace Pool.Straight
variable (hP : P.Straight M) {allows : ι → S.Op → Recorded S ι σ → Prop} {c d : Config P} {i : ι}
include hP

/-- What a move adds to the history. -/
theorem step_history (hs : c.Step allows d) : d.world.history = c.world.history ∨
    ∃ e : Event S ι, d.world.history = e :: c.world.history ∧ ¬ c.Over e.task := by
  cases hs with
  | @call i op next x s ht ha hx =>
    obtain ⟨-, hh⟩ := record_eq_some.mp (by rw [hP.exec] at hx; exact hx)
    refine .inr ⟨⟨i, op, x⟩, hh, ?_⟩
    rintro (hnone | ⟨a, ha⟩)
    · rw [ht] at hnone
      cases hnone
    · rw [Config.Finished, ht] at ha
      cases ha
  | turn ht => exact .inl rfl
  | stop ht hs => exact .inl (hP.stop _ _ _ hs)

theorem step_over (hs : c.Step allows d) (h : c.Over i) : d.Over i := by
  have hsame : ∀ j s t, (∀ a, c.thread j ≠ some (.done (.inr a))) → c.thread j ≠ none → (c.set j s t).Over i := by
    intro j s t hdone hnone
    have hij : i ≠ j := by
      rintro rfl
      rcases h with h | ⟨a, ha⟩
      · exact hnone h
      · exact hdone a ha
    exact h.of_thread (Config.set_other c s t hij)
  cases hs with
  | @call j op next x s ht ha hx => exact hsame j _ _ (fun a => by rw [ht]; nofun) (by rw [ht]; nofun)
  | @turn j v ht => exact (hP.once j).elim v
  | @stop j q s ht hs =>
    by_cases hij : i = j
    · subst hij
      exact .inl (Config.set_self ..)
    · exact h.of_thread (Config.set_other c s none hij)

/-- Who is over stays so, and calls nothing. -/
theorem reach_over (hr : c.Reach allows d) (h : c.Over i) : d.Over i ∧ Apart i c.world.history d.world.history := by
  induction hr with
  | refl => exact ⟨h, .refl⟩
  | step _ hs ih =>
    obtain ⟨hover, hapart⟩ := ih
    refine ⟨hP.step_over hs hover, ?_⟩
    rcases hP.step_history hs with hsame | ⟨e, hcons, hnot⟩
    · rw [hsame]
      exact hapart
    · rw [hcons]
      refine hapart.trans (.cons ?_)
      rintro rfl
      exact hnot hover

/-- Every task keeps its habits from here on, and who has made its last call is over. -/
def Habitual (H : ι → Habits S) (c : Config P) : Prop :=
  (∀ i p, c.thread i = some p → (H i).Keeps p) ∧
    (∀ e ∈ c.world.history, ¬ (H e.task).never e.op ∧ ((H e.task).last e.op → c.Over e.task))

theorem step_habitual {H : ι → Habits S} (hfits : ∀ i n op s x s', M i n op s = some (x, s') → (H i).fits op x)
    (hs : c.Step allows d) (h : Habitual H c) : Habitual H d := by
  obtain ⟨hkeeps, hevents⟩ := h
  have hbefore : ∀ e ∈ c.world.history, ¬ (H e.task).never e.op ∧ ((H e.task).last e.op → d.Over e.task) :=
    fun e he => ⟨(hevents e he).1, fun hlast => hP.step_over hs ((hevents e he).2 hlast)⟩
  cases hs with
  | @call i op next x s ht ha hx =>
    obtain ⟨hm, hh⟩ := record_eq_some.mp (by rw [hP.exec] at hx; exact hx)
    obtain ⟨hnever, hlast, hnext⟩ := hkeeps i _ ht
    refine ⟨Config.set_threads (fun p hp => ?_) fun j _ => hkeeps j, fun e he => ?_⟩
    · obtain rfl := Option.some.inj hp
      exact hnext x (hfits _ _ _ _ _ _ hm)
    · rw [Config.set_world, hh] at he
      rcases List.mem_cons.mp he with rfl | he
      · refine ⟨hnever, fun hop => .inr ?_⟩
        obtain ⟨a, ha⟩ := hlast hop x
        cases a with
        | inl v => exact (hP.once i).elim v
        | inr a => exact ⟨a, by rw [Config.Finished, Config.set_self, ha]⟩
      · exact hbefore e he
  | @turn j v ht => exact (hP.once j).elim v
  | @stop j q s ht hs =>
    refine ⟨Config.set_threads (fun p hp => absurd hp (by simp)) fun j _ => hkeeps j, fun e he => hbefore e ?_⟩
    rw [Config.set_world, hP.stop _ _ _ hs] at he
    exact he

theorem reach_habitual {H : ι → Habits S} (hfits : ∀ i n op s x s', M i n op s = some (x, s') → (H i).fits op x)
    (hr : c.Reach allows d) (h : Habitual H c) : Habitual H d := by
  induction hr with
  | refl => exact h
  | step _ hs ih => exact hP.step_habitual hfits hs ih

end Pool.Straight
end Pool

end Detritus.Process
