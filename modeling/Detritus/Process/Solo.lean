import Detritus.Process.Discipline

/-! A program that has the world to itself.

The rules are those of rely and guarantee, with nothing to rely on: the world is as the
last call left it. Where a result assumes something of the calls that are made, `Meets`
says that every call of a run is of that kind. -/
namespace Detritus.Process
variable {S : Interface} {σ α β ε : Type} {s : σ} {op : S.Op}

/-- Every call of the run is one that is allowed. -/
def Program.Meets (M : Machine S σ) (allows : S.Op → σ → Prop) : Program S α → σ → Prop
  | .done _, _ => True
  | .call op next, s => allows op s ∧ ∀ x t, M op s = some (x, t) → (next x).Meets M allows t

/-- What the world keeps to, all calls keep to. -/
theorem Program.Meets.of_invariant {M : Machine S σ} {allows : S.Op → σ → Prop} {I : σ → Prop}
    (hallows : ∀ op s, I s → allows op s) (hstep : ∀ op s x t, I s → M op s = some (x, t) → I t) (p : Program S α)
    (hs : I s) : p.Meets M allows s := by
  induction p generalizing s with
  | done a => trivial
  | call op next ih => exact ⟨hallows op s hs, fun x t hx => ih x (hstep op s x t hs hx)⟩

/-- What a discipline lets a program call, it calls only where that is allowed. -/
theorem Discipline.Obeys.meets {ι : Type} {D : Discipline S ι} {i : ι} {M : Nat → Machine S σ}
    {Q : α → List (Event S ι) → Prop} {p : Program S α} {s : Recorded S ι σ} (hp : D.Obeys i Q p s.history)
    (I : σ → Prop) (hs : I s.state) (hfits : ∀ n op t x t', I t → M n op t = some (x, t') → D.fits op x)
    (hkeeps : ∀ n op t x t' h, I t → D.may i op h → M n op t = some (x, t') → I t')
    {allows : S.Op → Recorded S ι σ → Prop} (hallows : ∀ op t, D.may i op t.history → allows op t) :
    p.Meets (record M i) allows s := by
  induction p generalizing s with
  | done a => trivial
  | call op next ih =>
    refine ⟨hallows op s hp.1, fun x t hx => ?_⟩
    obtain ⟨hx, hh⟩ := record_eq_some.mp hx
    refine ih x ?_ (hkeeps _ _ _ _ _ _ hs hp.1 hx)
    rw [hh]
    exact hp.2 x (hfits _ _ _ _ _ hs hx)

/-- The call at which the program alone comes to a stop, and the world it leaves. -/
def Program.halts (M : Machine S σ) : Program S α → σ → Option (S.Op × σ)
  | .done _, _ => none
  | .call op next, s => match M op s with
    | some x => (next x.1).halts M x.2
    | none => some (op, s)

/-- The call that is not answered is one that is allowed, too. -/
theorem Program.Meets.halts {M : Machine S σ} {allows : S.Op → σ → Prop} {p : Program S α} {s t : σ}
    (h : p.Meets M allows s) (hp : p.halts M s = some (op, t)) : allows op t := by
  induction p generalizing s with
  | done a => cases hp
  | call op' next ih =>
    rw [Program.halts] at hp
    cases hx : M op' s with
    | none =>
      rw [hx] at hp
      obtain ⟨rfl, rfl⟩ := result_eq hp
      exact h.1
    | some x =>
      rw [hx] at hp
      exact ih x.1 (h.2 x.1 x.2 hx) hp

/-- The program alone, as long as its calls are permitted. -/
def Program.check (M : Machine S σ) (permits : S.Op → σ → Bool) : Program S α → σ → Option (α × σ)
  | .done a, s => some (a, s)
  | .call op next, s => if permits op s then (M op s).bind fun x => (next x.1).check M permits x.2 else none

theorem Program.meets_of_check {M : Machine S σ} {permits : S.Op → σ → Bool} {allows : S.Op → σ → Prop}
    (hp : ∀ op s, permits op s = true → allows op s) {p : Program S α} {r : α × σ}
    (h : p.check M permits s = some r) : p.Meets M allows s ∧ p.run M s = some r := by
  induction p generalizing s with
  | done a => exact ⟨trivial, h⟩
  | call op next ih =>
    unfold Program.check at h
    split at h
    · next hop =>
      obtain ⟨⟨x, t⟩, hx, h⟩ := Option.bind_eq_some_iff.mp h
      refine ⟨⟨hp op s hop, fun y u hy => ?_⟩, ?_⟩
      · obtain ⟨rfl, rfl⟩ := result_eq (hx.symm.trans hy)
        exact (ih x h).1
      · rw [Program.run_call, hx]
        exact (ih x h).2
    · cases h

namespace Contract
variable {M : Machine S σ} {allows : S.Op → σ → Prop} {f : α → ExceptT ε (Program S) β} {Q : α → σ → Prop}
  {E : ε → σ → Prop} {p : ExceptT ε (Program S) α}

/-- Nobody else does anything. -/
def solo (M : Machine S σ) (allows : S.Op → σ → Prop) : Contract S σ :=
  ⟨M, allows, Eq, fun _ _ => True, fun _ => rfl, Eq.trans⟩

theorem solo_stable (A : σ → Prop) : (solo M allows).Stable A := by
  rintro s t rfl h
  exact h

/-- What holds of a program is so at the end of its run. -/
theorem Holds.run {p : Program S α} {s t : σ} {a : α} (h : (solo M allows).Holds Q p s) (hm : p.Meets M allows s)
    (hr : p.run M s = some (a, t)) : Q a t := by
  induction p generalizing s with
  | done b =>
    obtain ⟨rfl, rfl⟩ := result_eq hr
    exact h s rfl
  | call op next ih =>
    obtain ⟨⟨x, u⟩, hx, hr⟩ := Option.bind_eq_some_iff.mp hr
    exact ih x (h s rfl hm.1 x u hx).2 (hm.2 x u hx) hr

theorem Holds.solo_done {a : α} (h : Q a s) : (solo M allows).Holds Q (.done a) s :=
  Holds.done (solo_stable _) h

theorem Holds.solo_call {Q : β → σ → Prop} {f : S.Answer op → Program S β}
    (h : ∀ x u, allows op s → M op s = some (x, u) → (solo M allows).Holds Q (f x) u) :
    (solo M allows).Holds Q (Program.perform op >>= f) s := by
  rintro t rfl ha x u hx
  exact ⟨trivial, h x u ha hx⟩

theorem Holds.solo_perform {Q : S.Answer op → σ → Prop} (h : ∀ x u, allows op s → M op s = some (x, u) → Q x u) :
    (solo M allows).Holds Q (Program.perform op) s := by
  rintro t rfl ha x u hx
  exact ⟨trivial, Holds.solo_done (h x u ha hx)⟩

theorem Yields.solo_pure {a : α} (h : Q a s) : (solo M allows).Yields Q E (Pure.pure a : ExceptT ε (Program S) α) s :=
  Yields.pure (solo_stable _) h

theorem Yields.solo_bind {Q : β → σ → Prop}
    (h : (solo M allows).Yields (fun a => (solo M allows).Yields Q E (f a)) E p s) :
    (solo M allows).Yields Q E (p >>= f) s :=
  Yields.bind (fun _ => solo_stable _) h

theorem Yields.solo_andThen {Q' : α → σ → Prop} {Q : β → σ → Prop} (h : (solo M allows).Yields Q' E p s)
    (hf : ∀ a t, Q' a t → (solo M allows).Yields Q E (f a) t) : (solo M allows).Yields Q E (p >>= f) s :=
  Yields.solo_bind (h.imp hf)

theorem Yields.solo_adapt {ε' : Type} {E : ε' → σ → Prop} {wrap : ε → ε'}
    (h : (solo M allows).Yields Q (fun e => E (wrap e)) p s) :
    (solo M allows).Yields Q E (ExceptT.adapt wrap p) s := by
  refine Holds.bind (Holds.mono h fun r t hr => Holds.solo_done ?_)
  cases r with
  | ok a => exact hr
  | error e => exact hr

/-- A call whose answer is a value to go on with or an error to end with. -/
theorem Yields.solo_step {Q : β → σ → Prop} {g : S.Answer op → Except ε α}
    (h : ∀ x u, allows op s → M op s = some (x, u) → match g x with
      | .ok a => (solo M allows).Yields Q E (f a) u
      | .error e => E e u) :
    (solo M allows).Yields Q E ((ExceptT.mk (.call op fun x => .done (g x)) : ExceptT ε (Program S) α) >>= f) s :=
  Yields.step (fun _ => solo_stable _) (fun t => t = s) (solo_stable _) rfl fun t x u ht ha hx => by
    subst ht
    exact ⟨trivial, h x u ha hx⟩

end Contract

/-! ### Loops -/

/-- Where a task alone can come to be, from a world, at the head of its loop or at its end. -/
inductive Task.Reaches (M : Machine S σ) (allows : S.Op → σ → Prop) (t : Task S α) (s : σ) : t.Var ⊕ α → σ → Prop
  | init {r u} (hm : t.init.Meets M allows s) (hr : t.init.run M s = some (r, u)) : t.Reaches M allows s r u
  | turn {v r u w} (h : t.Reaches M allows s (.inl v) u) (hm : (t.body v).Meets M allows u)
      (hr : (t.body v).run M u = some (r, w)) : t.Reaches M allows s r w

/-- So many turns of a task alone, as long as its calls are permitted. -/
def Task.turns (M : Machine S σ) (permits : S.Op → σ → Bool) (t : Task S α) : Nat → σ → Option ((t.Var ⊕ α) × σ)
  | 0, s => t.init.check M permits s
  | n + 1, s => (t.turns M permits n s).bind fun x => match x.1 with
    | .inl v => (t.body v).check M permits x.2
    | .inr _ => none

theorem Task.reaches_of_turns {M : Machine S σ} {permits : S.Op → σ → Bool} {allows : S.Op → σ → Prop}
    (hp : ∀ op s, permits op s = true → allows op s) {t : Task S α} {n : Nat} {s u : σ} {r : t.Var ⊕ α}
    (h : t.turns M permits n s = some (r, u)) : t.Reaches M allows s r u := by
  induction n generalizing r u with
  | zero =>
    obtain ⟨hm, hr⟩ := Program.meets_of_check hp h
    exact .init hm hr
  | succ n ih =>
    obtain ⟨⟨r', w⟩, hw, h⟩ := Option.bind_eq_some_iff.mp h
    cases r' with
    | inl v =>
      obtain ⟨hm, hr⟩ := Program.meets_of_check hp h
      exact .turn (ih hw) hm hr
    | inr a => cases h

/-- What holds at the start and is kept by each turn of the loop. -/
theorem Task.Reaches.invariant {M : Machine S σ} {allows : S.Op → σ → Prop} {t : Task S α} {s u : σ}
    {I : t.Var ⊕ α → σ → Prop} (hinit : (Contract.solo M allows).Holds I t.init s)
    (hturn : ∀ v w, I (.inl v) w → (Contract.solo M allows).Holds I (t.body v) w) {r : t.Var ⊕ α}
    (h : t.Reaches M allows s r u) : I r u := by
  induction h with
  | init hm hr => exact hinit.run hm hr
  | turn _ hm hr ih => exact (hturn _ _ ih).run hm hr

end Detritus.Process
