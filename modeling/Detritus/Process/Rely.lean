import Detritus.Process.Pool

/-! Rely and guarantee.

A task's `Contract` says what the other tasks may do to the world between its
calls (`rely`) and what each of its own calls does (`guarantee`). `Holds Q p s` is
the weakest condition on the world `s` under which `p` keeps its guarantee at every
call and ends only where `Q` holds, whatever the others do as long as they keep to
the rely. It is closed under the rely by construction, so what a proof carries
across a call is a stable assertion. `Yields` is the same for programs that can
fail.

When every task's guarantee is within every other task's rely, the tasks run
together as each was proved to run: `Pool.reach_holds`. -/
namespace Detritus.Process

/-- How a task and the others treat the world. -/
structure Contract (S : Interface) (σ : Type) where
  exec : Machine S σ
  /-- The calls that are made, where a result assumes something of them. -/
  allows : S.Op → σ → Prop
  rely : σ → σ → Prop
  guarantee : σ → σ → Prop
  refl : ∀ s, rely s s
  trans : ∀ {s t u}, rely s t → rely t u → rely s u

namespace Contract
variable {S : Interface} {σ α β ε : Type} (C : Contract S σ)

/-- The others cannot make it false. -/
def Stable (A : σ → Prop) : Prop := ∀ s t, C.rely s t → A s → A t

/-- `p` keeps its guarantee among the others and ends with `Q`. -/
def Holds (Q : α → σ → Prop) : Program S α → σ → Prop
  | .done a, s => ∀ t, C.rely s t → Q a t
  | .call op next, s => ∀ t, C.rely s t → C.allows op t → ∀ x u, C.exec op t = some (x, u) →
      C.guarantee t u ∧ Holds Q (next x) u

variable {C} {E : ε → σ → Prop} {Q : β → σ → Prop} {f : α → ExceptT ε (Program S) β} {s : σ}
  {p : ExceptT ε (Program S) α} {op : S.Op}

theorem Holds.stable {Q : α → σ → Prop} (p : Program S α) : C.Stable (C.Holds Q p) := by
  intro s t hr h
  cases p with
  | done a => exact fun u hu => h u (C.trans hr hu)
  | call op next => exact fun u hu => h u (C.trans hr hu)

theorem Holds.mono {Q R : α → σ → Prop} {p : Program S α} (h : C.Holds Q p s) (hQ : ∀ a t, Q a t → R a t) :
    C.Holds R p s := by
  induction p generalizing s with
  | done a => exact fun t ht => hQ a t (h t ht)
  | call op next ih =>
    intro t ht ha x u hx
    obtain ⟨hg, hn⟩ := h t ht ha x u hx
    exact ⟨hg, ih x hn⟩

theorem Holds.bind {p : Program S α} {f : α → Program S β} (h : C.Holds (fun a => C.Holds Q (f a)) p s) :
    C.Holds Q (p >>= f) s := by
  induction p generalizing s with
  | done a => exact h s (C.refl s)
  | call op next ih =>
    intro t ht ha x u hx
    obtain ⟨hg, hn⟩ := h t ht ha x u hx
    exact ⟨hg, ih x hn⟩

/-- One program after another. -/
theorem Holds.andThen {Q' : α → σ → Prop} {p : Program S α} {f : α → Program S β} (h : C.Holds Q' p s)
    (hf : ∀ a t, Q' a t → C.Holds Q (f a) t) : C.Holds Q (p >>= f) s :=
  Holds.bind (Holds.mono h hf)

theorem Holds.done {Q : α → σ → Prop} {a : α} (hQ : C.Stable (Q a)) (h : Q a s) :
    C.Holds Q (.done a) s := fun t ht => hQ s t ht h

/-- A call, from a stable assertion: it keeps the guarantee and what comes after
it holds. -/
theorem Holds.call {f : S.Answer op → Program S β} (A : σ → Prop) (hA : C.Stable A) (hs : A s)
    (h : ∀ t x u, A t → C.allows op t → C.exec op t = some (x, u) →
      C.guarantee t u ∧ C.Holds Q (f x) u) : C.Holds Q (Program.perform op >>= f) s :=
  fun t ht ha x u hx => h t x u (hA s t ht hs) ha hx

/-- What neither the others nor the program's own calls can make false is still true
at its end. -/
theorem Holds.frame {Q : α → σ → Prop} {B : σ → Prop} (hr : C.Stable B) (hg : ∀ s t, C.guarantee s t → B s → B t)
    {p : Program S α} (h : C.Holds Q p s) (hs : B s) : C.Holds (fun a t => Q a t ∧ B t) p s := by
  induction p generalizing s with
  | done a => exact fun t ht => ⟨h t ht, hr s t ht hs⟩
  | call op next ih =>
    intro t ht ha x u hx
    obtain ⟨hgu, hn⟩ := h t ht ha x u hx
    exact ⟨hgu, ih x hn (hg t u hgu (hr s t ht hs))⟩

/-- What a program that can fail ends with: `Q` where it succeeds, `E` where it
does not. -/
def Outcome (Q : α → σ → Prop) (E : ε → σ → Prop) : Except ε α → σ → Prop
  | .ok a => Q a
  | .error e => E e

variable (C) in
def Yields (Q : α → σ → Prop) (E : ε → σ → Prop) (p : ExceptT ε (Program S) α) (s : σ) : Prop :=
  C.Holds (Outcome Q E) p.run s

theorem Yields.mono {Q Q' : α → σ → Prop} {E E' : ε → σ → Prop} (h : C.Yields Q E p s) (hQ : ∀ a t, Q a t → Q' a t)
    (hE : ∀ e t, E e t → E' e t) : C.Yields Q' E' p s := by
  refine Holds.mono h fun r t hr => ?_
  cases r with
  | ok a => exact hQ a t hr
  | error e => exact hE e t hr

theorem Yields.imp {Q Q' : α → σ → Prop} (h : C.Yields Q E p s) (hQ : ∀ a t, Q a t → Q' a t) : C.Yields Q' E p s :=
  h.mono hQ fun _ _ he => he

theorem Yields.pure {Q : α → σ → Prop} {a : α} (hQ : C.Stable (Q a)) (h : Q a s) :
    C.Yields Q E (pure a : ExceptT ε (Program S) α) s :=
  fun t ht => hQ s t ht h

theorem Yields.throw {Q : α → σ → Prop} {e : ε} (hE : C.Stable (E e)) (h : E e s) :
    C.Yields Q E (throw e : ExceptT ε (Program S) α) s :=
  fun t ht => hE s t ht h

theorem Yields.bind (hE : ∀ e, C.Stable (E e)) (h : C.Yields (fun a => C.Yields Q E (f a)) E p s) :
    C.Yields Q E (p >>= f) s := by
  refine Holds.bind (Holds.mono h fun r t hr => ?_)
  cases r with
  | ok a => exact hr
  | error e => exact Holds.done (hE e) hr

theorem Yields.andThen {Q' : α → σ → Prop} (hE : ∀ e, C.Stable (E e)) (h : C.Yields Q' E p s)
    (hf : ∀ a t, Q' a t → C.Yields Q E (f a) t) : C.Yields Q E (p >>= f) s :=
  Yields.bind hE (h.imp hf)

/-- A call whose answer is a value to go on with or an error to end with. -/
theorem Yields.step {g : S.Answer op → Except ε α} (hE : ∀ e, C.Stable (E e)) (A : σ → Prop) (hA : C.Stable A)
    (hs : A s) (h : ∀ t x u, A t → C.allows op t → C.exec op t = some (x, u) → C.guarantee t u ∧
      match g x with
      | .ok a => C.Yields Q E (f a) u
      | .error e => E e u) :
    C.Yields Q E ((ExceptT.mk (.call op fun x => .done (g x)) : ExceptT ε (Program S) α) >>= f) s := by
  intro t ht ha x u hx
  obtain ⟨hg, hn⟩ := h t x u (hA s t ht hs) ha hx
  refine ⟨hg, ?_⟩
  cases hgx : g x with
  | ok a =>
    rw [hgx] at hn
    show C.Holds (Outcome Q E) ((Program.done (g x) : Program S (Except ε α)) >>= _) u
    rw [hgx]
    exact hn
  | error e =>
    rw [hgx] at hn
    show C.Holds (Outcome Q E) ((Program.done (g x) : Program S (Except ε α)) >>= _) u
    rw [hgx]
    exact Holds.done (hE e) hn

/-- A call followed by `?`: its error ends the program. -/
theorem Yields.attempt {δ : Type} {r : S.Answer op → Except δ α} {wrap : δ → ε} (hE : ∀ e, C.Stable (E e))
    (A : σ → Prop) (hA : C.Stable A) (hs : A s)
    (h : ∀ t x u, A t → C.allows op t → C.exec op t = some (x, u) → C.guarantee t u ∧
      ((∃ v, r x = .ok v ∧ C.Yields Q E (f v) u) ∨ ∃ e, r x = .error e ∧ E (wrap e) u)) :
    C.Yields Q E
      ((ExceptT.mk (.call op fun x => .done ((r x).mapError wrap)) : ExceptT ε (Program S) α) >>= f) s := by
  refine Yields.step hE A hA hs fun t x u ht ha hx => ?_
  obtain ⟨hg, ⟨v, hv, hn⟩ | ⟨e, he, hn⟩⟩ := h t x u ht ha hx
  · rw [hv]
    exact ⟨hg, hn⟩
  · rw [he]
    exact ⟨hg, hn⟩

/-- A computation without calls. -/
theorem Yields.lift {r : Except ε α} (hE : ∀ e, C.Stable (E e)) (hok : ∀ a, r = .ok a → C.Yields Q E (f a) s)
    (herr : ∀ e, r = .error e → E e s) : C.Yields Q E ((ExceptT.mk (.done r) : ExceptT ε (Program S) α) >>= f) s := by
  cases r with
  | ok a => exact hok a rfl
  | error e => exact Yields.throw (hE e) (herr e rfl)

theorem Yields.frame {Q : α → σ → Prop} {B : σ → Prop} (hr : C.Stable B) (hg : ∀ s t, C.guarantee s t → B s → B t)
    (h : C.Yields Q E p s) (hs : B s) : C.Yields (fun a t => Q a t ∧ B t) (fun e t => E e t ∧ B t) p s := by
  refine Holds.mono (Holds.frame hr hg h hs) fun r t ht => ?_
  cases r with
  | ok a => exact ht
  | error e => exact ht

end Contract

/-! ### Tasks that keep an invariant together -/

/-- How tasks share a world: the invariant that all of them keep, what the calls of the
others may do to a task (`frame`), and what its own do (`change`). -/
structure Sharing {S : Interface} {ι σ : Type} (exec : ι → Machine S σ) (allows : ι → S.Op → σ → Prop) where
  Inv : σ → Prop
  frame : ι → σ → σ → Prop
  change : ι → σ → σ → Prop
  refl : ∀ i s, frame i s s
  trans : ∀ i {s t u}, frame i s t → frame i t u → frame i s u

namespace Sharing
variable {S : Interface} {ι σ : Type} {exec : ι → Machine S σ} {allows : ι → S.Op → σ → Prop}
  (X : Sharing exec allows)

def contract (i : ι) : Contract S σ where
  exec := exec i
  allows := allows i
  rely s t := X.Inv s → X.Inv t ∧ X.frame i s t
  guarantee s t := X.Inv s → X.Inv t ∧ X.change i s t
  refl s hs := ⟨hs, X.refl i s⟩
  trans h h' hs :=
    have ⟨ht, F⟩ := h hs
    have ⟨hu, G⟩ := h' ht
    ⟨hu, X.trans i F G⟩

/-- Legal calls keep the invariant and change what they may. -/
def Sound (Legal : ι → S.Op → σ → Prop) : Prop :=
  ∀ {i op s x t}, X.Inv s → Legal i op s → exec i op s = some (x, t) → X.Inv t ∧ X.change i s t

end Sharing

section Sharing
variable {S : Interface} {ι σ α β ε : Type} {exec : ι → Machine S σ} {allows Legal : ι → S.Op → σ → Prop}
  {X : Sharing exec allows} {i : ι} {s : σ} {A : σ → Prop}

theorem stable_of (hI : ∀ s, A s → X.Inv s) (h : ∀ s t, X.Inv t → X.frame i s t → A s → A t) :
    (X.contract i).Stable A := by
  intro s t hr hs
  obtain ⟨ht, F⟩ := hr (hI s hs)
  exact h s t ht F hs

variable {E : ε → σ → Prop} (hX : X.Sound Legal) (hE : ∀ e, (X.contract i).Stable (E e))
  (hA : (X.contract i).Stable A) (hI : ∀ t, A t → X.Inv t) (hs : A s) {op : S.Op}
include hX hA hI hs

/-- A legal call, from a stable assertion. -/
theorem holds_call {Q : α → σ → Prop} {f : S.Answer op → Program S α} (hl : ∀ t, A t → allows i op t → Legal i op t)
    (hn : ∀ t x u, A t → allows i op t → X.Inv u → X.change i t u → exec i op t = some (x, u) →
      (X.contract i).Holds Q (f x) u) : (X.contract i).Holds Q (Program.perform op >>= f) s := by
  refine Contract.Holds.call A hA hs fun t x u ht ha hx => ?_
  obtain ⟨hu, hc⟩ := hX (hI t ht) (hl t ht ha) hx
  exact ⟨fun I => hX I (hl t ht ha) hx, hn t x u ht ha hu hc hx⟩

include hE

theorem yields_call {Q : β → σ → Prop} {f : S.Answer op → ExceptT ε (Program S) β}
    (hl : ∀ t, A t → allows i op t → Legal i op t)
    (hn : ∀ t x u, A t → allows i op t → X.Inv u → X.change i t u → exec i op t = some (x, u) →
      (X.contract i).Yields Q E (f x) u) :
    (X.contract i).Yields Q E
      ((ExceptT.mk (.call op fun x => .done (.ok x)) : ExceptT ε (Program S) (S.Answer op)) >>= f) s := by
  refine Contract.Yields.step hE A hA hs fun t x u ht ha hx => ?_
  obtain ⟨hu, hc⟩ := hX (hI t ht) (hl t ht ha) hx
  exact ⟨fun I => hX I (hl t ht ha) hx, hn t x u ht ha hu hc hx⟩

/-- A legal call followed by `?`. -/
theorem yields_try {δ : Type} {Q : β → σ → Prop} {r : S.Answer op → Except δ α} {wrap : δ → ε}
    {f : α → ExceptT ε (Program S) β} (hl : ∀ t, A t → allows i op t → Legal i op t)
    (hn : ∀ t x u, A t → allows i op t → X.Inv u → X.change i t u → exec i op t = some (x, u) →
      (∃ v, r x = .ok v ∧ (X.contract i).Yields Q E (f v) u) ∨ ∃ e, r x = .error e ∧ E (wrap e) u) :
    (X.contract i).Yields Q E
      ((ExceptT.mk (.call op fun x => .done ((r x).mapError wrap)) : ExceptT ε (Program S) α) >>= f) s := by
  refine Contract.Yields.attempt hE A hA hs fun t x u ht ha hx => ?_
  obtain ⟨hu, hc⟩ := hX (hI t ht) (hl t ht ha) hx
  exact ⟨fun I => hX I (hl t ht ha) hx, hn t x u ht ha hu hc hx⟩

end Sharing

section Pool
variable {S : Interface} {ι σ : Type} {α : ι → Type} [DecidableEq ι] {P : Pool S ι σ α}

/-- What a pool's tasks are proved to do: a contract each, what holds at the head of
each loop and what holds where each task ends. -/
structure Pool.Specification (P : Pool S ι σ α) (allows : ι → S.Op → σ → Prop) where
  rely : ι → σ → σ → Prop
  guarantee : ι → σ → σ → Prop
  refl : ∀ i s, rely i s s
  trans : ∀ i {s t u}, rely i s t → rely i t u → rely i s u
  head : (i : ι) → (P.task i).Var → σ → Prop
  result : (i : ι) → α i → σ → Prop
  /-- Nobody does to a task what it relies on not happening. -/
  within : ∀ i j, i ≠ j → ∀ s t, guarantee i s t → rely j s t
  stops : ∀ i s t, P.stop i s = some t → guarantee i s t

namespace Pool.Specification
variable {allows : ι → S.Op → σ → Prop} (X : P.Specification allows) {c d : Config P}

def contract (i : ι) : Contract S σ :=
  ⟨P.exec i, allows i, X.rely i, X.guarantee i, X.refl i, X.trans i⟩

/-- Where a task's body ends. -/
def ends (i : ι) : (P.task i).Var ⊕ α i → σ → Prop
  | .inl v => X.head i v
  | .inr a => X.result i a

/-- The loops' bodies keep their heads. -/
def Turns : Prop :=
  ∀ i v s, X.head i v s → (X.contract i).Holds (X.ends i) ((P.task i).body v) s

/-- Every task is where its proof says it is. -/
def At (c : Config P) : Prop :=
  ∀ i p, c.thread i = some p → (X.contract i).Holds (X.ends i) p c.world

theorem step_at (hturn : X.Turns) (hs : c.Step allows d) (h : X.At c) : X.At d := by
  cases hs with
  | @call i op next x s ht ha hx =>
    obtain ⟨hg, hn⟩ := h i _ ht c.world (X.refl i _) ha x s hx
    refine Config.set_threads (fun p hp => ?_) fun j hj p hp => ?_
    · obtain rfl := Option.some.inj hp
      exact hn
    · exact Contract.Holds.stable p c.world s (X.within i j (Ne.symm hj) _ _ hg) (h j p hp)
  | @turn i v ht =>
    refine Config.set_threads (fun p hp => ?_) fun j _ => h j
    obtain rfl := Option.some.inj hp
    exact hturn i v c.world (h i _ ht c.world (X.refl i _))
  | @stop i q s ht hs =>
    refine Config.set_threads (fun p hp => absurd hp (by simp)) fun j hj p hp => ?_
    exact Contract.Holds.stable p c.world s (X.within i j (Ne.symm hj) _ _ (X.stops i _ _ hs)) (h j p hp)

/-- **Tasks that keep to each other's relies run together as each runs alone.** -/
theorem reach_at (hturn : X.Turns) (hr : c.Reach allows d) (h : X.At c) : X.At d := by
  induction hr with
  | refl => exact h
  | step _ hs ih => exact X.step_at hturn hs ih

omit [DecidableEq ι] in
/-- Where a task has ended, its result is as specified. -/
theorem finished_result {c : Config P} (h : X.At c) {i : ι} {a : α i} (hf : c.Finished i a) :
    X.result i a c.world :=
  h i _ hf c.world (X.refl i _)

/-- Every change of the world is some task's guarantee. -/
theorem step_guarantee (hs : c.Step allows d) (h : X.At c) :
    d.world = c.world ∨ ∃ i, X.guarantee i c.world d.world := by
  cases hs with
  | @call i op next x s ht ha hx => exact .inr ⟨i, (h i _ ht c.world (X.refl i _) ha x s hx).1⟩
  | turn _ => exact .inl rfl
  | @stop i q s ht hs => exact .inr ⟨i, X.stops i _ _ hs⟩

/-- A property of two moments that the guarantees keep holds of every two moments
of an execution. -/
theorem reach_related (hturn : X.Turns) (R : σ → σ → Prop) (hrefl : ∀ s, R s s)
    (hstep : ∀ i s t u, R s t → X.guarantee i t u → R s u) (hr : c.Reach allows d) (h : X.At c) :
    R c.world d.world := by
  induction hr with
  | refl => exact hrefl _
  | step hr' hs ih =>
    rcases X.step_guarantee hs (X.reach_at hturn hr' h) with he | ⟨i, hg⟩
    · rw [he]
      exact ih
    · exact hstep i _ _ _ ih hg

/-- A property that the guarantees keep, kept. -/
theorem reach_invariant (hturn : X.Turns) (Inv : σ → Prop) (hstep : ∀ i s t, Inv s → X.guarantee i s t → Inv t)
    (hr : c.Reach allows d) (h : X.At c) (h0 : Inv c.world) : Inv d.world :=
  X.reach_related hturn (fun s t => Inv s → Inv t) (fun _ hs => hs)
    (fun i _ t u hst hg hs => hstep i t u (hst hs) hg) hr h h0

end Pool.Specification
end Pool

end Detritus.Process
