import Detritus.Process.History

/-! What a program can come to call.

A `Discipline` says what a task may call, given the calls that were made before, and
which answers an operation can get. A program obeys it if it does so whatever those
answers are: nothing is assumed of the world it runs in, so tasks that obey do so in
any company. -/
namespace Detritus.Process

/-- What a party may call, by what has been called, and the answers it can count on. -/
structure Discipline (S : Interface) (ι : Type) where
  /-- The answers that are possible. -/
  fits : (op : S.Op) → S.Answer op → Prop
  may : ι → S.Op → List (Event S ι) → Prop
  /-- What may be called may be called later. -/
  grows : ∀ {i op h h'}, h ⊆ h' → may i op h → may i op h'

namespace Discipline
variable {S : Interface} {ι α β ε : Type} {D : Discipline S ι} {i : ι} {h h' : List (Event S ι)}
  {Q : α → List (Event S ι) → Prop} {p : Program S α} {f : α → ExceptT ε (Program S) β}

variable (D) in
/-- The program's calls are such as it may make, and it ends only where `Q` holds. -/
def Obeys (i : ι) (Q : α → List (Event S ι) → Prop) : Program S α → List (Event S ι) → Prop
  | .done a, h => Q a h
  | .call op next, h => D.may i op h ∧ ∀ x, D.fits op x → Obeys i Q (next x) (⟨i, op, x⟩ :: h)

theorem Obeys.grow (hQ : ∀ a h h', h ⊆ h' → Q a h → Q a h') (hp : D.Obeys i Q p h) (hh : h ⊆ h') :
    D.Obeys i Q p h' := by
  induction p generalizing h h' with
  | done a => exact hQ a h h' hh hp
  | call op next ih =>
    exact ⟨D.grows hh hp.1, fun x hx => ih x (hp.2 x hx) (List.cons_subset_cons _ hh)⟩

theorem Obeys.mono {Q R : α → List (Event S ι) → Prop} (hp : D.Obeys i Q p h)
    (hQ : ∀ a h', h ⊆ h' → Q a h' → R a h') : D.Obeys i R p h := by
  induction p generalizing h with
  | done a => exact hQ a h (List.Subset.refl h) hp
  | call op next ih =>
    exact ⟨hp.1, fun x hx => ih x (hp.2 x hx) fun a h' hh => hQ a h' fun e he => hh (.tail _ he)⟩

theorem Obeys.bind {R : β → List (Event S ι) → Prop} {f : α → Program S β} (hp : D.Obeys i Q p h)
    (hf : ∀ a h', h ⊆ h' → Q a h' → D.Obeys i R (f a) h') : D.Obeys i R (p >>= f) h := by
  induction p generalizing h with
  | done a => exact hf a h (List.Subset.refl h) hp
  | call op next ih =>
    exact ⟨hp.1, fun x hx => ih x (hp.2 x hx) fun a h' hh => hf a h' fun e he => hh (.tail _ he)⟩

/-- What obeys a discipline obeys one that allows more and has no other answers. -/
theorem Obeys.weaken {D' : Discipline S ι} (hfits : ∀ op x, D'.fits op x → D.fits op x)
    (hmay : ∀ op h, D.may i op h → D'.may i op h) (hp : D.Obeys i Q p h) : D'.Obeys i Q p h := by
  induction p generalizing h with
  | done a => exact hp
  | call op next ih => exact ⟨hmay op h hp.1, fun x hx => ih x (hp.2 x (hfits op x hx))⟩

variable (D) in
/-- The same of a program that can fail, with `Q` where it succeeds. -/
def Minds (i : ι) (Q : α → List (Event S ι) → Prop) (p : ExceptT ε (Program S) α) (h : List (Event S ι)) : Prop :=
  D.Obeys i (fun r h => ∀ a, r = .ok a → Q a h) p.run h

theorem Minds.pure {a : α} (ha : Q a h) : D.Minds i Q (pure a : ExceptT ε (Program S) α) h := by
  intro b hb
  obtain rfl := Except.ok.inj hb
  exact ha

theorem Minds.throw (e : ε) : D.Minds i Q (throw e : ExceptT ε (Program S) α) h :=
  fun _ h => absurd h (by simp)

theorem Minds.mono {Q R : α → List (Event S ι) → Prop} {p : ExceptT ε (Program S) α} (hp : D.Minds i Q p h)
    (hQ : ∀ a h', h ⊆ h' → Q a h' → R a h') : D.Minds i R p h :=
  Obeys.mono hp fun _ h' hh hr a ha => hQ a h' hh (hr a ha)

theorem Minds.obeys {p : ExceptT ε (Program S) α} (hp : D.Minds i Q p h) : D.Obeys i (fun _ _ => True) p.run h :=
  Obeys.mono hp fun _ _ _ _ => trivial

theorem Minds.bind {R : β → List (Event S ι) → Prop} {p : ExceptT ε (Program S) α} (hp : D.Minds i Q p h)
    (hf : ∀ a h', h ⊆ h' → Q a h' → D.Minds i R (f a) h') : D.Minds i R (p >>= f) h := by
  refine Obeys.bind hp fun r h' hh hr => ?_
  cases r with
  | ok a => exact hf a h' hh (hr a rfl)
  | error e => exact Minds.throw e

/-- A call whose answer is a value to go on with or an error to end with. -/
theorem Minds.step {Q : β → List (Event S ι) → Prop} {op : S.Op} {g : S.Answer op → Except ε α} (hop : D.may i op h)
    (hf : ∀ x a, D.fits op x → g x = .ok a → D.Minds i Q (f a) (⟨i, op, x⟩ :: h)) :
    D.Minds i Q ((ExceptT.mk (.call op fun x => .done (g x)) : ExceptT ε (Program S) α) >>= f) h := by
  refine Minds.bind (Q := fun a h' => D.Minds i Q (f a) h') ⟨hop, fun x hx a ha => ?_⟩ fun _ _ _ hq => hq
  exact hf x a hx ha

/-- A call followed by `?`. -/
theorem Minds.attempt {δ : Type} {Q : β → List (Event S ι) → Prop} {op : S.Op} {r : S.Answer op → Except δ α}
    {wrap : δ → ε} (hop : D.may i op h)
    (hf : ∀ x a, r x = .ok a → D.fits op x → D.Minds i Q (f a) (⟨i, op, x⟩ :: h)) :
    D.Minds i Q ((ExceptT.mk (.call op fun x => .done ((r x).mapError wrap)) : ExceptT ε (Program S) α) >>= f) h := by
  refine Minds.step hop fun x a hx ha => hf x a ?_ hx
  cases hr : r x with
  | ok v =>
    rw [hr] at ha
    exact congrArg Except.ok (Except.ok.inj ha)
  | error e =>
    rw [hr] at ha
    cases ha

/-! ### Alone -/

/-- The discipline that asks for nothing: what holds by it holds of a program in any world. -/
def free (S : Interface) (ι : Type) : Discipline S ι := ⟨fun _ _ => True, fun _ _ _ => True, fun _ h => h⟩

theorem Obeys.of_free (p : Program S α) : (free S ι).Obeys i (fun _ _ => True) p h := by
  induction p generalizing h with
  | done a => trivial
  | call op next ih => exact ⟨trivial, fun x _ => ih x⟩

theorem Minds.of_free (p : ExceptT ε (Program S) α) : (free S ι).Minds i (fun _ _ => True) p h :=
  (Obeys.of_free p.run).mono fun _ _ _ _ _ _ => trivial

/-- What a run has called. -/
theorem Obeys.run {σ : Type} {M : Nat → Machine S σ} {s t : Recorded S ι σ} {a : α} (hp : (free S ι).Obeys i Q p h)
    (hr : p.run (record M i) s = some (a, t)) : ∃ new, t.history = new ++ s.history ∧ Q a (new ++ h) := by
  induction p generalizing s h with
  | done b =>
    obtain ⟨rfl, rfl⟩ := result_eq hr
    exact ⟨[], rfl, hp⟩
  | call op next ih =>
    obtain ⟨⟨x, u⟩, hx, hr⟩ := Option.bind_eq_some_iff.mp hr
    obtain ⟨new, hnew, hq⟩ := ih x (hp.2 x trivial) hr
    obtain ⟨-, hh⟩ := record_eq_some.mp hx
    exact ⟨new ++ [⟨i, op, x⟩], by rw [hnew, hh]; simp, by simpa using hq⟩

/-- A program all of whose calls get an answer comes to its end, in worlds of which `I` holds. -/
theorem Obeys.returns {σ : Type} {M : Nat → Machine S σ} {s : Recorded S ι σ} (hp : D.Obeys i Q p s.history)
    (I : σ → Prop) (hs : I s.state) (hanswer : ∀ n op t, I t → D.may i op s.history → (M n op t).isSome)
    (hfits : ∀ n op t x t', I t → M n op t = some (x, t') → D.fits op x)
    (hkeeps : ∀ n op t x t', I t → D.may i op s.history → M n op t = some (x, t') → I t')
    (hmay : ∀ op h h', D.may i op h → D.may i op h') : ∃ a t, p.run (record M i) s = some (a, t) := by
  induction p generalizing s with
  | done a => exact ⟨a, s, rfl⟩
  | call op next ih =>
    obtain ⟨⟨x, t⟩, hx⟩ := Option.isSome_iff_exists.mp (hanswer s.history.length op s.state hs hp.1)
    have hstep : record M i op s = some (x, ⟨t, ⟨i, op, x⟩ :: s.history⟩) := record_eq_some.mpr ⟨hx, rfl⟩
    obtain ⟨a, u, hu⟩ := ih x (s := ⟨t, ⟨i, op, x⟩ :: s.history⟩) (hp.2 x (hfits _ _ _ _ _ hs hx))
      (hkeeps _ _ _ _ _ hs hp.1 hx) (fun n op t ht hop => hanswer n op t ht (hmay op _ _ hop))
      fun n op t x t' ht hop => hkeeps n op t x t' ht (hmay op _ _ hop)
    exact ⟨a, u, by rw [Program.run_call, hstep]; exact hu⟩

/-! ### In company -/

section Pool
variable {σ : Type} {γ : ι → Type} [DecidableEq ι] {P : Pool S ι (Recorded S ι σ) γ}

/-- Where a body ends: at the head of its loop, or with a result. -/
def Ends (head : (i : ι) → (P.task i).Var → List (Event S ι) → Prop) (i : ι) :
    (P.task i).Var ⊕ γ i → List (Event S ι) → Prop
  | .inl v => head i v
  | .inr _ => fun _ => True

variable (D) in
/-- Every task obeys from here on, to the next head of its loop. -/
def Kept (head : (i : ι) → (P.task i).Var → List (Event S ι) → Prop) (c : Config P) : Prop :=
  ∀ i p, c.thread i = some p → D.Obeys i (Ends head i) p c.world.history

/-- Tasks that obey call nothing else, in any execution. -/
theorem reach_may {M : Nat → Machine S σ} (hP : P.exec = record M) (hstop : ∀ i w, P.stop i w = none)
    (hM : ∀ n op s x s', M n op s = some (x, s') → D.fits op x)
    {head : (i : ι) → (P.task i).Var → List (Event S ι) → Prop}
    (hgrow : ∀ i v h h', h ⊆ h' → head i v h → head i v h')
    (hbody : ∀ i v h, head i v h → D.Obeys i (Ends head i) ((P.task i).body v) h) {c d : Config P}
    (h : c.Reach (fun _ _ _ => True) d) (hc : D.Kept head c) :
    c.Reach (fun i op s => D.may i op s.history) d ∧ D.Kept head d := by
  have hends : ∀ i a h h', h ⊆ h' → Ends head i a h → Ends head i a h' := by
    intro i a h h' hh ha
    cases a with
    | inl v => exact hgrow i v h h' hh ha
    | inr _ => trivial
  induction h with
  | refl => exact ⟨.refl, hc⟩
  | @step c d _ hs ih =>
    obtain ⟨hr, ho⟩ := ih
    cases hs with
    | @call i op next x s ht _ hx =>
      obtain ⟨hmay, hnext⟩ := ho i _ ht
      obtain ⟨hm, hh⟩ := record_eq_some.mp (by rw [hP] at hx; exact hx)
      refine ⟨hr.step (.call ht hmay hx), Config.set_threads (fun p hp => ?_) fun j _ p hp => ?_⟩
      · obtain rfl := Option.some.inj hp
        rw [Config.set_world, hh]
        exact hnext x (hM _ _ _ _ _ hm)
      · rw [Config.set_world, hh]
        exact (ho j p hp).grow (hends j) (List.subset_cons_self ..)
    | @turn i v ht =>
      refine ⟨hr.step (.turn ht), Config.set_threads (fun p hp => ?_) fun j _ => ho j⟩
      obtain rfl := Option.some.inj hp
      exact hbody i v _ (ho i _ ht)
    | stop _ hs =>
      rw [hstop] at hs
      exact absurd hs (by simp)

/-- Whatever was called might be. -/
theorem events_may {M : Nat → Machine S σ} (hP : P.exec = record M) (hstop : ∀ i w, P.stop i w = none)
    {c d : Config P} (h : c.Reach (fun i op s => D.may i op s.history) d) (hc : c.world.history = []) :
    ∀ e ∈ d.world.history, D.may e.task e.op d.world.history := by
  refine h.invariant (fun w => ∀ e ∈ w.history, D.may e.task e.op w.history) ?_ ?_ ?_
  · intro i op w x w' hm hx hw e he
    obtain ⟨-, hh⟩ := record_eq_some.mp (by rw [hP] at hx; exact hx)
    rw [hh] at he ⊢
    rcases List.mem_cons.mp he with rfl | he
    · exact D.grows (List.subset_cons_self ..) hm
    · exact D.grows (List.subset_cons_self ..) (hw e he)
  · intro i w w' hs
    rw [hstop] at hs
    cases hs
  · rw [hc]
    exact fun e he => absurd he List.not_mem_nil

end Pool

end Discipline

section Calls
variable {S : Interface} {ι α β ε : Type} {D : Discipline S ι} {i : ι} {h : List (Event S ι)}

theorem minds_call {Q : β → List (Event S ι) → Prop} {op : S.Op} {f : S.Answer op → ExceptT ε (Program S) β}
    (hop : D.may i op h) (hf : ∀ x, D.fits op x → D.Minds i Q (f x) (⟨i, op, x⟩ :: h)) :
    D.Minds i Q
      ((ExceptT.mk (.call op fun x => .done (.ok x)) : ExceptT ε (Program S) (S.Answer op)) >>= f) h := by
  refine Discipline.Minds.step hop fun x v hx hv => ?_
  obtain rfl := Except.ok.inj hv
  exact hf x hx

/-- A computation without calls. -/
theorem minds_lift {Q : β → List (Event S ι) → Prop} {r : Except ε α} {f : α → ExceptT ε (Program S) β}
    (hf : ∀ a, r = .ok a → D.Minds i Q (f a) h) :
    D.Minds i Q ((ExceptT.mk (.done r) : ExceptT ε (Program S) α) >>= f) h := by
  cases r with
  | ok a => exact hf a rfl
  | error e => exact Discipline.Minds.throw e

end Calls

end Detritus.Process
