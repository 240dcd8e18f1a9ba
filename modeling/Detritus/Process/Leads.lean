import Detritus.Process.History

/-! Programs that end.

`Leads` is total correctness for a program that has a machine to itself: its run ends, and
the condition holds of what it returns and of the state it leaves. A program whose calls
are all of a kind on which two machines agree runs alike on both. -/
namespace Detritus.Process.Program
variable {S : Interface} {σ ρ α β ε : Type} {M : Machine S σ} {f : α → ExceptT ε (Program S) β}
  {p : ExceptT ε (Program S) α} {allowed : S.Op → Prop} {a : α}

/-- The run of the program ends, with a value and a state of which the condition holds. -/
def Leads (M : Machine S σ) (p : Program S α) (s : σ) (Q : α → σ → Prop) : Prop :=
  ∃ a t, p.run M s = some (a, t) ∧ Q a t

section Rules
variable {s : σ} {Q : Except ε β → σ → Prop}

theorem Leads.mono {p : Program S α} {Q R : α → σ → Prop} (h : p.Leads M s Q) (hQ : ∀ a t, Q a t → R a t) :
    p.Leads M s R := by
  obtain ⟨a, t, hrun, ha⟩ := h
  exact ⟨a, t, hrun, hQ a t ha⟩

theorem Leads.done {Q : α → σ → Prop} (h : Q a s) : (Program.done a : Program S α).Leads M s Q := ⟨a, s, rfl, h⟩

theorem Leads.bind {Q : β → σ → Prop} {p : Program S α} {f : α → Program S β}
    (h : p.Leads M s fun a t => (f a).Leads M t Q) : (p >>= f).Leads M s Q := by
  obtain ⟨a, t, hp, b, u, hf, hb⟩ := h
  refine ⟨b, u, ?_, hb⟩
  rw [run_bind, hp]
  exact hf

/-- What can fail, and the rest if it has not. -/
theorem Leads.andThen {R : Except ε α → σ → Prop} (hp : p.run.Leads M s R)
    (hok : ∀ a t, R (.ok a) t → (f a).run.Leads M t Q) (herror : ∀ e t, R (.error e) t → Q (.error e) t) :
    (p >>= f).run.Leads M s Q := by
  obtain ⟨r, t, hrun, hr⟩ := hp
  cases r with
  | ok a =>
    obtain ⟨b, u, hf, hb⟩ := hok a t hr
    exact ⟨b, u, (run_bind_ok f hrun).trans hf, hb⟩
  | error e => exact ⟨.error e, t, run_bind_error f hrun, herror e t hr⟩

/-- The same where it is known that it has not. -/
theorem Leads.thenOk {R : σ → Prop} (hp : p.run.Leads M s fun r t => r = .ok a ∧ R t)
    (hok : ∀ t, R t → (f a).run.Leads M t Q) : (p >>= f).run.Leads M s Q := by
  refine hp.andThen (fun b t ht => ?_) fun e t ht => ?_
  · obtain rfl := Except.ok.inj ht.1
    exact hok t ht.2
  · cases ht.1

theorem Leads.thenError {e : ε} {R : σ → Prop} (hp : p.run.Leads M s fun r t => r = .error e ∧ R t)
    (herror : ∀ t, R t → Q (.error e) t) : (p >>= f).run.Leads M s Q := by
  refine hp.andThen (fun b t ht => ?_) fun e' t ht => ?_
  · cases ht.1
  · obtain rfl := Except.error.inj ht.1
    exact herror t ht.2

/-- What relates the states before and after each call relates those before and after a run. -/
theorem run_rel {R : σ → σ → Prop} (hrefl : ∀ s, R s s) (htrans : ∀ {s t u}, R s t → R t u → R s u)
    (hM : ∀ op s x t, M op s = some (x, t) → R s t) {p : Program S α} {t : σ} (h : p.run M s = some (a, t)) :
    R s t := by
  induction p generalizing s with
  | done b =>
    obtain ⟨-, rfl⟩ := result_eq h
    exact hrefl s
  | call op next ih =>
    rw [run_call] at h
    obtain ⟨⟨x, u⟩, hx, h⟩ := Option.bind_eq_some_iff.mp h
    exact htrans (hM op s x u hx) (ih x h)

end Rules

/-! ### Two machines -/

/-- Every call that the program can make is allowed. -/
def Only (allowed : S.Op → Prop) : Program S α → Prop
  | .done _ => True
  | .call op next => allowed op ∧ ∀ x, (next x).Only allowed

theorem Only.bind {p : Program S α} {f : α → Program S β} (hp : p.Only allowed) (hf : ∀ a, (f a).Only allowed) :
    (p >>= f).Only allowed := by
  induction p with
  | done a => exact hf a
  | call op next ih => exact ⟨hp.1, fun x => ih x (hp.2 x)⟩

/-- What can fail, and the rest if it has not. -/
theorem Only.andThen (hp : p.run.Only allowed) (hf : ∀ a, (f a).run.Only allowed) : (p >>= f).run.Only allowed := by
  refine Only.bind hp fun r => ?_
  cases r with
  | ok a => exact hf a
  | error e => trivial

/-- The calls of a program do not tell apart a machine and a larger one in which it lives. -/
theorem run_embed {N : Machine S ρ} (embed : σ → ρ)
    (hN : ∀ op s, allowed op → N op (embed s) = (M op s).map fun x => (x.1, embed x.2)) {p : Program S α}
    (hp : p.Only allowed) (s : σ) : p.run N (embed s) = (p.run M s).map fun x => (x.1, embed x.2) := by
  induction p generalizing s with
  | done a => rfl
  | call op next ih =>
    rw [run_call, run_call, hN op s hp.1]
    cases M op s with
    | none => rfl
    | some x => exact ih x.1 (hp.2 x.1) x.2

/-- What a program adds to the history is calls that it can make. -/
theorem Only.history {ι : Type} {N : Nat → Machine S σ} {i : ι} {p : Program S α} (hp : p.Only allowed)
    {s t : Recorded S ι σ} (h : p.run (record N i) s = some (a, t)) :
    ∃ new, t.history = new ++ s.history ∧ ∀ e ∈ new, allowed e.op := by
  induction p generalizing s with
  | done b =>
    obtain ⟨rfl, rfl⟩ := result_eq h
    exact ⟨[], rfl, nofun⟩
  | call op next ih =>
    obtain ⟨⟨x, u⟩, hx, hrest⟩ := Option.bind_eq_some_iff.mp h
    obtain ⟨new, ht, hnew⟩ := ih x (hp.2 x) hrest
    refine ⟨new ++ [⟨i, op, x⟩], ?_, fun e he => ?_⟩
    · rw [ht, (record_eq_some.mp hx).2, List.append_assoc, List.singleton_append]
    · rcases List.mem_append.mp he with he | he
      · exact hnew e he
      · rw [List.mem_singleton.mp he]
        exact hp.1

end Detritus.Process.Program
