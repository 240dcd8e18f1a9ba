import Detritus.Process.Program

/-! Tasks that share a world.

A `Task` is a program, or a loop whose body is one: the body ends with the loop's
next variables or with the task's result. A `Pool` is a family of tasks over one
world, and a `Config` a point of its execution. One move lets one task make one
call, turn its loop, or stops it for good where the world says what a stop leaves
behind. Nothing else is assumed of the order of moves, so what holds of every
`Reach`able configuration holds of every interleaving. `runs` is the same
execution for a given list of moves, which can be evaluated. -/
namespace Detritus.Process

/-- A loop: `body` goes from the loop's variables to the next ones or to a result. -/
structure Task (S : Interface) (α : Type) where
  Var : Type
  init : Program S (Var ⊕ α)
  body : Var → Program S (Var ⊕ α)

/-- A task that runs a program once. -/
def Task.once {S : Interface} {α : Type} (p : Program S α) : Task S α :=
  ⟨Empty, p >>= fun a => .done (.inr a), Empty.elim⟩

/-- Tasks over a world of type `σ`. `exec` is told which task calls. `stop` is what
becomes of the world when a task is stopped, if it can be. -/
structure Pool (S : Interface) (ι σ : Type) (α : ι → Type) where
  task : (i : ι) → Task S (α i)
  exec : ι → Machine S σ
  stop : ι → σ → Option σ

/-- What a task is at: the rest of its program, or stopped. -/
abbrev Pool.Thread {S : Interface} {ι σ : Type} {α : ι → Type} (P : Pool S ι σ α) (i : ι) : Type :=
  Option (Program S ((P.task i).Var ⊕ α i))

/-- A moment of an execution: the world and where each task is. -/
structure Config {S : Interface} {ι σ : Type} {α : ι → Type} (P : Pool S ι σ α) where
  world : σ
  thread : (i : ι) → P.Thread i

/-- What a scheduler can choose. -/
inductive Move (ι : Type) where
  | run (i : ι)
  | stop (i : ι)

section Pool
variable {S : Interface} {ι σ : Type} {α : ι → Type} [DecidableEq ι] {P : Pool S ι σ α} {c d : Config P}

/-- Every task at its start. -/
def Pool.start (P : Pool S ι σ α) (s : σ) : Config P := ⟨s, fun i => some (P.task i).init⟩

/-- The task has ended with this result. -/
def Config.Finished (c : Config P) (i : ι) (a : α i) : Prop :=
  c.thread i = some (.done (.inr a))

/-- The result of a task that has ended. -/
def Config.result (c : Config P) (i : ι) : Option (α i) :=
  match c.thread i with
  | some (.done (.inr a)) => some a
  | _ => none

omit [DecidableEq ι] in
theorem Config.finished_of_result {c : Config P} {i : ι} {a : α i} (h : c.result i = some a) : c.Finished i a := by
  unfold Config.result at h
  split at h
  · next b hb => rw [Config.Finished, hb, Option.some.inj h]
  · exact absurd h (by simp)

def Config.set (c : Config P) (i : ι) (s : σ) (t : P.Thread i) : Config P :=
  ⟨s, Function.update c.thread i t⟩

@[simp] theorem Config.set_world (c : Config P) (i : ι) (s : σ) (t : P.Thread i) :
    (c.set i s t).world = s := rfl

@[simp] theorem Config.set_self (c : Config P) (i : ι) (s : σ) (t : P.Thread i) :
    (c.set i s t).thread i = t := Function.update_self ..

theorem Config.set_other (c : Config P) {i j : ι} (s : σ) (t : P.Thread i) (h : j ≠ i) :
    (c.set i s t).thread j = c.thread j := Function.update_of_ne h ..

/-- What is said of every task after a change is to be shown of the one that changed. -/
theorem Config.set_threads {c : Config P} {i : ι} {s : σ} {t : P.Thread i}
    {R : (j : ι) → Program S ((P.task j).Var ⊕ α j) → Prop} (hi : ∀ p, t = some p → R i p)
    (ho : ∀ j, j ≠ i → ∀ p, c.thread j = some p → R j p) :
    ∀ j p, (c.set i s t).thread j = some p → R j p := by
  intro j p hp
  by_cases hj : j = i
  · subst hj
    rw [Config.set_self] at hp
    exact hi p hp
  · rw [Config.set_other c s t hj] at hp
    exact ho j hj p hp

/-- One move, under a condition on the calls that are made. -/
inductive Config.Step (allows : ι → S.Op → σ → Prop) : Config P → Config P → Prop where
  | call {c : Config P} {i : ι} {op : S.Op} {next : S.Answer op → Program S ((P.task i).Var ⊕ α i)}
      {x : S.Answer op} {s : σ} : c.thread i = some (.call op next) → allows i op c.world →
      P.exec i op c.world = some (x, s) → Step allows c (c.set i s (some (next x)))
  | turn {c : Config P} {i : ι} {v : (P.task i).Var} : c.thread i = some (.done (.inl v)) →
      Step allows c (c.set i c.world (some ((P.task i).body v)))
  | stop {c : Config P} {i : ι} {p : Program S ((P.task i).Var ⊕ α i)} {s : σ} :
      c.thread i = some p → P.stop i c.world = some s → Step allows c (c.set i s none)

/-- Any number of moves. -/
inductive Config.Reach (allows : ι → S.Op → σ → Prop) (c : Config P) : Config P → Prop where
  | refl : Reach allows c c
  | step {d e : Config P} : Reach allows c d → d.Step allows e → Reach allows c e

theorem Config.Reach.trans {allows : ι → S.Op → σ → Prop} {c d e : Config P}
    (h : c.Reach allows d) (h' : d.Reach allows e) : c.Reach allows e := by
  induction h' with
  | refl => exact h
  | step _ hs ih => exact ih.step hs

theorem Config.Step.mono {allows allows' : ι → S.Op → σ → Prop}
    (hA : ∀ i op, allows i op c.world → allows' i op c.world) (h : c.Step allows d) : c.Step allows' d := by
  cases h with
  | call ht ha hx => exact .call ht (hA _ _ ha) hx
  | turn ht => exact .turn ht
  | stop ht hs => exact .stop ht hs

theorem Config.Reach.mono {allows allows' : ι → S.Op → σ → Prop} (hA : ∀ i op s, allows i op s → allows' i op s)
    (h : c.Reach allows d) : c.Reach allows' d := by
  induction h with
  | refl => exact .refl
  | step _ hs ih => exact ih.step (hs.mono fun i op => hA i op _)

/-- A move as a function, for executions that are given move by move; a call is made if
`permits` says so. -/
def Config.move (permits : ι → S.Op → σ → Bool) (c : Config P) : Move ι → Option (Config P)
  | .run i => match c.thread i with
    | some (.call op next) =>
      if permits i op c.world then (P.exec i op c.world).map fun x => c.set i x.2 (some (next x.1)) else none
    | some (.done (.inl v)) => some (c.set i c.world (some ((P.task i).body v)))
    | _ => none
  | .stop i => match c.thread i with
    | some _ => (P.stop i c.world).map fun s => c.set i s none
    | none => none

/-- Where a list of moves leads, if they can be made. -/
def Config.runs (permits : ι → S.Op → σ → Bool) (c : Config P) : List (Move ι) → Option (Config P)
  | [] => some c
  | m :: rest => (c.move permits m).bind fun d => d.runs permits rest

section Runs
variable {permits : ι → S.Op → σ → Bool} {allows : ι → S.Op → σ → Prop}
  (hallows : ∀ i op s, permits i op s = true → allows i op s)
include hallows

theorem Config.move_step {m : Move ι} (h : c.move permits m = some d) : c.Step allows d := by
  cases m with
  | run i =>
    simp only [Config.move] at h
    split at h
    · next op next ht =>
      split at h
      · next hp =>
        obtain ⟨⟨x, s⟩, hx, rfl⟩ := Option.map_eq_some_iff.mp h
        exact .call ht (hallows i op _ hp) hx
      · exact absurd h (by simp)
    · next v ht =>
      obtain rfl := Option.some.inj h
      exact .turn ht
    · exact absurd h (by simp)
  | stop i =>
    simp only [Config.move] at h
    split at h
    · next p ht =>
      obtain ⟨s, hs, rfl⟩ := Option.map_eq_some_iff.mp h
      exact .stop ht hs
    · exact absurd h (by simp)

theorem Config.runs_reach (moves : List (Move ι)) (h : c.runs permits moves = some d) : c.Reach allows d := by
  induction moves generalizing c with
  | nil =>
    obtain rfl := Option.some.inj h
    exact .refl
  | cons m rest ih =>
    obtain ⟨e, he, hr⟩ := Option.bind_eq_some_iff.mp h
    exact (Config.Reach.refl.step (Config.move_step hallows he)).trans (ih hr)

/-- What is found at the end of a list of moves is reachable. -/
theorem Config.runs_any {c : Config P} (moves : List (Move ι)) (check : Config P → Bool)
    (h : (c.runs permits moves).any check = true) : ∃ d, c.Reach allows d ∧ check d = true := by
  obtain ⟨d, hd, hcheck⟩ := (Option.any_eq_true ..).mp h
  exact ⟨d, Config.runs_reach hallows moves hd, hcheck⟩

end Runs

/-- A property of the world that every allowed call, turn and stop keeps. -/
theorem Config.Reach.invariant {allows : ι → S.Op → σ → Prop} (Inv : σ → Prop)
    (hcall : ∀ i op s x s', allows i op s → P.exec i op s = some (x, s') → Inv s → Inv s')
    (hstop : ∀ i s s', P.stop i s = some s' → Inv s → Inv s') (h : c.Reach allows d) (h0 : Inv c.world) :
    Inv d.world := by
  induction h with
  | refl => exact h0
  | step _ hs ih =>
    cases hs with
    | call _ ha hx => exact hcall _ _ _ _ _ ha hx ih
    | turn _ => exact ih
    | stop _ hs => exact hstop _ _ _ hs ih

end Pool

end Detritus.Process
