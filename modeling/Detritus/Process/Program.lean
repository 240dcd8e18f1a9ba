import Mathlib.Logic.Function.Basic

/-! Programs that act on a world one operation at a time.

An `Interface` names the operations and the answers each can get. A `Program` is
a computation that either is done or calls one operation and goes on with its
answer: what runs between two calls is pure. `run` is a program alone against a
world; how several share one is `Process/Pool.lean`. An operation that cannot go
on yet (a lock that is held, an empty queue) has no answer, and `run` then has no
result. -/
namespace Detritus.Process

/-- Operations and, for each, the answers it can get. -/
structure Interface where
  Op : Type
  Answer : Op → Type

/-- A program that calls the operations of an interface and goes on with the answers. -/
inductive Program (S : Interface) (α : Type) where
  | done (value : α)
  | call (op : S.Op) (next : S.Answer op → Program S α)

/-- What an operation does to a world: its answer and the world after it, or
nothing while it has to wait. -/
def Machine (S : Interface) (σ : Type) : Type :=
  (op : S.Op) → σ → Option (S.Answer op × σ)

namespace Program
variable {S : Interface} {α β γ ε σ : Type} {p : ExceptT ε (Program S) α} {M : Machine S σ}

def bind (p : Program S α) (f : α → Program S β) : Program S β :=
  match p with
  | .done a => f a
  | .call op next => .call op fun x => (next x).bind f

instance : Monad (Program S) where
  pure := .done
  bind := bind

@[simp] theorem done_bind (a : α) (f : α → Program S β) : (Program.done a >>= f) = f a := rfl

@[simp] theorem call_bind (op : S.Op) (next : S.Answer op → Program S α) (f : α → Program S β) :
    (Program.call op next >>= f) = .call op fun x => next x >>= f := rfl

theorem bind_done (p : Program S α) : (p >>= Program.done) = p := by
  induction p with
  | done a => rfl
  | call op next ih =>
    rw [call_bind]
    exact congrArg _ (funext ih)

theorem bind_assoc (p : Program S α) (f : α → Program S β) (g : β → Program S γ) :
    (p >>= f >>= g) = p >>= fun a => f a >>= g := by
  induction p with
  | done a => rfl
  | call op next ih =>
    simp only [call_bind]
    exact congrArg _ (funext ih)

instance : LawfulMonad (Program S) :=
  LawfulMonad.mk' (Program S) (fun p => bind_done p) (fun _ _ => rfl) bind_assoc

/-- One operation. -/
def perform (op : S.Op) : Program S (S.Answer op) := .call op .done

/-- The program alone: its result and the world it leaves. -/
def run (M : Machine S σ) : Program S α → σ → Option (α × σ)
  | .done a, s => some (a, s)
  | .call op next, s => (M op s).bind fun x => (next x.1).run M x.2

@[simp] theorem run_done (M : Machine S σ) (a : α) (s : σ) :
    (Program.done a : Program S α).run M s = some (a, s) := rfl

@[simp] theorem run_pure (M : Machine S σ) (a : α) (s : σ) :
    (pure a : Program S α).run M s = some (a, s) := rfl

theorem run_call (M : Machine S σ) (op : S.Op) (next : S.Answer op → Program S α) (s : σ) :
    (Program.call op next).run M s = (M op s).bind fun x => (next x.1).run M x.2 := rfl

@[simp] theorem run_perform (M : Machine S σ) (op : S.Op) (s : σ) :
    (perform op).run M s = M op s := by
  show ((M op s).bind fun x => some (x.1, x.2)) = M op s
  cases M op s <;> rfl

theorem run_bind (M : Machine S σ) (p : Program S α) (f : α → Program S β) (s : σ) :
    (p >>= f).run M s = (p.run M s).bind fun x => (f x.1).run M x.2 := by
  induction p generalizing s with
  | done a => rfl
  | call op next ih =>
    simp only [call_bind, run_call, ih]
    exact (Option.bind_assoc ..).symm

/-- A program that can fail goes on where it has not. -/
theorem run_bind_ok {s s' : σ} {a : α} (f : α → ExceptT ε (Program S) β) (h : p.run.run M s = some (.ok a, s')) :
    (p >>= f).run.run M s = (f a).run.run M s' := by
  show (p.run >>= ExceptT.bindCont f).run M s = _
  rw [run_bind, h]
  rfl

theorem run_bind_error {s s' : σ} {e : ε} (f : α → ExceptT ε (Program S) β)
    (h : p.run.run M s = some (.error e, s')) : (p >>= f).run.run M s = some (.error e, s') := by
  show (p.run >>= ExceptT.bindCont f).run M s = _
  rw [run_bind, h]
  rfl

/-- The two halves of a run. -/
theorem run_bind_some {f : α → ExceptT ε (Program S) β} {s t : σ} {r : Except ε β}
    (h : (p >>= f).run.run M s = some (r, t)) : ∃ r' u, p.run.run M s = some (r', u) ∧
      match r' with
      | .ok a => (f a).run.run M u = some (r, t)
      | .error e => r = .error e ∧ t = u := by
  have h : (p.run >>= ExceptT.bindCont f).run M s = some (r, t) := h
  rw [run_bind] at h
  obtain ⟨⟨r', u⟩, hp, h⟩ := Option.bind_eq_some_iff.mp h
  refine ⟨r', u, hp, ?_⟩
  cases r' with
  | ok a => exact h
  | error e =>
    obtain ⟨rfl, rfl⟩ := Prod.mk.inj (Option.some.inj h)
    exact ⟨rfl, rfl⟩

end Program

/-- A run has one result. -/
theorem result_eq {α σ : Type} {a b : α} {s t : σ} (h : some (a, s) = some (b, t)) : a = b ∧ s = t :=
  Prod.mk.inj (Option.some.inj h)

theorem of_bind_ok {ε α β : Type} {x : Except ε α} {f : α → Except ε β} {b : β} (h : x >>= f = .ok b) :
    ∃ a, x = .ok a ∧ f a = .ok b := by
  cases x with
  | error e => cases h
  | ok a => exact ⟨a, rfl, h⟩

end Detritus.Process
