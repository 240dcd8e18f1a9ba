import Mathlib.Algebra.BigOperators.Group.Finset.Piecewise
import Mathlib.Algebra.Order.BigOperators.Group.Finset
import Detritus.Process.Rely

/-! Histories.

A `Recorded` world carries the calls that led to it. What a task has done is then a
fact about the world, which assertions can speak of and which no other task can
undo. The length of the history numbers the calls: a machine that is told the number
can read clocks and other sources outside the world, each at its own moment. -/
namespace Detritus.Process

/-- A call and the answer it got. -/
structure Event (S : Interface) (ι : Type) where
  task : ι
  op : S.Op
  answer : S.Answer op

/-- A world and its history, the latest call first. -/
structure Recorded (S : Interface) (ι σ : Type) where
  state : σ
  history : List (Event S ι)

variable {S : Interface} {ι σ : Type} {e : Event S ι}

/-- Runs a machine, told the number of the call, and notes who called. -/
def record (M : Nat → Machine S σ) (i : ι) : Machine S (Recorded S ι σ) := fun op w =>
  (M w.history.length op w.state).map fun x => (x.1, ⟨x.2, ⟨i, op, x.1⟩ :: w.history⟩)

theorem record_eq_some {M : Nat → Machine S σ} {i : ι} {op : S.Op} {w w' : Recorded S ι σ}
    {x : S.Answer op} : record M i op w = some (x, w') ↔
      M w.history.length op w.state = some (x, w'.state) ∧ w'.history = ⟨i, op, x⟩ :: w.history := by
  unfold record
  constructor
  · intro h
    obtain ⟨⟨y, s⟩, hm, he⟩ := Option.map_eq_some_iff.mp h
    obtain ⟨rfl, rfl⟩ := Prod.mk.inj he
    exact ⟨hm, rfl⟩
  · rintro ⟨hm, hh⟩
    rw [hm]
    cases w'
    simp only at hh
    rw [hh]
    rfl

/-- The history has grown, by calls of other tasks than `i`. -/
def Apart (i : ι) (h h' : List (Event S ι)) : Prop :=
  ∃ new, h' = new ++ h ∧ ∀ e ∈ new, e.task ≠ i

namespace Apart
variable {i : ι} {h h' h'' : List (Event S ι)}

theorem refl : Apart i h h := ⟨[], rfl, by simp⟩

theorem trans (a : Apart i h h') (b : Apart i h' h'') : Apart i h h'' := by
  obtain ⟨new, rfl, hn⟩ := a
  obtain ⟨new', rfl, hn'⟩ := b
  refine ⟨new' ++ new, (List.append_assoc ..).symm, fun e he => ?_⟩
  rcases List.mem_append.mp he with h | h
  · exact hn' e h
  · exact hn e h

theorem cons (he : e.task ≠ i) : Apart i h (e :: h) := ⟨[e], rfl, by simpa using he⟩

theorem subset (a : Apart i h h') : h ⊆ h' := by
  obtain ⟨new, rfl, -⟩ := a
  exact List.subset_append_right ..

/-- What a task has done, it had done before the others' calls. -/
theorem mem (a : Apart i h h') (he : e.task = i) : e ∈ h' ↔ e ∈ h := by
  obtain ⟨new, rfl, hn⟩ := a
  rw [List.mem_append]
  exact ⟨fun hm => hm.resolve_left fun hnew => hn e hnew he, .inr⟩

end Apart

/-! ### What was noted -/

variable {β : Type}

/-- What `f` notes of the calls, the earliest first. -/
def noted (f : Event S ι → Option β) (h : List (Event S ι)) : List β := (h.filterMap f).reverse

@[simp] theorem noted_nil (f : Event S ι → Option β) : noted f [] = [] := rfl

theorem noted_cons (f : Event S ι → Option β) (e : Event S ι) (h : List (Event S ι)) :
    noted f (e :: h) = noted f h ++ (f e).toList := by
  unfold noted
  cases he : f e with
  | none => simp [List.filterMap_cons_none he]
  | some b => simp [List.filterMap_cons_some he]

theorem noted_cons_none {f : Event S ι → Option β} (h : List (Event S ι)) (he : f e = none) :
    noted f (e :: h) = noted f h := by
  rw [noted_cons, he, Option.toList_none, List.append_nil]

/-- What is noted of one task does not depend on the others. -/
theorem Apart.noted {f : Event S ι → Option β} {i : ι} {h h' : List (Event S ι)} (a : Apart i h h')
    (hf : ∀ e, e.task ≠ i → f e = none) : noted f h' = noted f h := by
  obtain ⟨new, rfl, hn⟩ := a
  unfold Process.noted
  rw [List.filterMap_append, List.filterMap_eq_nil_iff.mpr fun e he => hf e (hn e he), List.nil_append]

/-! ### Counting -/

section Count
variable [DecidableEq ι] {h : List (Event S ι)}

/-- The marked calls of one task. -/
def countBy (i : ι) (mark : Event S ι → Bool) (h : List (Event S ι)) : Nat :=
  h.countP fun e => e.task = i && mark e

theorem Apart.countBy {i : ι} {h h' : List (Event S ι)} (a : Apart i h h') (mark : Event S ι → Bool) :
    countBy i mark h' = countBy i mark h := by
  obtain ⟨new, rfl, hn⟩ := a
  unfold Process.countBy
  rw [List.countP_append, List.countP_eq_zero.mpr fun e he => by simp [hn e he], Nat.zero_add]

theorem countBy_cons (i : ι) (mark : Event S ι → Bool) (e : Event S ι) (h : List (Event S ι)) :
    countBy i mark (e :: h) = countBy i mark h + if e.task = i ∧ mark e = true then 1 else 0 := by
  unfold countBy
  rw [List.countP_cons]
  simp

theorem countP_eq_sum (mark : Event S ι → Bool) {tasks : Finset ι} (ht : ∀ e ∈ h, e.task ∈ tasks) :
    h.countP mark = ∑ i ∈ tasks, countBy i mark h := by
  induction h with
  | nil => simp [countBy]
  | cons e h ih =>
    rw [List.countP_cons, ih fun e he => ht e (.tail _ he)]
    simp only [countBy_cons, Finset.sum_add_distrib]
    congr 1
    by_cases hm : mark e = true
    · simp [hm, ht e (.head _)]
    · simp [hm]

/-- What each task does no more often than something else, all together do no more often. -/
theorem countP_le {a b : Event S ι → Bool} (hle : ∀ i, countBy i a h ≤ countBy i b h) : h.countP a ≤ h.countP b := by
  have hmem : ∀ e ∈ h, e.task ∈ (h.map Event.task).toFinset := fun e he =>
    List.mem_toFinset.mpr (List.mem_map_of_mem he)
  rw [countP_eq_sum a hmem, countP_eq_sum b hmem]
  exact Finset.sum_le_sum fun i _ => hle i

/-- And less often, if one of them does. -/
theorem countP_lt {a b : Event S ι → Bool} (hle : ∀ i, countBy i a h ≤ countBy i b h) {i : ι}
    (hlt : countBy i a h < countBy i b h) : h.countP a < h.countP b := by
  have hmem : ∀ e ∈ h, e.task ∈ insert i (h.map Event.task).toFinset := fun e he =>
    Finset.mem_insert_of_mem (List.mem_toFinset.mpr (List.mem_map_of_mem he))
  rw [countP_eq_sum a hmem, countP_eq_sum b hmem]
  exact Finset.sum_lt_sum (fun j _ => hle j) ⟨i, Finset.mem_insert_self .., hlt⟩

end Count

/-! ### Before and after a mark -/

/-- The calls after the latest that is marked. -/
def since (mark : Event S ι → Bool) (h : List (Event S ι)) : List (Event S ι) :=
  h.takeWhile fun e => !mark e

/-- The latest call that is marked and those before it. -/
def upTo (mark : Event S ι → Bool) (h : List (Event S ι)) : List (Event S ι) :=
  h.dropWhile fun e => !mark e

theorem since_append_upTo (mark : Event S ι → Bool) (h : List (Event S ι)) :
    since mark h ++ upTo mark h = h := List.takeWhile_append_dropWhile ..

theorem since_cons {mark : Event S ι → Bool} {h : List (Event S ι)} (he : mark e = false) :
    since mark (e :: h) = e :: since mark h := by
  rw [since, List.takeWhile_cons_of_pos (by simp [he])]
  rfl

end Detritus.Process
