import Mathlib.Algebra.Order.Field.Basic
import Mathlib.Order.Interval.Finset.Nat
import Mathlib.Tactic.Linarith
import Mathlib.Tactic.Ring

/-! Regulators.

Events come one after the other, some of them a regulator's own. It grants some of those,
so that in no window there are more grants than a burst and a rate allow. Kept as a counter
that is refilled up to the burst (`level`), the same is said about every window at once
(`le_level_iff`): the counter is the least room that any window up to now has left. -/
namespace Detritus.Flow

variable {K : Type} [Field K] [LinearOrder K] [IsStrictOrderedRing K]

/-- A sequence of events: which are the regulator's own, which of those are granted, and when
each comes. -/
structure Events (K : Type) where
  own : Nat → Bool
  granted : Nat → Bool
  time : Nat → K

namespace Events
variable (E : Events K) (rate burst : K)

/-- The grants among the events from `m` up to `n`. -/
def grants (m n : Nat) : Nat := ((Finset.Ico m n).filter fun r => E.own r && E.granted r).card

omit [Field K] [LinearOrder K] [IsStrictOrderedRing K] in
theorem grants_self (m : Nat) : E.grants m m = 0 := by simp [grants]

omit [Field K] [LinearOrder K] [IsStrictOrderedRing K] in
theorem grants_succ {m n : Nat} (h : m ≤ n) :
    E.grants m (n + 1) = E.grants m n + if E.own n && E.granted n then 1 else 0 := by
  unfold grants
  rw [Nat.Ico_succ_right_eq_insert_Ico h, Finset.filter_insert]
  split_ifs
  · rw [Finset.card_insert_of_notMem (by simp)]
  · rfl

/-- The counter at a moment after `n` events, refilled but not yet drawn from. -/
def level : Nat → K → K
  | 0, _ => burst
  | n + 1, now =>
    if E.own n then min (level n (E.time n) - (if E.granted n then 1 else 0) + rate * (now - E.time n)) burst
    else level n now

/-- **The counter is the least room of all windows.** -/
theorem le_level_iff (n : Nat) (now x : K) : x ≤ E.level rate burst n now ↔
    x ≤ burst ∧ ∀ m < n, E.own m = true → x + E.grants m n ≤ burst + rate * (now - E.time m) := by
  induction n generalizing now x with
  | zero => simp [level]
  | succ n ih =>
    unfold level
    by_cases ho : E.own n = true
    · rw [if_pos ho, le_min_iff, and_comm]
      refine and_congr_right fun hx => ?_
      -- what is left after the event's own grant is asked of the earlier windows
      have hstep : x ≤ E.level rate burst n (E.time n) - (if E.granted n then 1 else 0) +
          rate * (now - E.time n) ↔
          x + (if E.granted n then 1 else 0) - rate * (now - E.time n) ≤ E.level rate burst n (E.time n) := by
        constructor <;> intro h <;> linarith
      rw [hstep, ih]
      have hgrant : ((if E.own n && E.granted n then 1 else 0 : Nat) : K) = if E.granted n then 1 else 0 := by
        rw [ho, Bool.true_and]
        split_ifs <;> simp
      constructor
      · rintro ⟨hn, hm⟩ m hlt hown
        rw [E.grants_succ (Nat.le_of_lt_succ hlt), Nat.cast_add, hgrant]
        rcases Nat.lt_succ_iff_lt_or_eq.mp hlt with hlt | rfl
        · have := hm m hlt hown
          have hsum : rate * (now - E.time m) = rate * (now - E.time n) + rate * (E.time n - E.time m) := by ring
          linarith
        · rw [grants_self, Nat.cast_zero, zero_add]
          linarith
      · intro hm
        constructor
        · have := hm n (Nat.lt_succ_self n) ho
          rw [E.grants_succ (Nat.le_refl n), grants_self, Nat.cast_add, hgrant, Nat.cast_zero, zero_add] at this
          linarith
        · intro m hlt hown
          have := hm m (Nat.lt_succ_of_lt hlt) hown
          rw [E.grants_succ hlt.le, Nat.cast_add, hgrant] at this
          have hsum : rate * (now - E.time m) = rate * (now - E.time n) + rate * (E.time n - E.time m) := by ring
          linarith
    · rw [if_neg ho, ih]
      refine and_congr_right fun _ => ⟨fun hm m hlt hown => ?_, fun hm m hlt hown => ?_⟩
      · have hne : m ≠ n := fun h => ho (h ▸ hown)
        have hlt' : m < n := by omega
        rw [E.grants_succ hlt'.le, Bool.eq_false_iff.mpr ho]
        simpa using hm m hlt' hown
      · have := hm m (Nat.lt_succ_of_lt hlt) hown
        rw [E.grants_succ hlt.le, Bool.eq_false_iff.mpr ho] at this
        simpa using this

end Events

end Detritus.Flow
