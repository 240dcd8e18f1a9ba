import Mathlib.Data.List.Infix

/-! Finding a pattern in a list.

`cut` splits a list at the first place where a pattern stands. What is put between
two patterns comes out again if the pattern does not occur in it and cannot straddle
its end, for which it is enough that the pattern's first element does not come again
in the pattern. -/
namespace Detritus.Parsing
variable {α : Type} [DecidableEq α]

/-- What is before and after the first place of a pattern. -/
def cut (pattern : List α) : List α → Option (List α × List α)
  | [] => if pattern = [] then some ([], []) else none
  | x :: rest =>
    if pattern <+: x :: rest then some ([], (x :: rest).drop pattern.length)
    else (cut pattern rest).map fun r => (x :: r.1, r.2)

theorem cut_prefix (pattern rest : List α) : cut pattern (pattern ++ rest) = some ([], rest) := by
  cases h : pattern ++ rest with
  | nil =>
    obtain ⟨rfl, rfl⟩ := List.append_eq_nil_iff.mp h
    rfl
  | cons x s =>
    have hp : pattern <+: x :: s := ⟨rest, h⟩
    rw [cut, if_pos hp, ← h, List.drop_left]

omit [DecidableEq α] in
/-- A pattern that stands where another begins begins there, too, or lies in what is before. -/
theorem not_straddle {c : α} {tail before rest : List α} (hc : c ∉ tail) (hne : before ≠ [])
    (h : ¬ c :: tail <+: before) : ¬ c :: tail <+: before ++ (c :: tail ++ rest) := by
  intro hp
  rcases Nat.le_total (c :: tail).length before.length with hle | hle
  · exact h (List.prefix_of_prefix_length_le hp (List.prefix_append ..) hle)
  -- the pattern is longer than what is before it, so it holds its own first element again
  · obtain ⟨q, hq⟩ := List.prefix_of_prefix_length_le (List.prefix_append ..) hp hle
    obtain ⟨b, before, rfl⟩ := List.exists_cons_of_ne_nil hne
    obtain ⟨rfl, htail⟩ := List.cons.inj hq
    rw [← hq, List.prefix_append_right_inj] at hp
    cases q with
    | nil =>
      rw [List.append_nil] at hq
      exact h (hq ▸ List.prefix_rfl)
    | cons x q =>
      obtain ⟨rfl, -⟩ := List.cons_prefix_cons.mp hp
      exact hc (htail ▸ List.mem_append_right _ (.head _))

/-- What stands before a pattern comes out as it is. -/
theorem cut_append {c : α} {tail : List α} (before rest : List α) (hc : c ∉ tail)
    (h : ¬ c :: tail <:+: before) : cut (c :: tail) (before ++ (c :: tail ++ rest)) = some (before, rest) := by
  induction before with
  | nil => exact cut_prefix _ rest
  | cons x before ih =>
    rw [List.infix_cons_iff, not_or] at h
    have hhere : ¬ c :: tail <+: x :: before ++ (c :: tail ++ rest) := not_straddle hc (by simp) h.1
    rw [List.cons_append] at hhere ⊢
    rw [cut, if_neg hhere, ih h.2]
    rfl

omit [DecidableEq α] in
/-- The pattern is not found in a list without its first element. -/
theorem not_infix_of_notMem {c : α} {tail l : List α} (h : c ∉ l) : ¬ c :: tail <:+: l :=
  fun hi => h (hi.subset (.head _))

/-! ### The start of a list -/

/-- What follows a pattern that a list starts with. -/
def strip (pattern s : List α) : Option (List α) :=
  if pattern <+: s then some (s.drop pattern.length) else none

theorem strip_append (pattern rest : List α) : strip pattern (pattern ++ rest) = some rest := by
  rw [strip, if_pos (List.prefix_append ..), List.drop_left]

/-! ### Lengths -/

omit [DecidableEq α] in
/-- Where each item is written as something, there are no more items than elements written. -/
theorem length_le_flatMap {β : Type} {f : β → List α} (hf : ∀ b, 0 < (f b).length) (l : List β) :
    l.length ≤ (l.flatMap f).length := by
  induction l with
  | nil => exact Nat.le_refl 0
  | cons b l ih =>
    have hb := hf b
    rw [List.flatMap_cons, List.length_append, List.length_cons]
    omega

/-! ### Both ends -/

/-- Without the elements at both ends that are of a kind. -/
def trim (p : α → Bool) (s : List α) : List α := ((s.dropWhile p).reverse.dropWhile p).reverse

omit [DecidableEq α] in
theorem dropWhile_of_head {p : α → Bool} {s : List α} (h : ∀ x ∈ s.head?, p x = false) : s.dropWhile p = s := by
  cases s with
  | nil => rfl
  | cons x s => rw [List.dropWhile_cons_of_neg (by simp [h x rfl])]

omit [DecidableEq α] in
/-- Nothing goes from a list whose ends are of another kind. -/
theorem trim_of_ends {p : α → Bool} {s : List α} (hh : ∀ x ∈ s.head?, p x = false)
    (hl : ∀ x ∈ s.getLast?, p x = false) : trim p s = s := by
  rw [trim, dropWhile_of_head hh, dropWhile_of_head (by simpa using hl), List.reverse_reverse]

end Detritus.Parsing
