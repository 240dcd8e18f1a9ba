import Mathlib.Data.List.Sort
import Mathlib.Logic.Function.Basic

/-! Interleavings.

`Interleaves f l` says that `l` is the lists `f i` run together: each item is marked with
the list it is from, and the items of one list stand in its order. -/
namespace Detritus.Process

variable {ι α β : Type}

section Interleaves
variable [DecidableEq ι]

/-- The items of one list. -/
def itemsOf (i : ι) (l : List (ι × α)) : List α := (l.filter (·.1 = i)).map Prod.snd

/-- Every list is in it in its own order. -/
def Interleaves (f : ι → List α) (l : List (ι × α)) : Prop := ∀ i, itemsOf i l = f i

theorem itemsOf_cons (i j : ι) (a : α) (l : List (ι × α)) :
    itemsOf i ((j, a) :: l) = if j = i then a :: itemsOf i l else itemsOf i l := by
  unfold itemsOf
  by_cases h : j = i <;> simp [h]

/-- Where the items of each list are images, the whole is an image. -/
theorem Interleaves.lift {f : ι → List α} {g : α → β} {l : List (ι × β)}
    (h : Interleaves (fun i => (f i).map g) l) :
    ∃ l' : List (ι × α), l'.map (Prod.map id g) = l ∧ Interleaves f l' := by
  induction l generalizing f with
  | nil =>
    refine ⟨[], rfl, fun i => ?_⟩
    exact (List.map_eq_nil_iff.mp (h i).symm).symm
  | cons x l ih =>
    obtain ⟨j, b⟩ := x
    have hj : b :: itemsOf j l = (f j).map g := by
      have := h j
      rwa [itemsOf_cons, if_pos rfl] at this
    obtain ⟨a, rest, hf, rfl, hrest⟩ := List.map_eq_cons_iff.mp hj.symm
    -- the others are as they were, and of this list the first item is taken
    obtain ⟨l', hl', hi⟩ := ih (f := Function.update f j rest) fun i => by
      by_cases hij : i = j
      · subst hij
        simp only [Function.update_self]
        exact hrest.symm
      · have := h i
        rw [itemsOf_cons, if_neg (Ne.symm hij)] at this
        simp only [Function.update_of_ne hij]
        exact this
    refine ⟨(j, a) :: l', by simp [hl'], fun i => ?_⟩
    rw [itemsOf_cons, hi i]
    by_cases hij : j = i
    · subst hij
      rw [if_pos rfl, Function.update_self, hf]
    · rw [if_neg hij, Function.update_of_ne (Ne.symm hij)]

end Interleaves

/-! ### Lists in the order of a key -/

section Sorted
variable [PartialOrder β] [DecidableEq β] {key : α → β}

/-- Items with the least key stand in front. -/
theorem filter_append_filter_of_sorted {l : List α} {b : β} (hl : l.Pairwise fun x y => key x ≤ key y)
    (hb : ∀ x ∈ l, b ≤ key x) :
    (l.filter fun x => key x = b) ++ (l.filter fun x => key x ≠ b) = l := by
  induction l with
  | nil => rfl
  | cons x l ih =>
    obtain ⟨hx, hl⟩ := List.pairwise_cons.mp hl
    by_cases hxb : key x = b
    · simpa [hxb] using ih hl fun y hy => hb y (.tail _ hy)
    · have hlt : b < key x := lt_of_le_of_ne (hb x (.head _)) (Ne.symm hxb)
      have hne : ∀ y ∈ l, key y ≠ b := fun y hy => ((hlt.trans_le (hx y hy)).ne').elim
      have hnone : (l.filter fun x => key x = b) = [] := by simpa using hne
      simpa [hxb, hnone] using hne

/-- **A list in the order of a key is its parts for each key, one after the other.** -/
theorem flatMap_filter_of_sorted {keys : List β} (hk : keys.Pairwise (· < ·)) {l : List α}
    (hl : l.Pairwise fun x y => key x ≤ key y) (hm : ∀ x ∈ l, key x ∈ keys) :
    (keys.flatMap fun b => l.filter fun x => key x = b) = l := by
  induction keys generalizing l with
  | nil =>
    cases l with
    | nil => rfl
    | cons x l => exact absurd (hm x (.head _)) (by simp)
  | cons b keys ih =>
    obtain ⟨hb, hk⟩ := List.pairwise_cons.mp hk
    have hle : ∀ x ∈ l, b ≤ key x := fun x hx => by
      rcases List.mem_cons.mp (hm x hx) with h | h
      · exact h.ge
      · exact (hb _ h).le
    have hrest := ih hk (l := l.filter fun x => key x ≠ b) (hl.filter _) fun x hx => by
      have := List.mem_filter.mp hx
      exact (List.mem_cons.mp (hm x this.1)).resolve_left (by simpa using this.2)
    have hsame : (keys.flatMap fun c => l.filter fun x => key x = c) =
        keys.flatMap fun c => (l.filter fun x => key x ≠ b).filter fun x => key x = c := by
      refine List.flatMap_congr fun c hc => ?_
      rw [List.filter_filter]
      refine List.filter_congr fun x _ => ?_
      have : c ≠ b := (hb c hc).ne'
      by_cases hx : key x = c <;> simp [hx, this]
    rw [List.flatMap_cons, hsame, hrest]
    exact filter_append_filter_of_sorted hl hle

end Sorted

end Detritus.Process
