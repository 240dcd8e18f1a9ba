import Detritus.Process.Discipline
import Detritus.Process.Rely

/-! A program that obeys a discipline, among others.

What every call that it may make keeps, and the others cannot make false, is so at its end,
together with what the discipline says of its result. -/
namespace Detritus.Process

section Conduct
variable {S : Interface} {ι σ α ε : Type} {D : Discipline S ι} {i : ι} {K : Contract S (Recorded S ι σ)}
  {M : Nat → Machine S σ}

theorem Contract.Holds.of_obeys {A : Recorded S ι σ → Prop} (hexec : K.exec = record M i) (hA : K.Stable A)
    (hgrow : ∀ s t, A s → K.rely s t → s.history ⊆ t.history)
    (hfits : ∀ n op s x s', M n op s = some (x, s') → D.fits op x)
    (hstep : ∀ op s x t, A s → D.may i op s.history → K.allows op s → K.exec op s = some (x, t) →
      K.guarantee s t ∧ A t)
    {Q : α → List (Event S ι) → Prop} (hQ : ∀ a h h', h ⊆ h' → Q a h → Q a h') {p : Program S α}
    {s : Recorded S ι σ} (hp : D.Obeys i Q p s.history) (hs : A s) :
    K.Holds (fun a t => A t ∧ Q a t.history) p s := by
  induction p generalizing s with
  | done a => exact fun t ht => ⟨hA s t ht hs, hQ a _ _ (hgrow s t hs ht) hp⟩
  | call op next ih =>
    intro t ht ha x u hx
    obtain ⟨hg, hu⟩ := hstep op t x u (hA s t ht hs) (D.grows (hgrow s t hs ht) hp.1) ha hx
    obtain ⟨hm, hh⟩ := record_eq_some.mp (by rw [hexec] at hx; exact hx)
    refine ⟨hg, ih x ?_ hu⟩
    rw [hh]
    exact (hp.2 x (hfits _ _ _ _ _ hm)).grow hQ (List.cons_subset_cons _ (hgrow s t hs ht))

/-- The same of a program that can fail. -/
theorem Contract.Yields.of_minds {A : Recorded S ι σ → Prop} (hexec : K.exec = record M i) (hA : K.Stable A)
    (hgrow : ∀ s t, A s → K.rely s t → s.history ⊆ t.history)
    (hfits : ∀ n op s x s', M n op s = some (x, s') → D.fits op x)
    (hstep : ∀ op s x t, A s → D.may i op s.history → K.allows op s → K.exec op s = some (x, t) →
      K.guarantee s t ∧ A t)
    {Q : α → List (Event S ι) → Prop} (hQ : ∀ a h h', h ⊆ h' → Q a h → Q a h') {p : ExceptT ε (Program S) α}
    {s : Recorded S ι σ} (hp : D.Minds i Q p s.history) (hs : A s) :
    K.Yields (fun a t => A t ∧ Q a t.history) (fun _ => A) p s := by
  refine (Contract.Holds.of_obeys hexec hA hgrow hfits hstep (fun r h h' hh hr a ha => hQ a h h' hh (hr a ha))
    hp hs).mono fun r t ht => ?_
  cases r with
  | ok a => exact ⟨ht.1, ht.2 a rfl⟩
  | error e => exact ht.1

end Conduct

end Detritus.Process
