import Detritus.Files.Operations

/-! Guarded paths.

Some paths (`G`) may hold only some contents (`K`). Files are opened by name and written
through handles, and names other than the guarded ones are linked and removed at will: as
long as no guarded file has a second name and whoever holds a handle writes what its path
may hold, every guarded path goes on holding what it may. `H` says which inode was opened
at which path. -/
namespace Detritus.Files

namespace Disk

structure Guarded (G : Path → Prop) (K : Path → Bytes → Prop) (H : Nat → Path → Prop) (d : Disk) : Prop where
  below : ∀ p n, d.file p = some n → n < d.next
  /-- A guarded file has no second name. -/
  apart : ∀ p q n, G p → d.file p = some n → d.file q = some n → q = p
  /-- A handle leads to the path it was opened at, if that is guarded, and to no other that is. -/
  handles : ∀ n p, H n p → n < d.next ∧ ∀ q, G q → (d.file q = some n ↔ q = p)
  content : ∀ p bytes, G p → d.content p = some bytes → K p bytes

/-- One more handle. -/
def Opens (H : Nat → Path → Prop) (n : Nat) (p : Path) (m : Nat) (q : Path) : Prop := H m q ∨ (m = n ∧ q = p)

namespace Guarded
variable {G : Path → Prop} {K : Path → Bytes → Prop} {H H' : Nat → Path → Prop} {d e : Disk} {p : Path} {now : Time}

theorem mono (h : Guarded G K H d) (hH : ∀ n q, H' n q → H n q) : Guarded G K H' d :=
  ⟨h.below, h.apart, fun n q hq => h.handles n q (hH n q hq), h.content⟩

theorem same (h : Guarded G K H d) (hd : d.SameFiles e) : Guarded G K H e := by
  have hcontent : ∀ q, e.content q = d.content q := fun q => by
    rw [Disk.content, hd.file, hd.inode, Disk.content]
  refine ⟨?_, ?_, ?_, ?_⟩
  · rw [hd.file, hd.next]
    exact h.below
  · rw [hd.file]
    exact h.apart
  · rw [hd.file, hd.next]
    exact h.handles
  · intro q bytes hq hb
    exact h.content q bytes hq (hcontent q ▸ hb)

/-- The file of a path that has one. -/
theorem opens (h : Guarded G K H d) {n : Nat} (hp : d.file p = some n) : Guarded G K (Opens H n p) d := by
  refine ⟨h.below, h.apart, ?_, h.content⟩
  intro m q hm
  rcases hm with hm | ⟨rfl, rfl⟩
  · exact h.handles m q hm
  · refine ⟨h.below q m hp, fun r hr => ⟨fun hf => ?_, fun he => he ▸ hp⟩⟩
    exact (h.apart r q m hr hf hp).symm

/-- Contents that change in one file. -/
theorem store (h : Guarded G K H d) {n : Nat} {i : Inode} (hK : ∀ q, G q → d.file q = some n → K q i.content) :
    Guarded G K H (d.store n i) := by
  refine ⟨h.below, h.apart, h.handles, fun q bytes hq hb => ?_⟩
  obtain ⟨m, hm, rfl⟩ := Option.map_eq_some_iff.mp hb
  rw [store_file] at hm
  by_cases hn : m = n
  · subst hn
    rw [store_inode, Function.update_self]
    exact hK q hq hm
  · rw [store_inode, Function.update_of_ne hn]
    exact h.content q _ hq (by rw [Disk.content, hm]; rfl)

theorem fresh (h : Guarded G K H d) (hp : d.file p = none) (hK : G p → K p []) :
    Guarded G K (Opens H d.next p) (d.fresh p now) := by
  have hfile : ∀ q n, (d.fresh p now).file q = some n → q = p ∧ n = d.next ∨ q ≠ p ∧ d.file q = some n :=
    fun _ _ => fresh_some
  refine ⟨?_, ?_, ?_, ?_⟩
  · intro q n hq
    rw [fresh_next]
    rcases hfile q n hq with ⟨-, rfl⟩ | ⟨-, hq⟩
    · exact Nat.lt_succ_self _
    · exact Nat.lt_succ_of_lt (h.below q n hq)
  · intro q r n hq hqn hrn
    rcases hfile q n hqn with ⟨hqp, hn⟩ | ⟨-, hqn⟩ <;> rcases hfile r n hrn with ⟨hrp, hn'⟩ | ⟨-, hrn⟩
    · exact hrp.trans hqp.symm
    · exact absurd (h.below r n hrn) (Nat.not_lt.mpr hn.ge)
    · exact absurd (h.below q n hqn) (Nat.not_lt.mpr hn'.ge)
    · exact h.apart q r n hq hqn hrn
  · intro n q hn
    rw [fresh_next, fresh_file]
    rcases hn with hn | ⟨rfl, rfl⟩
    · obtain ⟨hlt, hiff⟩ := h.handles n q hn
      refine ⟨Nat.lt_succ_of_lt hlt, fun r hr => ?_⟩
      by_cases he : r = p
      · subst he
        -- the path had no file, so no handle was opened at it
        rw [Function.update_self]
        refine ⟨fun hs => absurd (Option.some.inj hs) (Nat.ne_of_gt hlt), fun hs => ?_⟩
        rw [(hiff r hr).mpr hs] at hp
        cases hp
      · rw [Function.update_of_ne he]
        exact hiff r hr
    · refine ⟨Nat.lt_succ_self _, fun r _ => ?_⟩
      by_cases he : r = q
      · subst he
        simp
      · rw [Function.update_of_ne he]
        exact ⟨fun hf => absurd (h.below r _ hf) (Nat.lt_irrefl _), fun hs => absurd hs he⟩
  · intro q bytes hq hb
    obtain ⟨n, hn, rfl⟩ := Option.map_eq_some_iff.mp hb
    rw [fresh_inode]
    rcases hfile q n hn with ⟨rfl, rfl⟩ | ⟨-, hn⟩
    · rw [Function.update_self]
      exact hK hq
    · rw [Function.update_of_ne (Nat.ne_of_lt (h.below q n hn))]
      exact h.content q _ hq (by rw [Disk.content, hn]; rfl)

theorem create (h : Guarded G K H d) (hK : G p → K p []) :
    Guarded G K (Opens H (d.create p now).1.inode p) (d.create p now).2 := by
  cases hp : d.file p with
  | none =>
    rw [create_none hp]
    exact h.fresh hp hK
  | some n =>
    rw [create_some hp]
    refine (h.opens hp).store fun q hq hn => ?_
    obtain rfl := h.apart q p n hq hn hp
    exact hK hq

theorem openAppend (h : Guarded G K H d) (hK : G p → K p []) :
    Guarded G K (Opens H (d.openAppend p now).1.inode p) (d.openAppend p now).2 := by
  unfold Disk.openAppend
  cases hp : d.file p with
  | none => exact h.fresh hp hK
  | some n => exact h.opens hp

/-- What is written is such as the path of the handle may hold. -/
theorem write (h : Guarded G K H d) {hd : Handle} {bytes : Bytes} (ho : H hd.inode p)
    (hK : ∀ old, G p → K p old →
      K p (overlay old (if hd.append then old.length else hd.offset) bytes)) :
    Guarded G K H (d.write hd bytes now).2 := by
  refine h.store fun q hq hf => ?_
  obtain rfl := ((h.handles _ p ho).2 q hq).mp hf
  exact hK _ hq (h.content q _ hq (by rw [Disk.content, hf]; rfl))

/-- A second name for a file that is not guarded. -/
theorem hardLink (h : Guarded G K H d) {src dst : Path} (hs : ¬ G src) (hd : ¬ G dst) :
    Guarded G K H (d.hardLink src dst now).2 := by
  unfold Disk.hardLink
  cases hn : d.file src with
  | none => exact h
  | some n =>
    dsimp only
    split
    · exact h
    have hfile : ∀ q m, ((d.link dst n).touch dst now).file q = some m → q = dst ∧ m = n ∨ d.file q = some m := by
      intro q m hq
      rw [touch_file, link_file] at hq
      by_cases he : q = dst
      · subst he
        rw [Function.update_self] at hq
        exact .inl ⟨rfl, (Option.some.inj hq).symm⟩
      · rw [Function.update_of_ne he] at hq
        exact .inr hq
    have hguarded : ∀ q, G q → ((d.link dst n).touch dst now).file q = d.file q := by
      intro q hq
      have hne : q ≠ dst := fun he => hd (he ▸ hq)
      rw [touch_file, link_file, Function.update_of_ne hne]
    refine ⟨?_, ?_, ?_, ?_⟩
    · intro q m hq
      rcases hfile q m hq with ⟨-, rfl⟩ | hq
      · exact h.below src m hn
      · exact h.below q m hq
    · intro q r m hq hqm hrm
      rw [hguarded q hq] at hqm
      rcases hfile r m hrm with ⟨-, rfl⟩ | hrm
      · obtain rfl := h.apart q src m hq hqm hn
        exact absurd hq hs
      · exact h.apart q r m hq hqm hrm
    · intro m q hm
      obtain ⟨hlt, hiff⟩ := h.handles m q hm
      refine ⟨hlt, fun r hr => ?_⟩
      rw [hguarded r hr]
      exact hiff r hr
    · intro q bytes hq hb
      rw [Disk.content, hguarded q hq] at hb
      exact h.content q bytes hq hb

theorem removeFile (h : Guarded G K H d) (hp : ¬ G p) : Guarded G K H (d.removeFile p now).2 := by
  unfold Disk.removeFile
  cases d.file p with
  | none => exact h
  | some n =>
    have hfile : ∀ q m, ((d.unlink p).touch p now).file q = some m → d.file q = some m := by
      intro q m hq
      rw [touch_file, unlink_file] at hq
      by_cases he : q = p
      · subst he
        rw [Function.update_self] at hq
        cases hq
      · rwa [Function.update_of_ne he] at hq
    have hguarded : ∀ q, G q → ((d.unlink p).touch p now).file q = d.file q := by
      intro q hq
      have hne : q ≠ p := fun he => hp (he ▸ hq)
      rw [touch_file, unlink_file, Function.update_of_ne hne]
    refine ⟨fun q m hq => h.below q m (hfile q m hq), ?_, ?_, ?_⟩
    · exact fun q r m hq hqm hrm => h.apart q r m hq (hfile q m hqm) (hfile r m hrm)
    · intro m q hm
      obtain ⟨hlt, hiff⟩ := h.handles m q hm
      refine ⟨hlt, fun r hr => ?_⟩
      rw [hguarded r hr]
      exact hiff r hr
    · intro q bytes hq hb
      rw [Disk.content, hguarded q hq] at hb
      exact h.content q bytes hq hb

end Guarded

end Disk

end Detritus.Files
