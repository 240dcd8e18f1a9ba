import Detritus.Files.Region

/-! Directories: their times, and that they are removed or renamed with all they hold. -/
namespace Detritus.Files
namespace Disk
variable {d : Disk} {p q src dst root : Path} {now : Time} {n : Nat}

/-! ### Times -/

theorem fresh_dir_other (hq : q ≠ p.parent) : (d.fresh p now).dir q = d.dir q := if_neg hq

theorem create_dir_other (hq : q ≠ p.parent) : (d.create p now).2.dir q = d.dir q := by
  cases h : d.file p with
  | none =>
    rw [create_none h]
    exact fresh_dir_other hq
  | some n =>
    rw [create_some h]
    rfl

theorem openAppend_dir_other (hq : q ≠ p.parent) : (d.openAppend p now).2.dir q = d.dir q := by
  unfold openAppend
  cases d.file p with
  | none => exact fresh_dir_other hq
  | some n => rfl

/-! ### Inodes -/

/-- An inode that there was before is not given to a new file. -/
theorem fresh_file_of (hn : n < d.next) (h : (d.fresh p now).file q = some n) : d.file q = some n := by
  rw [fresh_file] at h
  by_cases hq : q = p
  · rw [hq, Function.update_self] at h
    exact absurd hn (Option.some.inj h ▸ Nat.lt_irrefl _)
  · rwa [Function.update_of_ne hq] at h

/-- A file with an older inode was there before. -/
theorem create_file_of (hn : n < d.next) (h : (d.create p now).2.file q = some n) : d.file q = some n := by
  cases hp : d.file p with
  | none =>
    rw [create_none hp] at h
    exact fresh_file_of hn h
  | some m =>
    rw [create_some hp] at h
    exact h

theorem openAppend_file_of (hn : n < d.next) (h : (d.openAppend p now).2.file q = some n) : d.file q = some n := by
  unfold openAppend at h
  cases hp : d.file p with
  | none =>
    rw [hp] at h
    exact fresh_file_of hn h
  | some m =>
    rw [hp] at h
    exact h

/-- Numbers of inodes are not used again. -/
theorem create_next : d.next ≤ (d.create p now).2.next := by
  cases hp : d.file p with
  | none =>
    rw [create_none hp]
    exact Nat.le_succ _
  | some m =>
    rw [create_some hp]
    exact Nat.le_refl _

theorem openAppend_next : d.next ≤ (d.openAppend p now).2.next := by
  unfold openAppend
  cases d.file p with
  | none => exact Nat.le_succ _
  | some m => exact Nat.le_refl _

/-- A file opened for appending has no second name. -/
theorem Tidy.openAppend (hd : d.Tidy root) (hp : root <+: p) : (d.openAppend p now).2.Tidy root := by
  cases h : d.file p with
  | none =>
    have hcreate : (d.create p now).2.Tidy root := (hd.create hp).1
    rw [create_none h] at hcreate
    unfold Disk.openAppend
    rw [h]
    exact hcreate
  | some m =>
    unfold Disk.openAppend
    rw [h]
    exact hd

/-! ### Removing -/

/-- All that is below goes, and nothing else. -/
theorem removeDirAll_ok (h : (d.removeDirAll p now).1 = .ok ()) : (d.dir p).isSome = true ∧
    (∀ q, (d.removeDirAll p now).2.file q = if p <+: q then none else d.file q) ∧
    (∀ q, q ≠ p.parent → (d.removeDirAll p now).2.dir q = if p <+: q then none else d.dir q) ∧
    (d.removeDirAll p now).2.inode = d.inode ∧ (d.removeDirAll p now).2.next = d.next := by
  unfold removeDirAll at h ⊢
  cases hp : d.dir p with
  | none =>
    rw [hp] at h
    cases h
  | some t => exact ⟨rfl, fun _ => rfl, fun _ hq => if_neg hq, rfl, rfl⟩

/-- Files elsewhere hold what they held. -/
theorem removeDirAll_content (h : (d.removeDirAll p now).1 = .ok ()) (hq : ¬ p <+: q) :
    (d.removeDirAll p now).2.content q = d.content q := by
  obtain ⟨-, hfile, -, hinode, -⟩ := removeDirAll_ok h
  rw [content, hfile, if_neg hq, hinode]
  rfl

theorem Tidy.removeDirAll (hd : d.Tidy root) (h : (d.removeDirAll p now).1 = .ok ()) :
    (d.removeDirAll p now).2.Tidy root := by
  obtain ⟨-, hfile, -, -, hnext⟩ := removeDirAll_ok h
  have hof : ∀ q n, (d.removeDirAll p now).2.file q = some n → d.file q = some n := by
    intro q n hq
    rw [hfile] at hq
    split at hq
    · cases hq
    · exact hq
  refine ⟨fun q n hq => ?_, fun a b n ha hn hm => ?_⟩
  · rw [hnext]
    exact hd.numbered q n (hof q n hq)
  · exact hd.own a b n ha (hof a n hn) (hof b n hm)

/-! ### Renaming -/

/-- All that is below moves along. -/
theorem renameDir_ok (h : (d.renameDir src dst now).1 = .ok ()) : (d.dir src).isSome = true ∧
    d.occupied dst = false ∧
    (∀ q, (d.renameDir src dst now).2.file q =
      if dst <+: q then d.file (moved dst src q) else if src <+: q then none else d.file q) ∧
    (∀ q, q ≠ src.parent → q ≠ dst.parent → (d.renameDir src dst now).2.dir q =
      if dst <+: q then d.dir (moved dst src q) else if src <+: q then none else d.dir q) ∧
    (d.renameDir src dst now).2.inode = d.inode ∧ (d.renameDir src dst now).2.next = d.next := by
  unfold renameDir at h ⊢
  cases hs : d.dir src with
  | none =>
    rw [hs] at h
    cases h
  | some t =>
    rw [hs] at h
    dsimp only at h ⊢
    split at h
    · cases h
    · next ho =>
      rw [if_neg ho]
      refine ⟨rfl, Bool.eq_false_iff.mpr ho, fun _ => rfl, fun q hq hq' => ?_, rfl, rfl⟩
      exact (if_neg hq').trans (if_neg hq)

theorem moved_append (src dst rest : Path) : moved dst src (dst ++ rest) = src ++ rest := by
  rw [moved, List.drop_left]

/-- What was moved holds what it held. -/
theorem renameDir_content_dst (h : (d.renameDir src dst now).1 = .ok ()) (rest : Path) :
    (d.renameDir src dst now).2.content (dst ++ rest) = d.content (src ++ rest) := by
  obtain ⟨-, -, hfile, -, hinode, -⟩ := renameDir_ok h
  rw [content, hfile, if_pos (List.prefix_append ..), moved_append, hinode]
  rfl

theorem renameDir_content_other (h : (d.renameDir src dst now).1 = .ok ()) (hd : ¬ dst <+: q) (hs : ¬ src <+: q) :
    (d.renameDir src dst now).2.content q = d.content q := by
  obtain ⟨-, -, hfile, -, hinode, -⟩ := renameDir_ok h
  rw [content, hfile, if_neg hd, if_neg hs, hinode]
  rfl

/-- Where a file was before. -/
theorem renameDir_file_of (h : (d.renameDir src dst now).1 = .ok ())
    (hq : (d.renameDir src dst now).2.file q = some n) :
    (∃ rest, q = dst ++ rest ∧ d.file (src ++ rest) = some n) ∨
      ¬ dst <+: q ∧ ¬ src <+: q ∧ d.file q = some n := by
  obtain ⟨-, -, hfile, -, -, -⟩ := renameDir_ok h
  rw [hfile] at hq
  split at hq
  · next hdst =>
    obtain ⟨rest, rfl⟩ := hdst
    rw [moved_append] at hq
    exact .inl ⟨rest, rfl, hq⟩
  · split at hq
    · cases hq
    · exact .inr ⟨‹_›, ‹_›, hq⟩

theorem Tidy.renameDir (hd : d.Tidy root) (hsrc : root <+: src)
    (h : (d.renameDir src dst now).1 = .ok ()) : (d.renameDir src dst now).2.Tidy root := by
  obtain ⟨-, -, -, -, -, hnext⟩ := renameDir_ok h
  refine ⟨fun q n hq => ?_, fun a b n ha hn hm => ?_⟩
  · rw [hnext]
    rcases renameDir_file_of h hq with ⟨rest, -, hq⟩ | ⟨-, -, hq⟩
    · exact hd.numbered _ n hq
    · exact hd.numbered q n hq
  · rcases renameDir_file_of h hn with ⟨rest, rfl, hn'⟩ | ⟨-, hna, hn'⟩
    · rcases renameDir_file_of h hm with ⟨rest', rfl, hm'⟩ | ⟨-, hnb, hm'⟩
      · rw [List.append_cancel_left (hd.own _ _ n (hsrc.trans (List.prefix_append ..)) hn' hm')]
      · refine absurd ?_ hnb
        rw [hd.own _ _ n (hsrc.trans (List.prefix_append ..)) hn' hm']
        exact List.prefix_append ..
    · rcases renameDir_file_of h hm with ⟨rest', rfl, hm'⟩ | ⟨-, -, hm'⟩
      · refine absurd ?_ hna
        rw [← hd.own a _ n ha hn' hm']
        exact List.prefix_append ..
      · exact hd.own a b n ha hn' hm'

end Disk

end Detritus.Files
