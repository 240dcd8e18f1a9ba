import Detritus.Files.Disk

/-! What is below a directory.

`SameBelow root d e` says that a disk has not changed below a directory: the same files
with the same content, the same directories. Operations elsewhere keep it. One that
writes to an inode is elsewhere if no path below leads to that inode. -/
namespace Detritus.Files
namespace Disk
variable {d e : Disk} {root p q src dst : Path} {now : Time} {n : Nat} {later : Time} {bytes : Bytes} {f : Disk}

/-- New inodes are new: those in use have smaller numbers. -/
def Numbered (d : Disk) : Prop := ∀ p n, d.file p = some n → n < d.next

/-- The two disks agree below `root`, on the content of the files too. -/
structure SameBelow (root : Path) (d e : Disk) : Prop where
  file : ∀ p, root <+: p → e.file p = d.file p
  dir : ∀ p, root <+: p → e.dir p = d.dir p
  inode : ∀ p n, root <+: p → d.file p = some n → e.inode n = d.inode n

theorem SameBelow.refl (root : Path) (d : Disk) : SameBelow root d d :=
  ⟨fun _ _ => rfl, fun _ _ => rfl, fun _ _ _ _ => rfl⟩

theorem SameBelow.trans (a : SameBelow root d e) (b : SameBelow root e f) : SameBelow root d f where
  file p hp := (b.file p hp).trans (a.file p hp)
  dir p hp := (b.dir p hp).trans (a.dir p hp)
  inode p n hp hn := (b.inode p n hp ((a.file p hp).trans hn)).trans (a.inode p n hp hn)

/-- What can be read below `root` is the same. -/
theorem SameBelow.content (a : SameBelow root d e) (hp : root <+: p) : e.content p = d.content p := by
  unfold Disk.content
  rw [a.file p hp]
  cases hn : d.file p with
  | none => rfl
  | some n => simp [a.inode p n hp hn]

theorem ne_of_below (h : ¬ root <+: p) (hq : root <+: q) : q ≠ p := by
  rintro rfl
  exact h hq

theorem ne_parent_of_below (h : ¬ root <+: p) (hq : root <+: q) : q ≠ p.parent := by
  rintro rfl
  exact h (hq.trans (List.dropLast_prefix p))

/-! ### Directories -/

/-- Directories made elsewhere. -/
theorem createDirAll_sameBelow (h : ¬ root <+: p) : SameBelow root d (d.createDirAll p now) where
  file _ _ := rfl
  dir _ hq := if_neg fun hqp => h (hq.trans hqp)
  inode _ _ _ _ := rfl

theorem touch_sameBelow (h : ¬ root <+: p) : SameBelow root d (d.touch p now) where
  file _ _ := rfl
  dir _ hq := if_neg (ne_parent_of_below h hq)
  inode _ _ _ _ := rfl

/-! ### Names -/

/-- A name given elsewhere. -/
theorem link_sameBelow (h : ¬ root <+: p) : SameBelow root d (d.link p n) where
  file _ hq := Function.update_of_ne (ne_of_below h hq) ..
  dir _ _ := rfl
  inode _ _ _ _ := rfl

/-- A name taken away elsewhere. -/
theorem unlink_sameBelow (h : ¬ root <+: p) : SameBelow root d (d.unlink p) where
  file _ hq := Function.update_of_ne (ne_of_below h hq) ..
  dir _ _ := rfl
  inode _ _ _ _ := rfl

/-! ### Content -/

/-- An inode that no path below `root` leads to may change. -/
theorem store_sameBelow {i : Inode} (h : ∀ p, root <+: p → d.file p ≠ some n) : SameBelow root d (d.store n i) where
  file _ _ := rfl
  dir _ _ := rfl
  inode p m hp hm := by
    have hne : m ≠ n := by
      rintro rfl
      exact h p hp hm
    exact Function.update_of_ne hne ..

/-- A file made elsewhere has an inode of its own. -/
theorem fresh_sameBelow (hd : d.Numbered) (h : ¬ root <+: p) : SameBelow root d (d.fresh p now) where
  file _ hq := Function.update_of_ne (ne_of_below h hq) ..
  dir _ hq := if_neg (ne_parent_of_below h hq)
  inode q m _ hm := Function.update_of_ne (Nat.ne_of_lt (hd q m hm)) ..

/-! ### Numbers -/

/-- The next number is taken, and goes up. -/
theorem Numbered.fresh (hd : d.Numbered) : (d.fresh p now).Numbered := by
  intro q m hm
  rw [fresh_file] at hm
  rw [fresh_next]
  by_cases hq : q = p
  · subst hq
    rw [Function.update_self] at hm
    exact Option.some.inj hm ▸ Nat.lt_succ_self _
  · rw [Function.update_of_ne hq] at hm
    exact Nat.lt_succ_of_lt (hd q m hm)

theorem Numbered.openAppend (hd : d.Numbered) : (d.openAppend p now).2.Numbered := by
  unfold Disk.openAppend
  cases d.file p with
  | none => exact hd.fresh
  | some n => exact hd

theorem Numbered.touch (hd : d.Numbered) : (d.touch p now).Numbered := fun q m hm => hd q m hm

/-- A second name is for an inode in use. -/
theorem Numbered.link (hd : d.Numbered) (hn : n < d.next) : (d.link p n).Numbered := by
  intro q m hm
  rw [link_file] at hm
  by_cases hq : q = p
  · subst hq
    rw [Function.update_self] at hm
    exact Option.some.inj hm ▸ hn
  · rw [Function.update_of_ne hq] at hm
    exact hd q m hm

theorem Numbered.unlink (hd : d.Numbered) : (d.unlink p).Numbered := by
  intro q m hm
  rw [unlink_file] at hm
  by_cases hq : q = p
  · subst hq
    rw [Function.update_self] at hm
    cases hm
  · rw [Function.update_of_ne hq] at hm
    exact hd q m hm

/-! ### What is at a path -/

theorem touch_occupied : (d.touch p now).occupied q = d.occupied q := by
  rw [occupied, touch_dir, touch_file, occupied]

/-- A path that is not on the way to `p` is as free as it was. -/
theorem createDirAll_occupied (h : ¬ q <+: p) : (d.createDirAll p now).occupied q = d.occupied q := by
  have hdir : (d.createDirAll p now).dir q = d.dir q := if_neg h
  rw [occupied, hdir]
  rfl

theorem link_occupied (h : q ≠ p) : (d.link p n).occupied q = d.occupied q := by
  rw [occupied, link_file, link_dir, Function.update_of_ne h, occupied]

/-- A name that was given is in use. -/
theorem link_occupied_self : (d.link p n).occupied p = true := by
  rw [occupied, link_file, Function.update_self]
  rfl

theorem unlink_occupied (h : q ≠ p) : (d.unlink p).occupied q = d.occupied q := by
  rw [occupied, unlink_file, unlink_dir, Function.update_of_ne h, occupied]

theorem fresh_occupied (h : q ≠ p) : (d.fresh p now).occupied q = d.occupied q := by
  rw [occupied, fresh_dir, fresh_file, Function.update_of_ne h, occupied]

/-! ### A file written anew -/

/-- What is written to a file that was just created is all it holds. -/
theorem create_write_content (bytes : Bytes) :
    ((d.create p now).2.write (d.create p now).1 bytes later).2.content p = some bytes := by
  cases h : d.file p with
  | none =>
    rw [create_none h]
    simp [content, write, position, overlay]
  | some n =>
    rw [create_some h]
    simp [content, write, position, overlay, h]

/-- It is the file that was there, or a new one. -/
theorem create_write_file (bytes : Bytes) (q : Path) :
    ((d.create p now).2.write (d.create p now).1 bytes later).2.file q =
      if q = p then some ((d.file p).getD d.next) else d.file q := by
  cases h : d.file p with
  | none =>
    rw [create_none h]
    show (d.fresh p now).file q = _
    rw [fresh_file, Function.update_apply]
    rfl
  | some n =>
    rw [create_some h]
    show d.file q = _
    split
    · next hq => rw [hq, h]; rfl
    · rfl

/-- A file written anew takes at most the next number. -/
theorem Numbered.create_write (hd : d.Numbered) :
    ((d.create p now).2.write (d.create p now).1 bytes later).2.Numbered := by
  cases h : d.file p with
  | none =>
    rw [create_none h]
    have hfresh : (d.fresh p now).Numbered := hd.fresh
    exact fun q m hm => hfresh q m hm
  | some n =>
    rw [create_some h]
    exact fun q m hm => hd q m hm

/-- Files that do not share an inode with it hold what they held. -/
theorem create_write_other (bytes : Bytes) (hd : d.Numbered) (hq : q ≠ p)
    (hshare : ∀ n, d.file p = some n → d.file q ≠ some n) :
    ((d.create p now).2.write (d.create p now).1 bytes later).2.content q = d.content q := by
  cases h : d.file p with
  | none =>
    rw [create_none h]
    have hfile : (d.fresh p now).file q = d.file q := by rw [fresh_file, Function.update_of_ne hq]
    cases hn : d.file q with
    | none => simp [content, write, hfile, hn]
    | some m => simp [content, write, hfile, hn, Nat.ne_of_lt (hd q m hn)]
  | some n =>
    rw [create_some h]
    cases hm : d.file q with
    | none => simp [content, write, hm]
    | some m =>
      have hne : m ≠ n := by
        rintro rfl
        exact hshare m h hm
      simp [content, write, hm, hne]

/-! ### Where content changes -/

/-- Nothing but the new file holds anything else. -/
theorem fresh_changes (hd : d.Numbered) (h : (d.fresh p now).content q ≠ d.content q) : q = p := by
  by_contra hq
  apply h
  unfold content
  rw [fresh_file, Function.update_of_ne hq, fresh_inode]
  cases hn : d.file q with
  | none => rfl
  | some m => rw [Option.map_some, Function.update_of_ne (Nat.ne_of_lt (hd q m hn)), Option.map_some]

/-- What changes with an inode are the files that lead to it. -/
theorem store_changes {i : Inode} (h : (d.store n i).content q ≠ d.content q) : d.file q = some n := by
  by_contra hq
  apply h
  unfold content
  rw [store_file, store_inode]
  cases hm : d.file q with
  | none => rfl
  | some m =>
    have hne : m ≠ n := by
      rintro rfl
      exact hq hm
    rw [Option.map_some, Function.update_of_ne hne, Option.map_some]

/-- A file that is created anew is cut short under all its names. -/
theorem create_changes (hd : d.Numbered) (h : (d.create p now).2.content q ≠ d.content q) :
    q = p ∨ ∃ n, d.file q = some n ∧ d.file p = some n := by
  cases hp : d.file p with
  | none =>
    rw [create_none hp] at h
    exact .inl (fresh_changes hd h)
  | some n =>
    rw [create_some hp] at h
    exact .inr ⟨n, store_changes h, rfl⟩

/-- To open a file for appending changes no other file. -/
theorem openAppend_changes (hd : d.Numbered) (h : (d.openAppend p now).2.content q ≠ d.content q) : q = p := by
  unfold openAppend at h
  cases hp : d.file p with
  | none =>
    rw [hp] at h
    exact fresh_changes hd h
  | some n =>
    rw [hp] at h
    exact absurd rfl h

/-- A write changes the files that lead to the inode of its handle. -/
theorem write_changes {handle : Handle} (h : (d.write handle bytes now).2.content q ≠ d.content q) :
    d.file q = some handle.inode := store_changes h

/-- A link changes no file but the new one. -/
theorem hardLink_changes (h : (d.hardLink src dst now).2.content q ≠ d.content q) : q = dst := by
  by_contra hq
  apply h
  unfold hardLink
  cases d.file src with
  | none => rfl
  | some n =>
    dsimp only
    split
    · rfl
    · unfold content
      rw [touch_file, link_file, Function.update_of_ne hq, touch_inode, link_inode]

/-- A removed file is gone. -/
theorem removeFile_self : (d.removeFile p now).2.file p = none := by
  cases hp : d.file p with
  | none =>
    rw [removeFile_none hp]
    exact hp
  | some m =>
    rw [removeFile_some hp]
    exact Function.update_self ..

/-- Its inode stays, for handles that are still open. -/
theorem removeFile_inode : (d.removeFile p now).2.inode = d.inode := by
  cases hp : d.file p with
  | none => rw [removeFile_none hp]
  | some m => rw [removeFile_some hp, touch_inode, unlink_inode]

theorem removeFile_dir : ((d.removeFile p now).2.dir q).isSome = (d.dir q).isSome := by
  cases hp : d.file p with
  | none => rw [removeFile_none hp]
  | some m => rw [removeFile_some hp, touch_dir, unlink_dir]

/-- The other names stay. -/
theorem removeFile_other (hq : q ≠ p) : (d.removeFile p now).2.file q = d.file q := by
  cases hp : d.file p with
  | none => rw [removeFile_none hp]
  | some m =>
    rw [removeFile_some hp]
    exact Function.update_of_ne hq ..

theorem removeFile_file (h : (d.removeFile p now).2.file q = some n) : d.file q = some n := by
  by_cases hq : q = p
  · rw [hq, removeFile_self] at h
    cases h
  · rw [← removeFile_other hq, h]

theorem Numbered.removeFile (hd : d.Numbered) : (d.removeFile p now).2.Numbered := by
  have hnext : (d.removeFile p now).2.next = d.next := by
    cases hp : d.file p with
    | none => rw [removeFile_none hp]
    | some m =>
      rw [removeFile_some hp]
      rfl
  intro q m hm
  rw [hnext]
  exact hd q m (removeFile_file hm)

/-- Nothing but the removed file reads otherwise. -/
theorem removeFile_changes (h : (d.removeFile p now).2.content q ≠ d.content q) : q = p := by
  by_contra hq
  apply h
  unfold removeFile
  cases d.file p with
  | none => rfl
  | some n =>
    unfold content
    rw [touch_file, unlink_file, Function.update_of_ne hq, touch_inode, unlink_inode]

/-! ### A tree with files of its own -/

/-- No file below `root` has another name. -/
structure Tidy (root : Path) (d : Disk) : Prop where
  numbered : d.Numbered
  own : ∀ p q n, root <+: p → d.file p = some n → d.file q = some n → q = p

/-- Nothing but the content of one file has changed. -/
structure Only (p : Path) (d e : Disk) : Prop where
  content : ∀ q, q ≠ p → e.content q = d.content q
  dir : ∀ q, (e.dir q).isSome = (d.dir q).isSome

theorem Only.refl (p : Path) (d : Disk) : Only p d d := ⟨fun _ _ => rfl, fun _ => rfl⟩

theorem Only.trans (a : Only p d e) (b : Only p e f) : Only p d f where
  content q hq := (b.content q hq).trans (a.content q hq)
  dir q := (b.dir q).trans (a.dir q)

/-- The handle of a created file is for the inode its name leads to. -/
theorem create_file : (d.create p now).2.file p = some (d.create p now).1.inode := by
  cases h : d.file p with
  | none =>
    rw [create_none h]
    exact Function.update_self ..
  | some n =>
    rw [create_some h]
    exact h

/-- A file created in a tidy tree, in which it changes nothing else. -/
theorem Tidy.create (h : Tidy root d) (hp : root <+: p) :
    Tidy root (d.create p now).2 ∧ Only p d (d.create p now).2 := by
  cases hn : d.file p with
  | none =>
    rw [create_none hn]
    refine ⟨⟨h.numbered.fresh, ?_⟩, fun q hq => ?_, fun q => fresh_dir ..⟩
    · intro a b m ha ham hbm
      rw [fresh_file] at ham hbm
      by_cases hap : a = p
      · subst hap
        by_contra hb
        rw [Function.update_self] at ham
        rw [Function.update_of_ne hb] at hbm
        exact Nat.lt_irrefl _ (Option.some.inj ham ▸ h.numbered b m hbm)
      · rw [Function.update_of_ne hap] at ham
        by_cases hbp : b = p
        · subst hbp
          rw [Function.update_self] at hbm
          exact absurd (h.numbered a m ham) (Option.some.inj hbm ▸ Nat.lt_irrefl _)
        · rw [Function.update_of_ne hbp] at hbm
          exact h.own a b m ha ham hbm
    · by_contra hne
      exact hq (fresh_changes h.numbered hne)
  | some n =>
    rw [create_some hn]
    refine ⟨⟨h.numbered, h.own⟩, fun q hq => ?_, fun _ => rfl⟩
    by_contra hne
    exact hq (h.own p q n hp hn (store_changes hne))

/-- A write to a file of a tidy tree changes that file only. -/
theorem Tidy.write (h : Tidy root d) (hp : root <+: p) {handle : Handle} (hn : d.file p = some handle.inode) :
    Tidy root (d.write handle bytes now).2 ∧ Only p d (d.write handle bytes now).2 := by
  refine ⟨⟨h.numbered, h.own⟩, fun q hq => ?_, fun _ => rfl⟩
  by_contra hne
  exact hq (h.own p q _ hp hn (write_changes hne))

/-- A tree without files. -/
theorem Tidy.of_free (hd : d.Numbered) (h : ∀ p, root <+: p → d.file p = none) : Tidy root d where
  numbered := hd
  own p _ _ hp hn _ := by
    rw [h p hp] at hn
    cases hn

/-- Nothing outside a tree has changed, and no directory has come or gone. -/
structure Within (root : Path) (d e : Disk) : Prop where
  content : ∀ q, ¬ root <+: q → e.content q = d.content q
  dir : ∀ q, (e.dir q).isSome = (d.dir q).isSome

theorem Within.refl (root : Path) (d : Disk) : Within root d d := ⟨fun _ _ => rfl, fun _ => rfl⟩

theorem Within.trans (a : Within root d e) (b : Within root e f) : Within root d f where
  content q hq := (b.content q hq).trans (a.content q hq)
  dir q := (b.dir q).trans (a.dir q)

/-- One file of a tree is within the tree. -/
theorem Only.within (h : Only p d e) (hp : root <+: p) : Within root d e where
  content q hq := h.content q fun heq => hq (heq ▸ hp)
  dir := h.dir

end Disk

end Detritus.Files
