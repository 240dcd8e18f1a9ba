import Mathlib.Data.List.Perm.Subperm
import Detritus.Files.Operations

/-! Trees of directories, one listing at a time.

A listing says of each entry whether it is a directory. In a tree whose directories are all
there (`Rooted`), the files below a directory are the files that its listing names together
with the files below the directories that it names (`below_listing`), and there are fewer
directories in those than in the one that holds them (`dirsFrom_listing`). -/
namespace Detritus.Files

/-- The directories that a listing names. -/
def subdirectories (entries : List (Path × Bool)) : List Path := (entries.filter fun e => e.2).map Prod.fst

/-- The files that a listing names. -/
def plainFiles (entries : List (Path × Bool)) : List Path := (entries.filter fun e => !e.2).map Prod.fst

theorem subdirectories_map (l : List Path) (isDir : Path → Bool) :
    subdirectories (l.map fun q => (q, isDir q)) = l.filter isDir := by
  simp [subdirectories, List.filter_map, Function.comp_def]

theorem plainFiles_map (l : List Path) (isDir : Path → Bool) :
    plainFiles (l.map fun q => (q, isDir q)) = l.filter fun q => !isDir q := by
  simp [plainFiles, List.filter_map, Function.comp_def]

/-- The way down to a path begins with an entry. -/
theorem Path.next_below {p q : Path} (hp : p <+: q) (hne : p ≠ q) : ∃ x, p ++ [x] <+: q := by
  obtain ⟨rest, rfl⟩ := hp
  cases rest with
  | nil => exact absurd (List.append_nil p).symm hne
  | cons x rest => exact ⟨x, rest, by rw [List.append_assoc, List.singleton_append]⟩

namespace Disk

/-- The tree below `root` is in one piece: every directory on the way to a file is there, and nothing is both a file
and a directory. -/
structure Rooted (d : Disk) (root : Path) : Prop where
  dirs : ∀ p q, root <+: p → p <+: q → p ≠ q → (d.file q).isSome = true → (d.dir p).isSome = true
  apart : ∀ p, root <+: p → (d.file p).isSome = true → (d.dir p).isSome = false

instance (d : Disk) (root : Path) : Decidable (d.Rooted root) :=
  decidable_of_iff (∀ q ∈ d.known, root <+: q → (d.file q).isSome = true → (d.dir q).isSome = false ∧
      ∀ p ∈ q.inits, root <+: p → p ≠ q → (d.dir p).isSome = true)
    ⟨fun h => ⟨fun p q hp hpq hne hq =>
        (h q (d.listed q (.inl hq)) (hp.trans hpq) hq).2 p ((List.mem_inits p q).mpr hpq) hp hne,
      fun p hp hfile => (h p (d.listed p (.inl hfile)) hp hfile).1⟩,
    fun h q _ hq hfile => ⟨h.apart q hq hfile,
      fun p hp hroot hne => h.dirs p q hroot ((List.mem_inits p q).mp hp) hne hfile⟩⟩

/-- The directory and those below it. -/
def dirsFrom (d : Disk) (p : Path) : List Path := d.known.filter fun q => p.isPrefixOf q && (d.dir q).isSome

variable {d : Disk} {root p q : Path} {l : List Path}

theorem mem_dirsFrom : q ∈ d.dirsFrom p ↔ p <+: q ∧ (d.dir q).isSome = true := by
  rw [dirsFrom, List.mem_filter, Bool.and_eq_true, List.isPrefixOf_iff_prefix]
  exact and_iff_right_of_imp fun h => d.listed q (.inr h.2)

/-- An entry that is not a directory is a file. -/
theorem file_of_mem_children (h : q ∈ d.children p) (hdir : (d.dir q).isSome = false) : (d.file q).isSome = true := by
  have hoccupied := (mem_children.mp h).2.2
  rwa [occupied, hdir, Bool.or_false] at hoccupied

theorem below_of_mem_children (h : q ∈ d.children p) : p <+: q ∧ p ≠ q := by
  obtain ⟨x, rfl⟩ := eq_append_of_mem_children h
  exact ⟨List.prefix_append .., by simp⟩

theorem mem_children_of_dir {x : String} (h : (d.dir (p ++ [x])).isSome = true) : p ++ [x] ∈ d.children p :=
  mem_children.mpr ⟨by simp, List.dropLast_concat, by rw [occupied, h, Bool.or_true]⟩

theorem mem_children_of_file {x : String} (h : (d.file (p ++ [x])).isSome = true) : p ++ [x] ∈ d.children p :=
  mem_children.mpr ⟨by simp, List.dropLast_concat, by rw [occupied, h, Bool.true_or]⟩

/-- Two entries of a directory have nothing below them in common. -/
theorem eq_of_mem_children {a b : Path} (ha : a ∈ d.children p) (hb : b ∈ d.children p) (haq : a <+: q) (hbq : b <+: q) :
    a = b := by
  obtain ⟨x, rfl⟩ := eq_append_of_mem_children ha
  obtain ⟨y, rfl⟩ := eq_append_of_mem_children hb
  exact (List.prefix_of_prefix_length_le haq hbq (by simp)).eq_of_length (by simp)

/-- Lists of what lies below each of some entries do not meet. -/
theorem nodup_flatMap_children (hl : l.Perm (d.children p)) {g : Path → List Path} (isDir : Path → Bool)
    (hg : ∀ c, (g c).Nodup) (hbelow : ∀ c, ∀ q ∈ g c, c <+: q) : ((l.filter isDir).flatMap g).Nodup := by
  refine List.nodup_flatMap.mpr ⟨fun c _ => hg c, ?_⟩
  have hnodup : (l.filter isDir).Nodup := (hl.nodup_iff.mpr (d.nodup.filter _)).filter _
  refine hnodup.imp_of_mem fun {a b} ha hb hne => List.disjoint_left.mpr fun q hqa hqb => hne ?_
  exact eq_of_mem_children (hl.mem_iff.mp (List.mem_filter.mp ha).1) (hl.mem_iff.mp (List.mem_filter.mp hb).1)
    (hbelow a q hqa) (hbelow b q hqb)

/-- What a listing leads to is below its directory. -/
theorem listing_subperm (hl : l.Perm (d.children p)) :
    ((l.filter fun q => !(d.dir q).isSome) ++ (l.filter fun q => (d.dir q).isSome).flatMap d.below).Subperm
      (d.below p) := by
  have hnodup : l.Nodup := hl.nodup_iff.mpr (d.nodup.filter _)
  refine List.Nodup.subperm (List.nodup_append.mpr ⟨hnodup.filter _, ?_, ?_⟩) fun q hq => mem_below.mpr ?_
  · exact nodup_flatMap_children hl _ (fun c => d.nodup.filter _) fun c q hq => (mem_below.mp hq).1
  · intro q hq r hr heq
    subst heq
    obtain ⟨c, hc, hqc⟩ := List.mem_flatMap.mp hr
    obtain ⟨hcq, hne, -⟩ := mem_below.mp hqc
    exact hne (eq_of_mem_children (hl.mem_iff.mp (List.mem_filter.mp hq).1)
      (hl.mem_iff.mp (List.mem_filter.mp hc).1) (List.prefix_refl q) hcq)
  · rcases List.mem_append.mp hq with hq | hq
    · obtain ⟨hq, hdir⟩ := List.mem_filter.mp hq
      obtain ⟨hpq, hne⟩ := below_of_mem_children (hl.mem_iff.mp hq)
      exact ⟨hpq, Ne.symm hne, file_of_mem_children (hl.mem_iff.mp hq) (by simpa using hdir)⟩
    · obtain ⟨c, hc, hq⟩ := List.mem_flatMap.mp hq
      obtain ⟨hpc, hne⟩ := below_of_mem_children (hl.mem_iff.mp (List.mem_filter.mp hc).1)
      obtain ⟨hcq, -, hfile⟩ := mem_below.mp hq
      refine ⟨hpc.trans hcq, ?_, hfile⟩
      rintro rfl
      exact hne (hpc.eq_of_length_le hcq.length_le)

/-- **What is below a directory**, by its listing. -/
theorem below_listing (hd : d.Rooted root) (hp : root <+: p) (hl : l.Perm (d.children p)) :
    (d.below p).Perm ((l.filter fun q => !(d.dir q).isSome) ++
      (l.filter fun q => (d.dir q).isSome).flatMap d.below) := by
  refine List.Subperm.antisymm (List.Nodup.subperm (d.nodup.filter _) fun q hq => ?_) (listing_subperm hl)
  obtain ⟨hpq, hne, hfile⟩ := mem_below.mp hq
  obtain ⟨x, hx⟩ := Path.next_below hpq (Ne.symm hne)
  by_cases hq : p ++ [x] = q
  · subst hq
    refine List.mem_append_left _ (List.mem_filter.mpr ⟨hl.mem_iff.mpr (mem_children_of_file hfile), ?_⟩)
    rw [hd.apart _ (hp.trans hpq) hfile]
    rfl
  · have hdir := hd.dirs _ q (hp.trans (List.prefix_append ..)) hx hq hfile
    refine List.mem_append_right _ (List.mem_flatMap.mpr ⟨p ++ [x], ?_, mem_below.mpr ⟨hx, Ne.symm hq, hfile⟩⟩)
    exact List.mem_filter.mpr ⟨hl.mem_iff.mpr (mem_children_of_dir hdir), hdir⟩

/-- The directories below a directory are fewer than with the directory itself. -/
theorem dirsFrom_listing (hl : l.Perm (d.children p)) (hdir : (d.dir p).isSome = true) :
    ((l.filter fun q => (d.dir q).isSome).flatMap d.dirsFrom).length < (d.dirsFrom p).length := by
  have hnodup : (p :: (l.filter fun q => (d.dir q).isSome).flatMap d.dirsFrom).Nodup := by
    refine List.nodup_cons.mpr ⟨fun hmem => ?_, ?_⟩
    · obtain ⟨c, hc, hcp⟩ := List.mem_flatMap.mp hmem
      obtain ⟨hpc, hne⟩ := below_of_mem_children (hl.mem_iff.mp (List.mem_filter.mp hc).1)
      exact hne (hpc.eq_of_length_le (mem_dirsFrom.mp hcp).1.length_le)
    · exact nodup_flatMap_children hl _ (fun c => d.nodup.filter _) fun c q hq => (mem_dirsFrom.mp hq).1
  refine (hnodup.subperm fun q hq => mem_dirsFrom.mpr ?_).length_le
  rcases List.mem_cons.mp hq with rfl | hq
  · exact ⟨List.prefix_refl q, hdir⟩
  · obtain ⟨c, hc, hq⟩ := List.mem_flatMap.mp hq
    obtain ⟨hcq, hqdir⟩ := mem_dirsFrom.mp hq
    exact ⟨(below_of_mem_children (hl.mem_iff.mp (List.mem_filter.mp hc).1)).1.trans hcq, hqdir⟩

/-! ### A walk -/

/-- Where a walk of the tree below `root` has come to, with the directories still to be read and the files that were
found: together they lead to files of the tree, and to all of them if it is in one piece. -/
structure Walking (d : Disk) (root : Path) (dirs files : List Path) : Prop where
  under : ∀ p ∈ dirs, root <+: p
  part : (files ++ dirs.flatMap d.below).Subperm (d.below root)
  whole : d.Rooted root → (d.below root).Perm (files ++ dirs.flatMap d.below)

namespace Walking
variable {dirs files : List Path}

theorem begin (d : Disk) (root : Path) : d.Walking root [root] [] := by
  have hall : [] ++ [root].flatMap d.below = d.below root := by simp
  exact ⟨by simp, by rw [hall], fun _ => by rw [hall]⟩

/-- Where nothing is at the root there is nothing below it. -/
theorem absent (h : d.occupied root = false) : d.Walking root [] [] := by
  refine ⟨by simp, List.nil_subperm, fun hd => ?_⟩
  have hnone : d.below root = [] := List.eq_nil_iff_forall_not_mem.mpr fun q hq => by
    obtain ⟨hrq, hne, hfile⟩ := mem_below.mp hq
    have hdir := hd.dirs root q (List.prefix_refl root) hrq (Ne.symm hne) hfile
    rw [occupied, hdir, Bool.or_true] at h
    cases h
  rw [hnone]
  rfl

/-- One directory is read. -/
theorem step (h : d.Walking root (p :: dirs) files) (hl : l.Perm (d.children p)) :
    d.Walking root ((l.filter fun q => (d.dir q).isSome).reverse ++ dirs)
      (files ++ l.filter fun q => !(d.dir q).isSome) := by
  have hp := h.under p (.head _)
  -- the listing in the place of the directory, in the order in which the loop leaves it
  have hplace : (files ++ (((l.filter fun q => !(d.dir q).isSome) ++
        (l.filter fun q => (d.dir q).isSome).flatMap d.below) ++ dirs.flatMap d.below)).Perm
      ((files ++ l.filter fun q => !(d.dir q).isSome) ++
        ((l.filter fun q => (d.dir q).isSome).reverse ++ dirs).flatMap d.below) := by
    rw [List.flatMap_append, List.append_assoc, List.append_assoc]
    refine (List.Perm.append_left _ (List.Perm.append_left _ (List.Perm.append_right _ ?_)))
    exact List.Perm.flatMap_right _ (List.reverse_perm _).symm
  refine ⟨fun q hq => ?_, ?_, fun hd => ?_⟩
  · rcases List.mem_append.mp hq with hq | hq
    · have hq := (List.mem_filter.mp (List.mem_reverse.mp hq)).1
      exact hp.trans (below_of_mem_children (hl.mem_iff.mp hq)).1
    · exact h.under q (.tail _ hq)
  · refine hplace.symm.subperm.trans (List.Subperm.trans ?_ h.part)
    rw [List.flatMap_cons]
    exact (List.subperm_append_left files).mpr ((List.subperm_append_right _).mpr (listing_subperm hl))
  · refine (h.whole hd).trans (List.Perm.trans ?_ hplace)
    rw [List.flatMap_cons]
    exact List.Perm.append_left _ (List.Perm.append_right _ (below_listing hd hp hl))

/-- At the end the stack is empty. -/
theorem finish (h : d.Walking root [] files) : files.Subperm (d.below root) ∧
    (d.Rooted root → (d.below root).Perm files) := by
  have hall : files ++ ([] : List Path).flatMap d.below = files := List.append_nil files
  exact ⟨hall ▸ h.part, fun hd => hall ▸ h.whole hd⟩

end Walking

end Disk

end Detritus.Files
