import Detritus.Files.Disk
import Detritus.Process.Program

/-! File operations as calls.

Each is one step: the reads and writes of other tasks fall before or after it. An
operation that writes takes the time of the call; one that lists takes the order in
which the directory hands out its entries, which is any order at all. -/
namespace Detritus.Files

/-- The file operations that the source uses. -/
inductive FileOp where
  | createDirAll (p : Path)
  | create (p : Path)
  | openAppend (p : Path)
  | write (h : Handle) (bytes : Bytes)
  | sync (h : Handle)
  | read (p : Path)
  | tryExists (p : Path)
  | hardLink (src dst : Path)
  | removeFile (p : Path)
  | removeDirAll (p : Path)
  | renameDir (src dst : Path)
  | metadata (p : Path)
  /-- The entries of a directory, each with whether it is one itself. -/
  | readDir (p : Path)
  deriving DecidableEq

namespace FileOp

/-- What a success returns. -/
@[reducible] def Value : FileOp → Type
  | create _ | openAppend _ | write _ _ => Handle
  | read _ => Bytes
  | tryExists _ => Bool
  | metadata _ => Metadata
  | readDir _ => List (Path × Bool)
  | _ => Unit

abbrev Answer (op : FileOp) : Type := Except IoError op.Value

/-- An order in which directories hand out their entries. -/
structure Order where
  arrange : List Path → List Path
  perm : ∀ l, (arrange l).Perm l

/-- What each of them does to a disk. -/
def exec (now : Time) (order : Order) : (op : FileOp) → Disk → Answer op × Disk
  | createDirAll p, d => (.ok (), d.createDirAll p now)
  | create p, d => ((.ok (d.create p now).1 : Except IoError Handle), (d.create p now).2)
  | openAppend p, d => ((.ok (d.openAppend p now).1 : Except IoError Handle), (d.openAppend p now).2)
  | write h bytes, d => ((.ok (d.write h bytes now).1 : Except IoError Handle), (d.write h bytes now).2)
  | sync _, d => (.ok (), d)
  | read p, d => (d.read p, d)
  | tryExists p, d => ((.ok (d.occupied p) : Except IoError Bool), d)
  | hardLink src dst, d => d.hardLink src dst now
  | removeFile p, d => d.removeFile p now
  | removeDirAll p, d => d.removeDirAll p now
  | renameDir src dst, d => d.renameDir src dst now
  | metadata p, d => (d.metadata p, d)
  | readDir p, d => ((.ok ((order.arrange (d.children p)).map fun q => (q, (d.dir q).isSome)) :
      Except IoError (List (Path × Bool))), d)

/-- The operations that change neither which files there are nor what they hold. -/
def quiet : FileOp → Bool
  | createDirAll _ | sync _ | read _ | tryExists _ | metadata _ | readDir _ => true
  | _ => false

end FileOp

variable {d : Disk} {op : FileOp}

/-- The same files with the same content, whatever became of the directories. -/
structure Disk.SameFiles (d e : Disk) : Prop where
  file : e.file = d.file
  inode : e.inode = d.inode
  next : e.next = d.next

theorem Disk.SameFiles.content {d e : Disk} (h : d.SameFiles e) (p : Path) : e.content p = d.content p := by
  rw [Disk.content, h.file, h.inode]
  rfl

theorem FileOp.exec_quiet (h : op.quiet = true) (now : Time) (order : Order) (d : Disk) :
    d.SameFiles (op.exec now order d).2 := by
  cases op <;> first | exact ⟨rfl, rfl, rfl⟩ | cases h

/-- An operation that fails changes nothing. -/
theorem FileOp.exec_error {now : Time} {order : Order} {e : IoError} (h : (op.exec now order d).1 = .error e) :
    (op.exec now order d).2 = d := by
  cases op with
  | hardLink src dst =>
    show (d.hardLink src dst now).2 = d
    have h : (d.hardLink src dst now).1 = .error e := h
    unfold Disk.hardLink at h ⊢
    cases hn : d.file src with
    | none => rfl
    | some n =>
      rw [hn] at h
      dsimp only at h ⊢
      split at h
      · rw [if_pos ‹_›]
      · cases h
  | removeFile p =>
    show (d.removeFile p now).2 = d
    have h : (d.removeFile p now).1 = .error e := h
    unfold Disk.removeFile at h ⊢
    cases hn : d.file p with
    | none => rfl
    | some n =>
      rw [hn] at h
      cases h
  | removeDirAll p =>
    show (d.removeDirAll p now).2 = d
    have h : (d.removeDirAll p now).1 = .error e := h
    unfold Disk.removeDirAll at h ⊢
    cases hn : d.dir p with
    | none => rfl
    | some n =>
      rw [hn] at h
      cases h
  | renameDir src dst =>
    show (d.renameDir src dst now).2 = d
    have h : (d.renameDir src dst now).1 = .error e := h
    unfold Disk.renameDir at h ⊢
    cases hn : d.dir src with
    | none => rfl
    | some n =>
      rw [hn] at h
      dsimp only at h ⊢
      split at h
      · rw [if_pos ‹_›]
      · cases h
  | read | metadata => rfl
  | _ => cases h

/-- Directories go only when a directory is removed or renamed. -/
theorem FileOp.exec_dir (hremove : ∀ p, op ≠ .removeDirAll p) (hrename : ∀ p q, op ≠ .renameDir p q) (now : Time)
    (order : Order) {p : Path} (hp : (d.dir p).isSome = true) : ((op.exec now order d).2.dir p).isSome = true := by
  cases op with
  | createDirAll q => exact (Disk.createDirAll_dir d q now).mpr (.inr hp)
  | create q =>
    show ((d.create q now).2.dir p).isSome = true
    unfold Disk.create
    cases d.file q with
    | none => rwa [Disk.fresh_dir]
    | some n => exact hp
  | openAppend q =>
    show ((d.openAppend q now).2.dir p).isSome = true
    unfold Disk.openAppend
    cases d.file q with
    | none => rwa [Disk.fresh_dir]
    | some n => exact hp
  | hardLink src dst =>
    show ((d.hardLink src dst now).2.dir p).isSome = true
    unfold Disk.hardLink
    cases d.file src with
    | none => exact hp
    | some n =>
      dsimp only
      split
      · exact hp
      · rwa [Disk.touch_dir]
  | removeFile q =>
    show ((d.removeFile q now).2.dir p).isSome = true
    unfold Disk.removeFile
    cases d.file q with
    | none => exact hp
    | some n => rwa [Disk.touch_dir]
  | removeDirAll q => exact absurd rfl (hremove q)
  | renameDir src dst => exact absurd rfl (hrename src dst)
  | _ => exact hp

theorem Disk.mem_below {root q : Path} : q ∈ d.below root ↔ root <+: q ∧ q ≠ root ∧ (d.file q).isSome := by
  rw [Disk.below, List.mem_filter]
  constructor
  · rintro ⟨-, h⟩
    simpa [and_assoc] using h
  · intro h
    exact ⟨d.listed q (.inl h.2.2), by simpa [and_assoc] using h⟩

theorem Disk.mem_children {p q : Path} : q ∈ d.children p ↔ q ≠ [] ∧ q.parent = p ∧ d.occupied q = true := by
  rw [Disk.children, List.mem_filter, Bool.and_eq_true, Bool.and_eq_true, decide_eq_true_eq, decide_eq_true_eq,
    and_assoc]
  refine and_iff_right_of_imp fun h => d.listed q ?_
  have hoccupied := h.2.2
  rw [Disk.occupied, Bool.or_eq_true] at hoccupied
  exact hoccupied

theorem Disk.eq_append_of_mem_children {p q : Path} (h : q ∈ d.children p) : ∃ x, q = p ++ [x] := by
  obtain ⟨hne, hparent, -⟩ := Disk.mem_children.mp h
  refine ⟨q.getLast hne, ?_⟩
  rw [← hparent]
  exact (List.dropLast_append_getLast hne).symm

end Detritus.Files
