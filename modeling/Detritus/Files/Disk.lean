import Mathlib.Data.List.Nodup
import Mathlib.Data.List.Lattice
import Mathlib.Logic.Function.Basic
import Detritus.Files.Path

/-! A file system.

Names are kept apart from files: a path leads to an inode, two paths may lead to the
same one (`hardLink`), and an open `Handle` goes on writing to its inode after every
path to it is gone. Directories are recorded with their own modification time.
`Disk.listed` carries the fact that `known` holds every path in use, which is what
makes a listing of a directory a finite list.

The operations here are those of a disk without faults: an operation fails only when
what it names is missing or in the way. A caller that creates a file has created its
directory, so a missing parent is not among the reasons. -/
namespace Detritus.Files

abbrev Bytes := List UInt8

/-- Nanoseconds since the Unix epoch. -/
abbrev Time := Nat

/-- The kinds of error that the source tells apart. -/
inductive IoError where
  | notFound
  | alreadyExists
  | invalidData
  | other
  deriving DecidableEq, Repr

/-- `origin` is the path the file was created at; no operation reads it. -/
structure Inode where
  origin : Path
  content : Bytes
  modified : Time
  deriving DecidableEq, Repr

/-- An open file: where the next write goes, or at the end of the file whatever its
length by then. -/
structure Handle where
  inode : Nat
  offset : Nat
  append : Bool
  deriving DecidableEq, Repr

/-- What `metadata` tells of a file or a directory. -/
structure Metadata where
  modified : Time
  len : Nat
  deriving DecidableEq, Repr

/-- Names lead to inodes, and inodes hold the bytes. A directory has the time of its last change. -/
structure Disk where
  file : Path → Option Nat
  dir : Path → Option Time
  inode : Nat → Inode
  next : Nat
  known : List Path
  nodup : known.Nodup
  listed : ∀ p, (file p).isSome ∨ (dir p).isSome → p ∈ known

/-- Bytes written over `content` at an offset; a gap is filled with zeros. -/
def overlay (content : Bytes) (offset : Nat) (bytes : Bytes) : Bytes :=
  (content ++ List.replicate (offset - content.length) 0).take offset ++ bytes ++
    content.drop (offset + bytes.length)

/-- Bytes written at the end are appended. -/
theorem overlay_end (content bytes : Bytes) :
    overlay content content.length bytes = content ++ bytes := by
  simp [overlay]

/-- Bytes written at the beginning stand before what they do not reach. -/
theorem overlay_start (content bytes : Bytes) :
    overlay content 0 bytes = bytes ++ content.drop bytes.length := by
  simp [overlay]

namespace Disk
variable {q : Path} {n : Nat}

def empty : Disk where
  file := fun _ => none
  dir := fun _ => none
  inode := fun _ => ⟨[], [], 0⟩
  next := 0
  known := []
  nodup := List.nodup_nil
  listed := by simp

/-- What the file at a path holds. -/
def content (d : Disk) (p : Path) : Option Bytes := (d.file p).map fun n => (d.inode n).content

/-- Something is at the path. -/
def occupied (d : Disk) (p : Path) : Bool := (d.file p).isSome || (d.dir p).isSome

/-- Leads `p` to the inode `n`. -/
def link (d : Disk) (p : Path) (n : Nat) : Disk where
  file := Function.update d.file p (some n)
  dir := d.dir
  inode := d.inode
  next := d.next
  known := d.known.insert p
  nodup := d.nodup.insert
  listed := by
    intro q hq
    rw [List.mem_insert_iff]
    by_cases h : q = p
    · exact .inl h
    · rw [Function.update_of_ne h] at hq
      exact .inr (d.listed q hq)

/-- A name is taken away. -/
def unlink (d : Disk) (p : Path) : Disk where
  file := Function.update d.file p none
  dir := d.dir
  inode := d.inode
  next := d.next
  known := d.known
  nodup := d.nodup
  listed := by
    intro q hq
    by_cases h : q = p
    · subst h
      rw [Function.update_self] at hq
      exact d.listed q (.inr (by simpa using hq))
    · rw [Function.update_of_ne h] at hq
      exact d.listed q hq

/-- An inode gets a new value. -/
def store (d : Disk) (n : Nat) (i : Inode) : Disk := {d with inode := Function.update d.inode n i}

/-- A change among a directory's entries is a change of the directory. -/
def touch (d : Disk) (p : Path) (now : Time) : Disk where
  file := d.file
  dir := fun q => if q = p.parent then (d.dir q).map fun _ => now else d.dir q
  inode := d.inode
  next := d.next
  known := d.known
  nodup := d.nodup
  listed := by
    intro q hq
    apply d.listed
    by_cases h : q = p.parent <;> simpa [h] using hq

/-- A fresh inode at `p`. -/
def fresh (d : Disk) (p : Path) (now : Time) : Disk :=
  {((d.link p d.next).store d.next ⟨p, [], now⟩).touch p now with next := d.next + 1}

/-! ### Operations -/

/-- The directory and those above it. -/
def createDirAll (d : Disk) (p : Path) (now : Time) : Disk where
  file := d.file
  dir := fun q => if q <+: p then some ((d.dir q).getD now) else d.dir q
  inode := d.inode
  next := d.next
  known := p.inits ∪ d.known
  nodup := d.nodup.union _
  listed := by
    intro q hq
    rw [List.mem_union_iff, List.mem_inits]
    by_cases h : q <+: p
    · exact .inl h
    · exact .inr (d.listed q (by simpa [h] using hq))

/-- Opens for writing from the start, emptied. -/
def create (d : Disk) (p : Path) (now : Time) : Handle × Disk :=
  match d.file p with
  | some n => (⟨n, 0, false⟩, d.store n {d.inode n with content := [], modified := now})
  | none => (⟨d.next, 0, false⟩, d.fresh p now)

/-- Opens for writing at the end. -/
def openAppend (d : Disk) (p : Path) (now : Time) : Handle × Disk :=
  match d.file p with
  | some n => (⟨n, 0, true⟩, d)
  | none => (⟨d.next, 0, true⟩, d.fresh p now)

/-- Where a write through the handle goes. -/
def position (d : Disk) (h : Handle) : Nat :=
  if h.append then (d.inode h.inode).content.length else h.offset

/-- The bytes go where the handle is, and it moves behind them. -/
def write (d : Disk) (h : Handle) (bytes : Bytes) (now : Time) : Handle × Disk :=
  ({h with offset := d.position h + bytes.length},
    d.store h.inode {d.inode h.inode with
      content := overlay (d.inode h.inode).content (d.position h) bytes, modified := now})

def read (d : Disk) (p : Path) : Except IoError Bytes :=
  match d.content p with
  | some bytes => .ok bytes
  | none => .error .notFound

/-- A second name, unless it is in use. -/
def hardLink (d : Disk) (src dst : Path) (now : Time) : Except IoError Unit × Disk :=
  match d.file src with
  | none => (.error .notFound, d)
  | some n => if d.occupied dst then (.error .alreadyExists, d) else (.ok (), (d.link dst n).touch dst now)

def removeFile (d : Disk) (p : Path) (now : Time) : Except IoError Unit × Disk :=
  match d.file p with
  | none => (.error .notFound, d)
  | some _ => (.ok (), (d.unlink p).touch p now)

/-- The directory with all it holds. -/
def removeDirAll (d : Disk) (p : Path) (now : Time) : Except IoError Unit × Disk :=
  match d.dir p with
  | none => (.error .notFound, d)
  | some _ => (.ok (), Disk.touch
      { file := fun q => if p <+: q then none else d.file q
        dir := fun q => if p <+: q then none else d.dir q
        inode := d.inode
        next := d.next
        known := d.known
        nodup := d.nodup
        listed := by
          intro q hq
          by_cases h : p <+: q
          · simp [h] at hq
          · exact d.listed q (by simpa [h] using hq) } p now)

/-- The path `q` is moved to when `src` becomes `dst`. -/
def moved (src dst q : Path) : Path := dst ++ q.drop src.length

/-- A directory with all it holds, to a path that is free. It keeps its own
modification time; the directories that hold it change. -/
def renameDir (d : Disk) (src dst : Path) (now : Time) : Except IoError Unit × Disk :=
  match d.dir src with
  | none => (.error .notFound, d)
  | some _ =>
    if d.occupied dst then (.error .alreadyExists, d)
    else (.ok (), Disk.touch (Disk.touch
      { file := fun q => if dst <+: q then d.file (moved dst src q)
          else if src <+: q then none else d.file q
        dir := fun q => if dst <+: q then d.dir (moved dst src q)
          else if src <+: q then none else d.dir q
        inode := d.inode
        next := d.next
        known := (d.known.filter (src <+: ·)).map (moved src dst) ∪ d.known
        nodup := d.nodup.union _
        listed := by
          intro q hq
          rw [List.mem_union_iff]
          by_cases hd : dst <+: q
          · left
            simp only [hd, if_true] at hq
            refine List.mem_map.mpr ⟨moved dst src q, List.mem_filter.mpr ⟨d.listed _ hq, ?_⟩, ?_⟩
            · simp [moved]
            · obtain ⟨t, rfl⟩ := hd
              simp [moved]
          · right
            simp only [hd, if_false] at hq
            by_cases hs : src <+: q
            · simp [hs] at hq
            · exact d.listed q (by simpa [hs] using hq) } src now) dst now)

/-- A file or a directory, if one is there. -/
def metadata (d : Disk) (p : Path) : Except IoError Metadata :=
  match d.file p, d.dir p with
  | some n, _ => .ok ⟨(d.inode n).modified, (d.inode n).content.length⟩
  | none, some t => .ok ⟨t, 0⟩
  | none, none => .error .notFound

/-- The files below a directory, at any depth. -/
def below (d : Disk) (root : Path) : List Path :=
  d.known.filter fun q => root.isPrefixOf q && q ≠ root && (d.file q).isSome

/-- The entries of a directory. -/
def children (d : Disk) (p : Path) : List Path :=
  d.known.filter fun q : Path => q ≠ [] && q.parent = p && d.occupied q

/-! ### What each operation changes -/

section Changes
variable (d : Disk) (p : Path) (now : Time)

@[simp] theorem link_file (n : Nat) : (d.link p n).file = Function.update d.file p (some n) := rfl
@[simp] theorem link_inode (n : Nat) : (d.link p n).inode = d.inode := rfl
@[simp] theorem link_next (n : Nat) : (d.link p n).next = d.next := rfl
@[simp] theorem link_dir (n : Nat) : (d.link p n).dir = d.dir := rfl
@[simp] theorem unlink_file : (d.unlink p).file = Function.update d.file p none := rfl
@[simp] theorem unlink_inode : (d.unlink p).inode = d.inode := rfl
@[simp] theorem unlink_next : (d.unlink p).next = d.next := rfl
@[simp] theorem unlink_dir : (d.unlink p).dir = d.dir := rfl
@[simp] theorem store_file (n : Nat) (i : Inode) : (d.store n i).file = d.file := rfl
@[simp] theorem store_inode (n : Nat) (i : Inode) : (d.store n i).inode = Function.update d.inode n i := rfl
@[simp] theorem store_next (n : Nat) (i : Inode) : (d.store n i).next = d.next := rfl
@[simp] theorem store_dir (n : Nat) (i : Inode) : (d.store n i).dir = d.dir := rfl
@[simp] theorem touch_file : (d.touch p now).file = d.file := rfl
@[simp] theorem touch_inode : (d.touch p now).inode = d.inode := rfl
@[simp] theorem touch_next : (d.touch p now).next = d.next := rfl
@[simp] theorem fresh_file : (d.fresh p now).file = Function.update d.file p (some d.next) := rfl
@[simp] theorem fresh_inode : (d.fresh p now).inode = Function.update d.inode d.next ⟨p, [], now⟩ := rfl
@[simp] theorem fresh_next : (d.fresh p now).next = d.next + 1 := rfl

variable {d p now} in
/-- A file after one was made is that one or one that was there. -/
theorem fresh_some (h : (d.fresh p now).file q = some n) : q = p ∧ n = d.next ∨ q ≠ p ∧ d.file q = some n := by
  rw [fresh_file] at h
  by_cases hq : q = p
  · subst hq
    rw [Function.update_self] at h
    exact .inl ⟨rfl, (Option.some.inj h).symm⟩
  · rw [Function.update_of_ne hq] at h
    exact .inr ⟨hq, h⟩

theorem touch_dir : ((d.touch p now).dir q).isSome = (d.dir q).isSome := by
  show (if q = p.parent then (d.dir q).map fun _ => now else d.dir q).isSome = _
  split <;> simp

theorem fresh_dir : ((d.fresh p now).dir q).isSome = (d.dir q).isSome :=
  touch_dir ((d.link p d.next).store d.next ⟨p, [], now⟩) p now

/-- The directories after `createDirAll` are those on the way, and those before. -/
theorem createDirAll_dir : ((d.createDirAll p now).dir q).isSome = true ↔
    q <+: p ∨ (d.dir q).isSome = true := by
  show (if q <+: p then some ((d.dir q).getD now) else d.dir q).isSome = true ↔ _
  by_cases h : q <+: p <;> simp [h]

end Changes

variable {d e : Disk} {p src dst : Path} {now : Time}

theorem create_none (h : d.file p = none) : d.create p now = (⟨d.next, 0, false⟩, d.fresh p now) := by
  rw [create, h]

theorem create_some (h : d.file p = some n) : d.create p now =
    (⟨n, 0, false⟩, d.store n {d.inode n with content := [], modified := now}) := by
  rw [create, h]

theorem hardLink_ok (hs : d.file src = some n) (hd : d.occupied dst = false) :
    d.hardLink src dst now = (.ok (), (d.link dst n).touch dst now) := by
  rw [hardLink, hs]
  simp [hd]

/-- A name in use is not given again. -/
theorem hardLink_taken (hs : d.file src = some n) (hd : d.occupied dst = true) :
    d.hardLink src dst now = (.error .alreadyExists, d) := by
  rw [hardLink, hs]
  simp [hd]

theorem removeFile_some (h : d.file p = some n) : d.removeFile p now = (.ok (), (d.unlink p).touch p now) := by
  rw [removeFile, h]

theorem removeFile_none (h : d.file p = none) : d.removeFile p now = (.error .notFound, d) := by
  rw [removeFile, h]

/-! ### Appending -/

/-- The handle is for the file at the path, and appends. -/
theorem openAppend_self : (d.openAppend p now).2.file p = some (d.openAppend p now).1.inode ∧
    (d.openAppend p now).1.append = true := by
  unfold openAppend
  cases hp : d.file p with
  | none => simp
  | some n => exact ⟨hp, rfl⟩

theorem openAppend_other (hq : q ≠ p) : (d.openAppend p now).2.file q = d.file q := by
  unfold openAppend
  cases d.file p with
  | none => simp [hq]
  | some n => rfl

/-- What is opened is there, and nothing else has changed. -/
theorem openAppend_content (hbelow : ∀ q n, d.file q = some n → n < d.next) (q : Path) :
    ((d.openAppend p now).2.content q).getD [] = (d.content q).getD [] ∧
      (q ≠ p → (d.openAppend p now).2.content q = d.content q) := by
  unfold openAppend
  cases hp : d.file p with
  | some n => exact ⟨rfl, fun _ => rfl⟩
  | none =>
    have hother : q ≠ p → (d.fresh p now).content q = d.content q := by
      intro hq
      unfold content
      rw [fresh_file, Function.update_of_ne hq]
      cases hn : d.file q with
      | none => rfl
      | some n => simp [Nat.ne_of_lt (hbelow q n hn)]
    refine ⟨?_, hother⟩
    by_cases hq : q = p
    · subst hq
      simp [content, hp]
    · rw [hother hq]

/-- Bytes written through a handle that appends are at the end of the file it was opened on. -/
theorem write_append_content {h : Handle} (ha : h.append = true) (bytes : Bytes) (q : Path) :
    (d.write h bytes now).2.content q =
      if d.file q = some h.inode then (d.content q).map (· ++ bytes) else d.content q := by
  unfold content write position
  rw [ha, if_pos rfl]
  cases hq : d.file q with
  | none => simp [hq]
  | some n =>
    by_cases hn : n = h.inode
    · subst hn
      simp [hq, overlay_end]
    · simp [hq, hn]

end Disk

end Detritus.Files
