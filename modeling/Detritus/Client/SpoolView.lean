import Mathlib.Data.List.Sort
import Detritus.Client.SpoolSteps

/-! The spool as its users see it.

An entry is the time of its directory and its files; a spool is the entries that are
pending and those that were sent, each by name. Two things are done to it: an entry is
moved, in place of one that was sent under its name, and what was sent is cleaned up. The
operations of the shipper on the disk are shown to be these. -/
namespace Detritus.Client
open Files Protocol Process

/-- Directories and files are told by where they are below the entry. -/
structure SpoolEntry where
  modified : Time
  dirs : Path → Option Time
  files : Path → Option Bytes

/-- A spool as two maps from names to entries. -/
structure SpoolView where
  pending : String → Option SpoolEntry
  sent : String → Option SpoolEntry

namespace SpoolView

/-- An entry changes its place, with all that is in it. -/
def move (v : SpoolView) (x : String) : SpoolView :=
  ⟨Function.update v.pending x none, Function.update v.sent x (v.pending x)⟩

/-- What was sent and is older than the cutoff goes. -/
def clean (cutoff : Time) (v : SpoolView) : SpoolView :=
  ⟨v.pending, fun x => (v.sent x).filter fun e => cutoff ≤ e.modified⟩

/-- The same, among these names only. -/
def cleanAmong (cutoff : Time) (names : List String) (v : SpoolView) : SpoolView :=
  ⟨v.pending, fun x => if x ∈ names then (v.sent x).filter fun e => cutoff ≤ e.modified else v.sent x⟩

theorem cleanAmong_cons (cutoff : Time) (x : String) (names : List String) (v : SpoolView) :
    v.cleanAmong cutoff (x :: names) = (v.cleanAmong cutoff [x]).cleanAmong cutoff names := by
  unfold cleanAmong
  congr 1
  funext y
  by_cases hx : y = x
  · by_cases hy : y ∈ names
    · simp [hx, hx ▸ hy, Option.filter_filter]
    · simp [hx, hx ▸ hy]
  · simp [hx]

theorem cleanAmong_all {cutoff : Time} {names : List String} {v : SpoolView}
    (h : ∀ x, (v.sent x).isSome = true → x ∈ names) : v.cleanAmong cutoff names = v.clean cutoff := by
  unfold cleanAmong clean
  congr 1
  funext x
  by_cases hx : x ∈ names
  · rw [if_pos hx]
  · have hnone : v.sent x = none := by
      cases hv : v.sent x with
      | none => rfl
      | some e => exact absurd (h x (by rw [hv]; rfl)) hx
    rw [if_neg hx, hnone]
    rfl

/-- One entry is looked at, and goes if it is too old. -/
theorem cleanAmong_one {v : SpoolView} {cutoff : Time} {x : String} {e : SpoolEntry} (hx : v.sent x = some e) :
    v.cleanAmong cutoff [x] = if e.modified < cutoff then ⟨v.pending, Function.update v.sent x none⟩ else v := by
  unfold cleanAmong
  split
  · next hold =>
    congr 1
    funext y
    by_cases hy : y = x
    · subst hy
      rw [if_pos (List.mem_singleton_self _), Function.update_self, hx]
      simpa using hold
    · rw [if_neg (by simpa using hy), Function.update_of_ne hy]
  · next hold =>
    have hsent : (fun y => if y ∈ [x] then (v.sent y).filter fun e => cutoff ≤ e.modified else v.sent y) = v.sent := by
      funext y
      by_cases hy : y = x
      · subst hy
        rw [if_pos (List.mem_singleton_self _), hx]
        simp [Nat.not_lt.mp hold]
      · rw [if_neg (by simpa using hy)]
    rw [hsent]

/-- What is pending once some entries have been moved. -/
theorem foldl_move_pending (names : List String) (v : SpoolView) (x : String) :
    (names.foldl move v).pending x = if x ∈ names then none else v.pending x := by
  induction names generalizing v with
  | nil => rfl
  | cons y rest ih =>
    rw [List.foldl_cons, ih]
    show (if x ∈ rest then none else Function.update v.pending y none x) = _
    by_cases hxy : x = y
    · simp [hxy]
    · simp [hxy]

end SpoolView

/-! ### On a disk -/

section View
variable (spool : Path) (d : Disk)

/-- A directory with all that is below it. -/
def entryAt (p : Path) : Option SpoolEntry :=
  (d.dir p).map fun t => ⟨t, fun rest => d.dir (p ++ rest), fun rest => d.content (p ++ rest)⟩

def view : SpoolView := ⟨fun x => entryAt d (pendingAt spool x), fun x => entryAt d (sentAt spool x)⟩

/-- What is below `sent` is a directory, and the name of an entry is one component. -/
structure Proper : Prop where
  sent : ∀ x, d.content (sentAt spool x) = none
  pending : ∀ x, (d.dir (pendingAt spool x)).isSome = true → Component x ∧ d.content (pendingAt spool x) = none

/-- The disk shows a spool in which there is a place for what is sent. -/
structure Shows (v : SpoolView) : Prop where
  view : view spool d = v
  proper : Proper spool d
  there : (d.dir (sentDir spool)).isSome = true

end View

/-- What lay at one path lies now at another, with all it holds. -/
structure SameTree (p q : Path) (d e : Disk) : Prop where
  dirs : ∀ rest, e.dir (q ++ rest) = d.dir (p ++ rest)
  files : ∀ rest, e.content (q ++ rest) = d.content (p ++ rest)

/-- An entry of this name is as it was, wherever it is. -/
structure Untouched (spool : Path) (x : String) (d e : Disk) : Prop where
  pending : SameTree (pendingAt spool x) (pendingAt spool x) d e
  sent : SameTree (sentAt spool x) (sentAt spool x) d e

variable {spool : Path} {c d e : Disk} {v : SpoolView} {x y : String}

namespace SameTree
variable {p q r : Path}

theorem trans (a : SameTree p q c d) (b : SameTree q r d e) : SameTree p r c e :=
  ⟨fun rest => (b.dirs rest).trans (a.dirs rest), fun rest => (b.files rest).trans (a.files rest)⟩

theorem dir (h : SameTree p q d e) : e.dir q = d.dir p := by
  have hdirs := h.dirs []
  rwa [List.append_nil, List.append_nil] at hdirs

theorem content (h : SameTree p q d e) : e.content q = d.content p := by
  have hfiles := h.files []
  rwa [List.append_nil, List.append_nil] at hfiles

theorem entryAt_eq (h : SameTree p q d e) : entryAt e q = entryAt d p := by
  unfold entryAt
  rw [h.dir]
  simp only [h.dirs, h.files]

end SameTree

theorem Untouched.trans (a : Untouched spool x c d) (b : Untouched spool x d e) : Untouched spool x c e :=
  ⟨a.pending.trans b.pending, a.sent.trans b.sent⟩

theorem entryAt_none {p : Path} (h : d.dir p = none) : entryAt d p = none := by
  rw [entryAt, h]
  rfl

theorem entryAt_isSome {p : Path} : (entryAt d p).isSome = (d.dir p).isSome := by
  rw [entryAt, Option.isSome_map]

/-- Entries that are seen to be the same are the same. -/
theorem sameTree_of_entryAt {p q : Path} (h : entryAt e q = entryAt d p) (hp : (d.dir p).isSome = true) :
    SameTree p q d e := by
  obtain ⟨t, ht⟩ := Option.isSome_iff_exists.mp hp
  have hq : (e.dir q).isSome = true := by rw [← entryAt_isSome, h, entryAt_isSome, hp]
  obtain ⟨t', ht'⟩ := Option.isSome_iff_exists.mp hq
  rw [entryAt, entryAt, ht, ht'] at h
  obtain ⟨-, hdirs, hfiles⟩ := SpoolEntry.mk.inj (Option.some.inj h)
  exact ⟨congrFun hdirs, congrFun hfiles⟩

/-- What leaves every entry as it is. -/
theorem view_congr (h : ∀ x, Untouched spool x d e) : view spool e = view spool d := by
  unfold view
  congr 1
  · funext x
    exact (h x).pending.entryAt_eq
  · funext x
    exact (h x).sent.entryAt_eq

theorem Proper.congr (hd : Proper spool d) (h : ∀ x, Untouched spool x d e) : Proper spool e := by
  refine ⟨fun x => (h x).sent.content.trans (hd.sent x), fun x hx => ?_⟩
  rw [(h x).pending.dir] at hx
  rw [(h x).pending.content]
  exact hd.pending x hx

theorem file_of_content {p : Path} (h : d.content p = none) : d.file p = none := Option.map_eq_none_iff.mp h

/-! ### Paths of entries -/

section Paths
variable {rest : Path}

/-- A path of an entry is longer than these. -/
theorem entry_ne {p : Path} (hp : p.length ≤ spool.length + 1) :
    pendingAt spool x ++ rest ≠ p ∧ sentAt spool x ++ rest ≠ p := by
  constructor
  · rintro rfl
    exact (short_path hp).1 (List.prefix_append ..)
  · rintro rfl
    exact (short_path hp).2 (List.prefix_append ..)

theorem pendingDir_short (spool : Path) : (pendingDir spool).length ≤ spool.length + 1 := by simp [pendingDir]

theorem sentDir_short (spool : Path) : (sentDir spool).length ≤ spool.length + 1 := by simp [sentDir]

theorem lockPath_short (spool : Path) : (lockPath spool).length ≤ spool.length + 1 := by
  rw [lockPath_eq]
  simp

theorem not_pendingAt_other (hy : y ≠ x) : ¬ pendingAt spool x <+: pendingAt spool y ++ rest :=
  fun h => hy (pendingAt_below h).symm

theorem not_sentAt_other (hy : y ≠ x) : ¬ sentAt spool x <+: sentAt spool y ++ rest :=
  fun h => hy (sentAt_below h).symm

end Paths

/-! ### Beside the entries -/

theorem createDirAll_untouched {p : Path} {now : Time} (hp : p.length ≤ spool.length + 1) (x : String) :
    Untouched spool x d (d.createDirAll p now) where
  pending := ⟨fun _ => if_neg fun h => (short_path hp).1 ((List.prefix_append ..).trans h), fun _ => rfl⟩
  sent := ⟨fun _ => if_neg fun h => (short_path hp).2 ((List.prefix_append ..).trans h), fun _ => rfl⟩

theorem openLock_untouched {now : Time} (hd : d.Numbered) (x : String) :
    Untouched spool x d (d.openAppend (lockPath spool) now).2 := by
  have hparent : ((lockPath spool).parent).length ≤ spool.length + 1 := by
    rw [lockPath_eq, Path.parent, List.dropLast_concat]
    exact Nat.le_succ _
  have hcontent : ∀ q, q ≠ lockPath spool → (d.openAppend (lockPath spool) now).2.content q = d.content q :=
    fun q => (Disk.openAppend_content hd q).2
  refine ⟨⟨fun rest => ?_, fun rest => ?_⟩, ⟨fun rest => ?_, fun rest => ?_⟩⟩
  · exact Disk.openAppend_dir_other (entry_ne hparent).1
  · exact hcontent _ (entry_ne (lockPath_short spool)).1
  · exact Disk.openAppend_dir_other (entry_ne hparent).2
  · exact hcontent _ (entry_ne (lockPath_short spool)).2

/-! ### Moving and removing -/

/-- A directory of `pending`, renamed into `sent` where nothing has its name. -/
structure Renamed (spool : Path) (x : String) (d e : Disk) : Prop where
  gone : e.dir (pendingAt spool x) = none
  moved : SameTree (pendingAt spool x) (sentAt spool x) d e
  there : (e.dir (sentDir spool)).isSome = (d.dir (sentDir spool)).isSome
  others : ∀ y, y ≠ x → Untouched spool y d e

theorem renameDir_renamed (now : Time) (hx : (d.dir (pendingAt spool x)).isSome = true)
    (hfree : d.occupied (sentAt spool x) = false) :
    ∃ e, d.renameDir (pendingAt spool x) (sentAt spool x) now = (.ok (), e) ∧ Renamed spool x d e := by
  obtain ⟨t, ht⟩ := Option.isSome_iff_exists.mp hx
  have hok : (d.renameDir (pendingAt spool x) (sentAt spool x) now).1 = .ok () := by
    unfold Disk.renameDir
    rw [ht]
    simp [hfree]
  obtain ⟨-, -, -, hdir, -, -⟩ := Disk.renameDir_ok hok
  rw [parent_pendingAt, parent_sentAt] at hdir
  have hpending : ∀ y rest, (d.renameDir (pendingAt spool x) (sentAt spool x) now).2.dir (pendingAt spool y ++ rest) =
      if pendingAt spool x <+: pendingAt spool y ++ rest then none else d.dir (pendingAt spool y ++ rest) := by
    intro y rest
    rw [hdir _ (entry_ne (pendingDir_short spool)).1 (entry_ne (sentDir_short spool)).1, if_neg not_sentAt_below]
  have hsent : ∀ y rest, (d.renameDir (pendingAt spool x) (sentAt spool x) now).2.dir (sentAt spool y ++ rest) =
      if sentAt spool x <+: sentAt spool y ++ rest then
        d.dir (Disk.moved (sentAt spool x) (pendingAt spool x) (sentAt spool y ++ rest))
      else d.dir (sentAt spool y ++ rest) := by
    intro y rest
    rw [hdir _ (entry_ne (pendingDir_short spool)).2 (entry_ne (sentDir_short spool)).2, if_neg not_pendingAt_below]
  refine ⟨_, Prod.ext hok rfl, ?_, ⟨fun rest => ?_, Disk.renameDir_content_dst hok⟩, ?_, fun y hy => ⟨⟨fun rest => ?_,
    fun rest => ?_⟩, ⟨fun rest => ?_, fun rest => ?_⟩⟩⟩
  · have hgone := hpending x []
    rwa [List.append_nil, if_pos (List.prefix_refl _)] at hgone
  · rw [hsent, if_pos (List.prefix_append ..), Disk.moved_append]
  · -- of the two parents only the times change
    unfold Disk.renameDir
    rw [ht]
    dsimp only
    rw [if_neg (by rw [hfree]; exact Bool.false_ne_true), Disk.touch_dir, Disk.touch_dir]
    dsimp only
    rw [if_neg (short_path (sentDir_short spool)).2, if_neg (short_path (sentDir_short spool)).1]
  · rw [hpending, if_neg (not_pendingAt_other hy)]
  · exact Disk.renameDir_content_other hok not_sentAt_below (not_pendingAt_other hy)
  · rw [hsent, if_neg (not_sentAt_other hy)]
  · exact Disk.renameDir_content_other hok (not_sentAt_other hy) not_pendingAt_below

/-- **An entry that is renamed is moved.** -/
theorem Shows.renamed (h : Shows spool d v) (hr : Renamed spool x d e) (hx : d.content (pendingAt spool x) = none) :
    Shows spool e (v.move x) := by
  refine ⟨?_, ⟨fun y => ?_, fun y hy => ?_⟩, ?_⟩
  · rw [← h.view]
    unfold Client.view SpoolView.move
    congr 1
    · funext y
      by_cases hy : y = x
      · subst hy
        rw [Function.update_self]
        exact entryAt_none hr.gone
      · rw [Function.update_of_ne hy]
        exact (hr.others y hy).pending.entryAt_eq
    · funext y
      by_cases hy : y = x
      · subst hy
        rw [Function.update_self]
        exact hr.moved.entryAt_eq
      · rw [Function.update_of_ne hy]
        exact (hr.others y hy).sent.entryAt_eq
  · by_cases hy : y = x
    · subst hy
      exact hr.moved.content.trans hx
    · exact (hr.others y hy).sent.content.trans (h.proper.sent y)
  · by_cases hyx : y = x
    · rw [hyx, hr.gone] at hy
      cases hy
    · rw [(hr.others y hyx).pending.dir] at hy
      rw [(hr.others y hyx).pending.content]
      exact h.proper.pending y hy
  · rw [hr.there]
    exact h.there

/-- A directory of `sent`, removed. -/
structure Removed (spool : Path) (x : String) (d e : Disk) : Prop where
  gone : e.dir (sentAt spool x) = none
  files : e.content (sentAt spool x) = none
  there : (e.dir (sentDir spool)).isSome = (d.dir (sentDir spool)).isSome
  pending : ∀ y, SameTree (pendingAt spool y) (pendingAt spool y) d e
  others : ∀ y, y ≠ x → Untouched spool y d e

theorem removeDirAll_removed (now : Time) (hx : (d.dir (sentAt spool x)).isSome = true) :
    ∃ e, d.removeDirAll (sentAt spool x) now = (.ok (), e) ∧ Removed spool x d e := by
  obtain ⟨t, ht⟩ := Option.isSome_iff_exists.mp hx
  have hok : (d.removeDirAll (sentAt spool x) now).1 = .ok () := by
    unfold Disk.removeDirAll
    rw [ht]
  obtain ⟨-, hfile, hdir, -, -⟩ := Disk.removeDirAll_ok hok
  rw [parent_sentAt] at hdir
  have hpending : ∀ y, SameTree (pendingAt spool y) (pendingAt spool y) d (d.removeDirAll (sentAt spool x) now).2 := by
    refine fun y => ⟨fun rest => ?_, fun rest => Disk.removeDirAll_content hok not_sentAt_below⟩
    rw [hdir _ (entry_ne (sentDir_short spool)).1, if_neg not_sentAt_below]
  refine ⟨_, Prod.ext hok rfl, ?_, ?_, ?_, hpending, fun y hy => ⟨hpending y, ⟨fun rest => ?_, fun rest => ?_⟩⟩⟩
  · have hgone := hdir (sentAt spool x ++ []) (entry_ne (sentDir_short spool)).2
    rwa [List.append_nil, if_pos (List.prefix_refl _)] at hgone
  · rw [Disk.content, hfile, if_pos (List.prefix_refl _)]
    rfl
  · unfold Disk.removeDirAll
    rw [ht]
    dsimp only
    rw [Disk.touch_dir]
    dsimp only
    rw [if_neg (short_path (sentDir_short spool)).2]
  · rw [hdir _ (entry_ne (sentDir_short spool)).2, if_neg (not_sentAt_other hy)]
  · exact Disk.removeDirAll_content hok (not_sentAt_other hy)

/-- **An entry that is removed is gone from what was sent.** -/
theorem Shows.removed (h : Shows spool d v) (hr : Removed spool x d e) :
    Shows spool e ⟨v.pending, Function.update v.sent x none⟩ := by
  refine ⟨?_, ⟨fun y => ?_, fun y hy => ?_⟩, ?_⟩
  · rw [← h.view]
    unfold Client.view
    congr 1
    · funext y
      exact (hr.pending y).entryAt_eq
    · funext y
      by_cases hy : y = x
      · subst hy
        rw [Function.update_self]
        exact entryAt_none hr.gone
      · rw [Function.update_of_ne hy]
        exact (hr.others y hy).sent.entryAt_eq
  · by_cases hy : y = x
    · subst hy
      exact hr.files
    · exact (hr.others y hy).sent.content.trans (h.proper.sent y)
  · rw [(hr.pending y).dir] at hy
    rw [(hr.pending y).content]
    exact h.proper.pending y hy
  · rw [hr.there]
    exact h.there

/-! ### Listing -/

theorem concat_lt {dir : Path} : dir ++ [x] < dir ++ [y] ↔ x < y := by
  induction dir with
  | nil =>
    show ([x] : Path) < [y] ↔ x < y
    rw [List.cons_lt_cons_iff]
    simp only [List.not_lt_nil, and_false, or_false]
  | cons a l ih =>
    rw [List.cons_append, List.cons_append, List.cons_lt_cons_iff]
    simp only [lt_irrefl, true_and, false_or, ih]

/-- A listing tells the directories, each once and in the order of their names. -/
theorem listing_sorted (order : FileOp.Order) (d : Disk) (dir : Path) : ∃ names : List String,
    sortedDirs ((order.arrange (d.children dir)).map fun q => (q, (d.dir q).isSome)) = names.map (dir ++ [·]) ∧
      names.Pairwise (· < ·) ∧ ∀ x, x ∈ names ↔ (d.dir (dir ++ [x])).isSome = true := by
  let l := sortedDirs ((order.arrange (d.children dir)).map fun q => (q, (d.dir q).isSome))
  have hperm : l.Perm ((d.children dir).filter fun q => (d.dir q).isSome) := by
    refine (List.mergeSort_perm _ _).trans ?_
    rw [List.filter_map, List.map_map]
    refine (List.Perm.of_eq (List.map_id _)).trans ((order.perm _).filter _)
  have hmem : ∀ q, q ∈ l ↔ q ∈ d.children dir ∧ (d.dir q).isSome = true := by
    intro q
    rw [hperm.mem_iff, List.mem_filter]
  have hsorted : l.Pairwise (· < ·) := by
    have hle : l.Pairwise (· ≤ ·) := List.pairwise_mergeSort' (· ≤ ·) _
    have hnodup : l.Nodup := hperm.nodup_iff.mpr ((d.nodup.filter _).filter _)
    exact (hle.and hnodup).imp fun h => lt_of_le_of_ne h.1 h.2
  have hnames : l = (l.map fun q => q.getLast?.getD "").map (dir ++ [·]) := by
    rw [List.map_map]
    refine (List.map_id _).symm.trans (List.map_congr_left fun q hq => ?_)
    obtain ⟨x, rfl⟩ := Disk.eq_append_of_mem_children ((hmem q).mp hq).1
    simp
  refine ⟨_, hnames, ?_, fun x => ?_⟩
  · rw [hnames, List.pairwise_map] at hsorted
    exact hsorted.imp concat_lt.mp
  · rw [List.mem_map]
    constructor
    · rintro ⟨q, hq, rfl⟩
      obtain ⟨x, rfl⟩ := Disk.eq_append_of_mem_children ((hmem q).mp hq).1
      simpa using ((hmem _).mp hq).2
    · intro hx
      refine ⟨dir ++ [x], (hmem _).mpr ⟨Disk.mem_children.mpr ⟨by simp, List.dropLast_concat, ?_⟩, hx⟩, by simp⟩
      rw [Disk.occupied, hx, Bool.or_true]

end Detritus.Client
