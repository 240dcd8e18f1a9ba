import Detritus.Server.Janitor
import Detritus.Server.UploadRun

/-! When a file is past its time.

The retention of a configuration is a number of days, as large as 64 bits allow. The age
check turns it into seconds in 64 bits and takes those from the clock; `Expired` is what
it stands for, over numbers without a bound. The two agree as long as the seconds fit and
the moment before them can be told. -/
namespace Detritus.Server
open Files Protocol Process

/-- The file was last written a retention ago or longer; a retention of no days has passed at once. -/
def Expired (modified now : Time) (ttlDays : UInt64) : Prop :=
  ttlDays = 0 ∨ modified + ttlDays.toNat * 86400 * 1000000000 ≤ now

instance (modified now : Time) (ttlDays : UInt64) : Decidable (Expired modified now ttlDays) :=
  inferInstanceAs (Decidable (_ ∨ _))

/-- The seconds of a retention, as they are computed. -/
def ttlSeconds (ttlDays : UInt64) : Nat := ttlDays.toNat * 86400 % 2 ^ 64

theorem toNat_ttlSeconds (ttlDays : UInt64) : (ttlDays * 24 * 60 * 60).toNat = ttlSeconds ttlDays := by
  simp only [UInt64.toNat_mul, ttlSeconds, UInt64.reduceToNat]
  omega

/-- The moment a retention before `now` can be told. -/
theorem cutoff_eq (now : Time) (ttlDays : UInt64) :
    cutoff now ttlDays = if ttlSeconds ttlDays ≤ now / 1000000000 + 2 ^ 63 then
      some ((now : Int) - ttlSeconds ttlDays * 1000000000) else none := by
  unfold cutoff
  rw [toNat_ttlSeconds]
  by_cases h : ttlSeconds ttlDays ≤ now / 1000000000 + 2 ^ 63
  · rw [if_pos h, if_neg (by omega)]
  · rw [if_neg h, if_pos (by omega)]

/-- What the comparison with that moment says of a file. -/
theorem le_cutoff_iff (modified now seconds : Nat) :
    (modified : Int) ≤ (now : Int) - seconds * 1000000000 ↔ modified + seconds * 1000000000 ≤ now := by
  omega

/-- A retention whose seconds do not fit has not passed at any time that can be told. -/
theorem not_passed {now days : Nat} (modified : Nat) (hdays : ¬ days * 86400 < 2 ^ 64)
    (hrange : now / 1000000000 < 2 ^ 63) : ¬ modified + days * 86400 * 1000000000 ≤ now := by
  omega

/-- Seconds that fit are those of the retention. -/
theorem cutoff_expired {now : Time} {ttlDays : UInt64} {moment : Int} (hdays : ttlDays ≠ 0)
    (hfits : ttlDays.toNat * 86400 < 2 ^ 64) (hc : cutoff now ttlDays = some moment) (modified : Time) :
    (modified : Int) ≤ moment ↔ Expired modified now ttlDays := by
  rw [cutoff_eq] at hc
  split at hc
  · obtain rfl := Option.some.inj hc
    rw [le_cutoff_iff, Expired, or_iff_right hdays, ttlSeconds, Nat.mod_eq_of_lt hfits]
  · cases hc

section Alone
variable {ι : Type} {env : Env} {i : ι}

/-- The age check by itself: it looks at the file, and at the clock unless the retention is none. -/
theorem isOlderThan_alone {path : Path} {m : Metadata} {w : ServerState ι} (ttlDays : UInt64)
    (hm : w.state.disk.metadata path = .ok m) :
    (isOlderThan path ttlDays).alone env i w =
      let w₁ := w.after env i (.metadata path)
      if ttlDays = 0 then some (.ok true, w₁)
      else (cutoff (env.clock (w.history.length + 1)) ttlDays).map fun moment =>
        (.ok (decide ((m.modified : Int) ≤ moment)), w₁.called i .now (env.clock (w.history.length + 1))) := by
  unfold isOlderThan
  rw [alone_file (.metadata path) (show (w.execFile env (.metadata path)).1 = .ok m from hm)]
  dsimp only
  by_cases hdays : ttlDays = 0
  · rw [if_pos hdays, if_pos hdays]
    rfl
  · rw [if_neg hdays, if_neg hdays, alone_call .now rfl]
    cases hc : cutoff (env.clock (w.history.length + 1)) ttlDays with
    | none =>
      rw [show cutoff (env.clock (w.after env i (.metadata path)).history.length) ttlDays = none from hc]
      rfl
    | some moment =>
      rw [show cutoff (env.clock (w.after env i (.metadata path)).history.length) ttlDays = some moment from hc]
      rfl

/-- **The age check is exact** just as long as the moment it compares with can be told, and the seconds have not
wrapped or the file is too young to be taken for an old one all the same. -/
theorem isOlderThan_exact_iff {path : Path} {m : Metadata} {w : ServerState ι} (ttlDays : UInt64)
    (hm : w.state.disk.metadata path = .ok m) {now : Time} (hnow : env.clock (w.history.length + 1) = now)
    (hrange : now / 1000000000 < 2 ^ 63) :
    (∃ t, (isOlderThan path ttlDays).alone env i w = some (.ok (decide (Expired m.modified now ttlDays)), t)) ↔
      ttlDays = 0 ∨ ttlDays.toNat * 86400 % 2 ^ 64 ≤ now / 1000000000 + 2 ^ 63 ∧
        (ttlDays.toNat * 86400 < 2 ^ 64 ∨
          now < m.modified + ttlDays.toNat * 86400 % 2 ^ 64 * 1000000000) := by
  show _ ↔ ttlDays = 0 ∨ ttlSeconds ttlDays ≤ _ ∧ (_ ∨ now < m.modified + ttlSeconds ttlDays * 1000000000)
  rw [isOlderThan_alone ttlDays hm, hnow]
  dsimp only
  by_cases hdays : ttlDays = 0
  · have hexpired : Expired m.modified now ttlDays := .inl hdays
    rw [if_pos hdays, decide_eq_true hexpired]
    exact iff_of_true ⟨_, rfl⟩ (.inl hdays)
  rw [if_neg hdays, or_iff_right hdays, cutoff_eq]
  by_cases htold : ttlSeconds ttlDays ≤ now / 1000000000 + 2 ^ 63
  swap
  · rw [if_neg htold]
    exact iff_of_false (fun ⟨_, h⟩ => by cases h) fun h => htold h.1
  rw [if_pos htold, Option.map_some, and_iff_right htold]
  have hanswer : ∀ (a b : Bool) (s : ServerState ι),
      (∃ t, some ((.ok a : Except JanitorError Bool), s) = some (.ok b, t)) ↔ a = b := fun a b s =>
    ⟨fun ⟨_, h⟩ => Except.ok.inj (result_eq h).1, fun h => ⟨s, by rw [h]⟩⟩
  rw [hanswer, decide_eq_decide, le_cutoff_iff, Expired, or_iff_right hdays]
  by_cases hfits : ttlDays.toNat * 86400 < 2 ^ 64
  · rw [ttlSeconds, Nat.mod_eq_of_lt hfits]
    exact iff_of_true Iff.rfl (.inl hfits)
  · rw [iff_false_right (not_passed m.modified hfits hrange), or_iff_right hfits, Nat.not_le]

end Alone

/-! A file of the day before, with a retention of many millions of years. -/

def sampleNow : Time := 1767323045000000000

def samplePath : Path := ["data", "logs", "app", "a", "2026-01-01.ndjson"]

def agedEnv : Env := {stillEnv with clock := fun _ => sampleNow}

/-- One file, last written a day before. -/
def agedState : ServerState Unit :=
  ⟨⟨Disk.empty.fresh samplePath (sampleNow - 86400 * 1000000000), fun _ => none, []⟩, []⟩

/-- So many days that their seconds wrap to less than a day. -/
def wrappingDays : UInt64 := 213503982334602

/-- The file is taken for an old one; with fewer days, whose seconds still fit, the check panics. -/
theorem wrappingDays_expires : ¬ Expired (sampleNow - 86400 * 1000000000) sampleNow wrappingDays ∧
    (∃ t, (isOlderThan samplePath wrappingDays).alone agedEnv () agedState = some (.ok true, t)) ∧
    (isOlderThan samplePath (wrappingDays - 1)).alone agedEnv () agedState = none := by
  have hm : agedState.state.disk.metadata samplePath = .ok ⟨sampleNow - 86400 * 1000000000, 0⟩ := by decide +kernel
  refine ⟨by decide, ?_, ?_⟩
  · have hc : cutoff sampleNow wrappingDays = some 1767261861000000000 := by decide
    rw [isOlderThan_alone _ hm, if_neg (by decide), show agedEnv.clock _ = sampleNow from rfl, hc]
    exact ⟨_, rfl⟩
  · have hc : cutoff sampleNow (wrappingDays - 1) = none := by decide
    rw [isOlderThan_alone _ hm, if_neg (by decide), show agedEnv.clock _ = sampleNow from rfl, hc]
    rfl

theorem isOlderThan_exact_month : ∃ t, (isOlderThan samplePath 30).alone agedEnv () agedState =
    some (.ok (decide (Expired (sampleNow - 86400 * 1000000000) sampleNow 30)), t) := by
  have hm : agedState.state.disk.metadata samplePath = .ok ⟨sampleNow - 86400 * 1000000000, 0⟩ := by decide +kernel
  exact (isOlderThan_exact_iff 30 hm rfl (by decide)).mpr (by decide)

end Detritus.Server
