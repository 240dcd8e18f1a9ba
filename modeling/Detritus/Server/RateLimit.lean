import Mathlib.Algebra.Order.Field.Rat
import Detritus.Flow.Regulator
import Detritus.Server.Admission

/-! The rate limiter as a regulator.

Calls come in the order of the lock. Those of one key are the own events of a regulator of
its own: the bucket of the key is its counter (`tokens_level`), whatever the other keys do. -/
namespace Detritus.Server
open Files Protocol Detritus.Flow

/-- A call of `check_logs` or `check_crashes`, and when it has the lock. -/
structure RateCall where
  endpoint : Endpoint
  token : TokenContext
  source : SourceKey
  now : Time

namespace RateLimitConfig

def perMinute (config : RateLimitConfig) : Endpoint → UInt32
  | .logs => config.logsPerMinute
  | .crashes => config.crashesPerMinute

def burst (config : RateLimitConfig) : Endpoint → UInt32
  | .logs => config.logsBurst
  | .crashes => config.crashesBurst

end RateLimitConfig

def RateCall.key (c : RateCall) : RateKey := ⟨c.endpoint, c.token.id, c.source.canonical⟩

@[simp] theorem RateCall.key_endpoint (c : RateCall) : c.key.endpoint = c.endpoint := rfl

/-- The same endpoint, token id and source. -/
def RateCall.Same (c d : RateCall) : Prop :=
  c.endpoint = d.endpoint ∧ c.token.id = d.token.id ∧ c.source = d.source

instance (c d : RateCall) : Decidable (c.Same d) := inferInstanceAs (Decidable (_ ∧ _ ∧ _))

namespace RateLimiter
variable (config : RateLimitConfig) (calls : Nat → RateCall)

/-- `RateLimiter::check` for a call. -/
def check (c : RateCall) (buckets : Buckets) : Bool × Buckets :=
  buckets.check c.key (config.perMinute c.endpoint) (config.burst c.endpoint) c.now

/-- The buckets when the first `n` calls are served. -/
def buckets : Nat → Buckets
  | 0 => fun _ => none
  | n + 1 => (check config (calls n) (buckets n)).2

/-- Whether the call of this number is admitted. -/
def admits (n : Nat) : Bool := (check config (calls n) (buckets config calls n)).1

end RateLimiter

theorem SourceKey.canonical_injective {s t : SourceKey} (hs : s.Valid) (ht : t.Valid)
    (h : s.canonical = t.canonical) : s = t := by
  have hl : s.project.toList ++ '/' :: s.sourceId.toList = t.project.toList ++ '/' :: t.sourceId.toList := by
    simpa [canonical] using congrArg String.toList h
  obtain ⟨hproject, -, hid⟩ := (List.append_cons_inj_of_notMem hs.project.slash hs.sourceId.slash).mp hl
  cases s
  cases t
  simp only [SourceKey.mk.injEq]
  exact ⟨String.toList_inj.mp hproject, String.toList_inj.mp hid⟩

section Regulator
variable {config : RateLimitConfig} {calls : Nat → RateCall}

theorem key_eq_iff {c d : RateCall} (hc : c.source.Valid) (hd : d.source.Valid) : c.key = d.key ↔ c.Same d := by
  unfold RateCall.key RateCall.Same
  rw [RateKey.mk.injEq]
  refine and_congr_right fun _ => and_congr_right fun _ => ⟨SourceKey.canonical_injective hc hd, ?_⟩
  exact fun h => congrArg _ h

namespace RateLimiter

variable (config calls) in
/-- The calls as events of the regulator of a key. Times are in seconds. -/
def events (key : RateKey) : Events ℚ where
  own n := (calls n).key = key
  granted := admits config calls
  time n := ((calls n).now : ℚ) / 1000000000

variable (config calls) in
/-- The bucket that a call of the key finds. -/
def found (key : RateKey) (n : Nat) (now : Time) : Bucket :=
  Buckets.refilled (config.perMinute key.endpoint) (config.burst key.endpoint)
    ((buckets config calls n key).getD ⟨(config.burst key.endpoint).toNat, now⟩) now

theorem check_eq (n : Nat) : check config (calls n) (buckets config calls n) =
    let tokens := (found config calls (calls n).key n (calls n).now).tokens
    (decide (1 ≤ tokens), Function.update (buckets config calls n) (calls n).key
      (some ⟨tokens - (if 1 ≤ tokens then 1 else 0), (calls n).now⟩)) := by
  show (if 1 ≤ (found config calls (calls n).key n (calls n).now).tokens then _ else _) = _
  by_cases h : 1 ≤ (found config calls (calls n).key n (calls n).now).tokens
  · simp only [h, if_true, decide_true]
    rfl
  · simp only [h, if_false, decide_false, sub_zero]
    rfl

theorem admits_eq (n : Nat) :
    admits config calls n = decide (1 ≤ (found config calls (calls n).key n (calls n).now).tokens) := by
  rw [admits, check_eq]

theorem buckets_succ (n : Nat) : buckets config calls (n + 1) = Function.update (buckets config calls n) (calls n).key
    (some ⟨(found config calls (calls n).key n (calls n).now).tokens - (if admits config calls n then 1 else 0),
      (calls n).now⟩) := by
  rw [buckets, check_eq, admits_eq]
  simp only [decide_eq_true_eq]

/-- **The bucket of a key is the regulator's counter.** -/
theorem tokens_level (key : RateKey) (n : Nat) {now : Time} (hnow : ∀ m < n, (calls m).now ≤ now)
    (hcalls : Monotone fun n => (calls n).now) : (found config calls key n now).tokens =
      (events config calls key).level ((config.perMinute key.endpoint).toNat / 60)
        (config.burst key.endpoint).toNat n ((now : ℚ) / 1000000000) := by
  induction n generalizing now with
  | zero => simp [found, buckets, Buckets.refilled, Events.level]
  | succ n ih =>
    unfold Events.level
    by_cases hkey : (calls n).key = key
    · subst hkey
      have hle : (calls n).now ≤ now := hnow n (Nat.lt_succ_self n)
      have htokens := ih fun m hm => hcalls (Nat.le_of_lt hm)
      rw [found, buckets_succ, Function.update_self, Option.getD_some, htokens, Buckets.refilled]
      simp only [events, decide_true, if_true]
      congr 2
      rw [Nat.cast_sub hle]
      ring
    · rw [found, buckets_succ, Function.update_of_ne (Ne.symm hkey)]
      simp only [events, hkey, decide_false]
      exact ih fun m hm => hnow m (Nat.lt_succ_of_lt hm)

/-- **The limiter is a regulator for each key**: a call is admitted if and only if no window of calls
of its key that ends with it would have more than the burst and the rate allow. -/
theorem admits_iff (hcalls : Monotone fun n => (calls n).now) (hvalid : ∀ n, (calls n).source.Valid) (k : Nat) :
    admits config calls k = true ↔ ∀ j ≤ k, (calls j).Same (calls k) →
      1 + (((Finset.Ico j k).filter fun r => (calls r).Same (calls k) ∧ admits config calls r = true).card : ℚ) ≤
        (config.burst (calls k).endpoint).toNat +
          (((calls k).now : ℚ) - (calls j).now) / 1000000000 * ((config.perMinute (calls k).endpoint).toNat / 60) := by
  have hgrants : ∀ j, (events config calls (calls k).key).grants j k =
      ((Finset.Ico j k).filter fun r => (calls r).Same (calls k) ∧ admits config calls r = true).card := by
    intro j
    unfold Events.grants
    congr 2
    funext r
    simp only [events, Bool.and_eq_true, decide_eq_true_eq, key_eq_iff (hvalid r) (hvalid k)]
  rw [admits_eq, decide_eq_true_iff, tokens_level _ k (fun m hm => hcalls hm.le) hcalls, Events.le_level_iff]
  constructor
  · intro h j hj hsame
    rcases Nat.lt_or_eq_of_le hj with hj | rfl
    · have := h.2 j hj (decide_eq_true ((key_eq_iff (hvalid j) (hvalid k)).mpr hsame))
      rw [hgrants] at this
      refine this.trans_eq ?_
      simp only [events, RateCall.key]
      ring
    · simpa using h.1
  · intro h
    refine ⟨by simpa using h k (Nat.le_refl k) ⟨rfl, rfl, rfl⟩, fun j hj hown => ?_⟩
    rw [hgrants]
    refine (h j hj.le ((key_eq_iff (hvalid j) (hvalid k)).mp (of_decide_eq_true hown))).trans_eq ?_
    simp only [events, RateCall.key]
    ring

/-- A call each second, of one source. -/
def steady (n : Nat) : RateCall := ⟨.crashes, ⟨"t", "app", "app/", ""⟩, ⟨"app", "a"⟩, n * 1000000000⟩

theorem admits_iff_steady : Monotone (fun n => (steady n).now) ∧ (∀ n, (steady n).source.Valid) ∧
    admits .default steady 4 = true ∧ ∀ j ≤ 4, (steady j).Same (steady 4) →
      1 + (((Finset.Ico j 4).filter fun r => (steady r).Same (steady 4) ∧ admits .default steady r = true).card : ℚ) ≤
        (RateLimitConfig.default.burst (steady 4).endpoint).toNat +
          (((steady 4).now : ℚ) - (steady j).now) / 1000000000 *
            ((RateLimitConfig.default.perMinute (steady 4).endpoint).toNat / 60) := by
  have hcalls : Monotone fun n => (steady n).now := fun m n h => Nat.mul_le_mul_right _ h
  have hsource : (⟨"app", "a"⟩ : SourceKey).Valid :=
    ⟨⟨by decide, by decide, by decide⟩, ⟨by decide, by decide, by decide⟩, by decide, by decide⟩
  have hvalid : ∀ n, (steady n).source.Valid := fun _ => hsource
  have hadmits : admits .default steady 4 = true := by decide +kernel
  exact ⟨hcalls, hvalid, hadmits, (admits_iff hcalls hvalid 4).mp hadmits⟩

end RateLimiter

end Regulator

end Detritus.Server
