import RenoP.Lib.Runs
import Mathlib.Data.Int.Order.Basic

/-!
# Traffic buckets

The download quota of a subject, `internal/service/traffic/bucket.go`, over unbounded integers.
Every call holds the lock of the bucket.
-/

namespace RenoP.Traffic

structure Bucket where
  remainingHour : ℤ
  remainingDay : ℤ
  remainingMonth : ℤ
  lastRecoveredAt : ℤ
  hourWindowStart : ℤ
  dayWindowStart : ℤ
  monthWindowStart : ℤ
  initialized : Bool

def Bucket.new : Bucket := ⟨0, 0, 0, 0, 0, 0, 0, false⟩

structure EffectiveTier where
  hourlyLimitBytes : ℤ
  dailyLimitBytes : ℤ
  monthlyLimitBytes : ℤ
  recoveryAmountBytes : ℤ
  recoveryIntervalS : ℤ
  hourlyEnabled : Bool
  dailyEnabled : Bool
  monthlyEnabled : Bool
  unlimited : Bool

def hourMs : ℤ := 3600000
def dayMs : ℤ := 86400000
def monthMs : ℤ := 2592000000

def EffectiveTier.Recovers (tier : EffectiveTier) : Prop :=
  0 < tier.recoveryAmountBytes ∧ 0 < tier.recoveryIntervalS

instance (tier : EffectiveTier) : Decidable tier.Recovers := instDecidableAnd

def EffectiveTier.recoveryIntervalMs (tier : EffectiveTier) : ℤ := tier.recoveryIntervalS * 1000

def topUp (enabled : Bool) (limit remaining bytes : ℤ) : ℤ :=
  if enabled = true ∧ 0 < limit then min limit (remaining + bytes) else remaining

def Bucket.addBytes (b : Bucket) (tier : EffectiveTier) (bytes : ℤ) : Bucket :=
  { b with
    remainingHour := topUp tier.hourlyEnabled tier.hourlyLimitBytes b.remainingHour bytes
    remainingDay := topUp tier.dailyEnabled tier.dailyLimitBytes b.remainingDay bytes
    remainingMonth := topUp tier.monthlyEnabled tier.monthlyLimitBytes b.remainingMonth bytes }

def Bucket.initialize (b : Bucket) (now : ℤ) (tier : EffectiveTier) : Bucket :=
  { b with
    initialized := true
    remainingHour := tier.hourlyLimitBytes
    remainingDay := tier.dailyLimitBytes
    remainingMonth := tier.monthlyLimitBytes
    lastRecoveredAt := now
    hourWindowStart := now
    dayWindowStart := now
    monthWindowStart := now }

def Bucket.recover (b : Bucket) (now : ℤ) (tier : EffectiveTier) : Bucket :=
  if 0 < tier.recoveryIntervalMs ∧ b.lastRecoveredAt < now then
    let steps := (now - b.lastRecoveredAt) / tier.recoveryIntervalMs
    if 0 < steps then
      { b.addBytes tier (steps * tier.recoveryAmountBytes) with
        lastRecoveredAt := b.lastRecoveredAt + steps * tier.recoveryIntervalMs }
    else b
  else b

def resetWindow (length limit remaining start now : ℤ) : ℤ × ℤ :=
  if length ≤ now - start then (limit, now) else (remaining, start)

def Bucket.resetWindows (b : Bucket) (now : ℤ) (tier : EffectiveTier) : Bucket :=
  let hour := resetWindow hourMs tier.hourlyLimitBytes b.remainingHour b.hourWindowStart now
  let day := resetWindow dayMs tier.dailyLimitBytes b.remainingDay b.dayWindowStart now
  let month := resetWindow monthMs tier.monthlyLimitBytes b.remainingMonth b.monthWindowStart now
  { b with
    remainingHour := hour.1
    hourWindowStart := hour.2
    remainingDay := day.1
    dayWindowStart := day.2
    remainingMonth := month.1
    monthWindowStart := month.2 }

def Bucket.updateLazy (b : Bucket) (now : ℤ) (tier : EffectiveTier) : Bucket :=
  if tier.unlimited then b
  else if b.initialized = false then b.initialize now tier
  else if tier.Recovers then b.recover now tier
  else b.resetWindows now tier

def Bucket.deduct (b : Bucket) (tier : EffectiveTier) (bytes : ℤ) : Bucket :=
  { b with
    remainingHour := if tier.hourlyEnabled then b.remainingHour - bytes else b.remainingHour
    remainingDay := if tier.dailyEnabled then b.remainingDay - bytes else b.remainingDay
    remainingMonth := if tier.monthlyEnabled then b.remainingMonth - bytes else b.remainingMonth }

def Bucket.checkAndDeductAtomic (b : Bucket) (now : ℤ) (tier : EffectiveTier) (requiredBytes : ℤ) :
    Bool × Bucket :=
  if tier.unlimited then (true, b)
  else if requiredBytes ≤ 0 then (true, b)
  else
    let b := b.updateLazy now tier
    if tier.hourlyEnabled = true ∧ b.remainingHour - requiredBytes < 0 then (false, b)
    else if tier.dailyEnabled = true ∧ b.remainingDay - requiredBytes < 0 then (false, b)
    else if tier.monthlyEnabled = true ∧ b.remainingMonth - requiredBytes < 0 then (false, b)
    else (true, b.deduct tier requiredBytes)

def Bucket.refundAtomic (b : Bucket) (now : ℤ) (tier : EffectiveTier) (refundBytes : ℤ) : Bucket :=
  if tier.unlimited = true ∨ refundBytes ≤ 0 then b
  else (b.updateLazy now tier).addBytes tier refundBytes

structure Quota where
  remHour : ℤ
  remDay : ℤ
  remMonth : ℤ
  usedHour : ℤ
  usedDay : ℤ
  usedMonth : ℤ
  deriving DecidableEq

def usedBytes (limit rem : ℤ) : ℤ := if 0 < limit then max 0 (limit - rem) else 0

def Bucket.snapshot (b : Bucket) (now : ℤ) (tier : EffectiveTier) : Quota × Bucket :=
  if tier.unlimited then (⟨0, 0, 0, 0, 0, 0⟩, b)
  else
    let b := b.updateLazy now tier
    let remHour := max 0 b.remainingHour
    let remDay := max 0 b.remainingDay
    let remMonth := max 0 b.remainingMonth
    (⟨remHour, remDay, remMonth, usedBytes tier.hourlyLimitBytes remHour,
      usedBytes tier.dailyLimitBytes remDay, usedBytes tier.monthlyLimitBytes remMonth⟩, b)

inductive Window where
  | hour
  | day
  | month

def Window.length : Window → ℤ
  | .hour => hourMs
  | .day => dayMs
  | .month => monthMs

def Bucket.remaining (b : Bucket) : Window → ℤ
  | .hour => b.remainingHour
  | .day => b.remainingDay
  | .month => b.remainingMonth

def Bucket.windowStart (b : Bucket) : Window → ℤ
  | .hour => b.hourWindowStart
  | .day => b.dayWindowStart
  | .month => b.monthWindowStart

def EffectiveTier.limit (tier : EffectiveTier) : Window → ℤ
  | .hour => tier.hourlyLimitBytes
  | .day => tier.dailyLimitBytes
  | .month => tier.monthlyLimitBytes

def EffectiveTier.enabled (tier : EffectiveTier) : Window → Bool
  | .hour => tier.hourlyEnabled
  | .day => tier.dailyEnabled
  | .month => tier.monthlyEnabled

variable {b : Bucket} {tier : EffectiveTier} {now : ℤ} {w : Window}

theorem remaining_addBytes (b : Bucket) (tier : EffectiveTier) (bytes : ℤ) (w : Window) :
    (b.addBytes tier bytes).remaining w =
      topUp (tier.enabled w) (tier.limit w) (b.remaining w) bytes := by
  cases w with
  | hour => rfl
  | day => rfl
  | month => rfl

theorem windowStart_addBytes (b : Bucket) (tier : EffectiveTier) (bytes : ℤ) (w : Window) :
    (b.addBytes tier bytes).windowStart w = b.windowStart w := by
  cases w with
  | hour => rfl
  | day => rfl
  | month => rfl

theorem remaining_deduct (b : Bucket) (tier : EffectiveTier) (bytes : ℤ) (w : Window) :
    (b.deduct tier bytes).remaining w =
      if tier.enabled w then b.remaining w - bytes else b.remaining w := by
  cases w with
  | hour => rfl
  | day => rfl
  | month => rfl

theorem windowStart_deduct (b : Bucket) (tier : EffectiveTier) (bytes : ℤ) (w : Window) :
    (b.deduct tier bytes).windowStart w = b.windowStart w := by
  cases w with
  | hour => rfl
  | day => rfl
  | month => rfl

theorem resetWindows_window (b : Bucket) (now : ℤ) (tier : EffectiveTier) (w : Window) :
    ((b.resetWindows now tier).remaining w, (b.resetWindows now tier).windowStart w) =
      resetWindow w.length (tier.limit w) (b.remaining w) (b.windowStart w) now := by
  cases w with
  | hour => rfl
  | day => rfl
  | month => rfl

theorem updateLazy_cases (b : Bucket) (now : ℤ) {tier : EffectiveTier} (w : Window)
    (hlimited : tier.unlimited = false) :
    (b.initialized = false ∧ (b.updateLazy now tier).remaining w = tier.limit w ∧
        (b.updateLazy now tier).lastRecoveredAt = now ∧
        (b.updateLazy now tier).windowStart w = now) ∨
      (b.initialized = true ∧ tier.Recovers ∧
        ((b.updateLazy now tier = b ∧
            now - b.lastRecoveredAt < tier.recoveryIntervalMs) ∨
          ∃ steps, 0 < steps ∧ steps = (now - b.lastRecoveredAt) / tier.recoveryIntervalMs ∧
            (b.updateLazy now tier).remaining w = topUp (tier.enabled w) (tier.limit w)
              (b.remaining w) (steps * tier.recoveryAmountBytes) ∧
            (b.updateLazy now tier).lastRecoveredAt =
              b.lastRecoveredAt + steps * tier.recoveryIntervalMs)) ∨
      (b.initialized = true ∧ ¬tier.Recovers ∧
        ((b.updateLazy now tier).remaining w, (b.updateLazy now tier).windowStart w) =
          resetWindow w.length (tier.limit w) (b.remaining w) (b.windowStart w) now) := by
  unfold Bucket.updateLazy
  rw [if_neg (by rw [hlimited]; decide)]
  split_ifs with hnew hrecovers
  · left
    cases w with
    | hour => exact ⟨hnew, rfl, rfl, rfl⟩
    | day => exact ⟨hnew, rfl, rfl, rfl⟩
    | month => exact ⟨hnew, rfl, rfl, rfl⟩
  · right
    left
    refine ⟨Bool.not_eq_false _ |>.mp hnew, hrecovers, ?_⟩
    have hinterval : 0 < tier.recoveryIntervalMs := Int.mul_pos hrecovers.2 (by decide)
    unfold Bucket.recover
    dsimp only
    split_ifs with hlater hsteps
    · right
      exact ⟨_, hsteps, rfl, remaining_addBytes _ _ _ _, rfl⟩
    · left
      refine ⟨rfl, ?_⟩
      have hzero := Int.not_lt.mp hsteps
      have hless := Int.lt_ediv_add_one_mul_self (now - b.lastRecoveredAt) hinterval
      have hle := Int.mul_le_mul_of_nonneg_right hzero (Int.le_of_lt hinterval)
      rw [Int.add_mul] at hless
      omega
    · left
      refine ⟨rfl, ?_⟩
      have hearly : ¬b.lastRecoveredAt < now := fun h => hlater ⟨hinterval, h⟩
      omega
  · right
    right
    exact ⟨Bool.not_eq_false _ |>.mp hnew, hrecovers, resetWindows_window _ _ _ _⟩

theorem updateLazy_initialized (b : Bucket) (now : ℤ) {tier : EffectiveTier}
    (hlimited : tier.unlimited = false) : (b.updateLazy now tier).initialized = true := by
  unfold Bucket.updateLazy
  rw [if_neg (by rw [hlimited]; decide)]
  split_ifs with hnew hrecovers
  · rfl
  · have hinit := Bool.not_eq_false _ |>.mp hnew
    unfold Bucket.recover
    dsimp only
    split_ifs
    · exact hinit
    · exact hinit
    · exact hinit
  · exact Bool.not_eq_false _ |>.mp hnew

end RenoP.Traffic
