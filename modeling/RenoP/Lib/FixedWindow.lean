import Mathlib.Data.Int.Notation
import Mathlib.Data.Nat.Notation
import Mathlib.Tactic.SplitIfs

/-!
# Fixed windows

A counter of charges that starts again when its window has ended: the next window starts at the time
of the charge that finds the last one over.
-/

structure FixedWindow where
  start : ℤ
  count : ℕ
  deriving DecidableEq

namespace FixedWindow

variable (length : ℤ) (limit : ℕ)

def roll (w : FixedWindow) (now : ℤ) : FixedWindow :=
  if length ≤ now - w.start then ⟨now, 0⟩ else w

def charge (w : FixedWindow) : FixedWindow := { w with count := w.count + 1 }

/-- The charges that are still possible from a clock on in the closed period of one window's
length that starts at `since`, if no window takes more than the limit. -/
def remaining (w : FixedWindow) (clock since : ℤ) : ℕ :=
  if since + length < clock then 0
  else if w.start + length ≤ since then 2 * limit
  else if w.start ≤ since then limit + (limit - w.count)
  else limit - w.count

variable {length limit}

theorem roll_current (hlength : 0 < length) (w : FixedWindow) (now : ℤ) :
    now < (w.roll length now).start + length := by
  unfold roll
  split_ifs with h
  · show now < now + length
    omega
  · omega

theorem remaining_le (w : FixedWindow) (clock since : ℤ) :
    w.remaining length limit clock since ≤ 2 * limit := by
  unfold remaining
  split_ifs <;> omega

theorem remaining_later {clock now : ℤ} (hclock : clock ≤ now) (w : FixedWindow) (since : ℤ) :
    w.remaining length limit now since ≤ w.remaining length limit clock since := by
  unfold remaining
  split_ifs <;> omega

theorem remaining_roll {clock now : ℤ} (hclock : clock ≤ now) (w : FixedWindow) (since : ℤ) :
    (w.roll length now).remaining length limit now since ≤
      w.remaining length limit clock since := by
  have hlater := @remaining_later length limit _ _ hclock w since
  unfold roll
  split_ifs with hover
  · unfold remaining
    dsimp only
    split_ifs <;> omega
  · exact hlater

theorem remaining_charge {clock now : ℤ} (hlength : 0 < length) (hclock : clock ≤ now)
    (w : FixedWindow) (since : ℤ) (hopen : (w.roll length now).count < limit) :
    (if since ≤ now ∧ now ≤ since + length then 1 else 0) +
        (w.roll length now).charge.remaining length limit now since ≤
      w.remaining length limit clock since := by
  have hroll := @remaining_roll length limit _ _ hclock w since
  have hcurrent := roll_current hlength w now
  have hpaid : (if since ≤ now ∧ now ≤ since + length then 1 else 0) +
      (w.roll length now).charge.remaining length limit now since ≤
        (w.roll length now).remaining length limit now since := by
    generalize w.roll length now = rolled at hopen hcurrent
    unfold remaining charge
    dsimp only
    split_ifs <;> omega
  exact Nat.le_trans hpaid hroll

end FixedWindow
