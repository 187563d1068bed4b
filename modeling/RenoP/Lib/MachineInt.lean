import Mathlib.Tactic.Linarith

/-!
# Integers of 64 bits

An operation whose result does not fit is an error. A quotient that is rounded up is the least
integer that is not below it.
-/

namespace MachineInt

variable {ε : Type} {x : ℤ}

def Fits (x : ℤ) : Prop := -9223372036854775808 ≤ x ∧ x ≤ 9223372036854775807

instance : DecidablePred Fits := fun _ => inferInstanceAs (Decidable (_ ∧ _))

def checked (err : ε) (x : ℤ) : Except ε ℤ := if Fits x then .ok x else .error err

theorem checked_ok {err : ε} (h : Fits x) : checked err x = .ok x := if_pos h

def ceilDiv (a b : ℤ) : ℤ := -(-a / b)

variable {a a' b : ℤ}

theorem ceilDiv_le_iff (hb : 0 < b) {k : ℤ} : ceilDiv a b ≤ k ↔ a ≤ k * b := by
  have hiff := Int.le_ediv_iff_mul_le (a := -k) (b := -a) hb
  unfold ceilDiv
  rw [Int.neg_mul] at hiff
  omega

theorem ceilDiv_mono (hb : 0 < b) (h : a ≤ a') : ceilDiv a b ≤ ceilDiv a' b :=
  (ceilDiv_le_iff hb).mpr (h.trans ((ceilDiv_le_iff hb).mp le_rfl))

theorem ceilDiv_zero (b : ℤ) : ceilDiv 0 b = 0 := by
  unfold ceilDiv
  rw [Int.neg_zero, Int.zero_ediv, Int.neg_zero]

theorem ceilDiv_nonneg (hb : 0 < b) (ha : 0 ≤ a) : 0 ≤ ceilDiv a b := by
  rw [← ceilDiv_zero b]
  exact ceilDiv_mono hb ha

theorem ceilDiv_add_mul (hb : 0 < b) (k r : ℤ) : ceilDiv (k * b + r) b = k + ceilDiv r b := by
  have hsplit : -(k * b + r) = -r + -k * b := by linarith
  unfold ceilDiv
  rw [hsplit, Int.add_mul_ediv_right _ _ (Int.ne_of_gt hb)]
  omega

theorem ceilDiv_eq (hb : 0 < b) (a : ℤ) : ceilDiv a b = a / b + if 0 < a % b then 1 else 0 := by
  have hlow := Int.emod_nonneg a (Int.ne_of_gt hb)
  have hhigh := Int.emod_lt_of_pos a hb
  have hsplit : a / b * b + a % b = a := Int.ediv_mul_add_emod a b
  have hrest : ceilDiv (a % b) b = if 0 < a % b then 1 else 0 := by
    split_ifs with hpos
    · refine le_antisymm ((ceilDiv_le_iff hb).mpr (by omega)) ?_
      by_contra hlt
      have hle := (ceilDiv_le_iff hb).mp (show ceilDiv (a % b) b ≤ 0 by omega)
      omega
    · rw [show a % b = 0 by omega, ceilDiv_zero]
  rw [← hrest, ← ceilDiv_add_mul hb, hsplit]

end MachineInt
