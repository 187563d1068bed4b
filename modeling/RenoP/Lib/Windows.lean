import Mathlib.Algebra.Order.Ring.Int

/-!
# Windows of time

A period gives each instant its window: a start, and an end that is not in it.
-/

namespace Windows

variable {w : ℤ → ℤ × ℤ}

structure Tiles (w : ℤ → ℤ × ℤ) : Prop where
  contains : ∀ t, (w t).1 ≤ t ∧ t < (w t).2
  same : ∀ t s, (w t).1 ≤ s → s < (w t).2 → w s = w t

theorem Tiles.next (h : Tiles w) (t : ℤ) : (w (w t).2).1 = (w t).2 := by
  obtain ⟨hstart, hstop⟩ := h.contains t
  obtain ⟨hle, hlt⟩ := h.contains (w t).2
  by_contra hne
  have hbefore : w ((w t).2 - 1) = w t := h.same t _ (by omega) (by omega)
  have hafter : w ((w t).2 - 1) = w (w t).2 := h.same _ _ (by omega) (by omega)
  rw [← hafter, hbefore] at hlt
  exact absurd hlt (lt_irrefl _)

theorem Tiles.scale (h : Tiles w) {n : ℤ} (hn : 0 < n) :
    Tiles fun t => ((w (t / n)).1 * n, (w (t / n)).2 * n) := by
  have hiff : ∀ t a : ℤ, a * n ≤ t ↔ a ≤ t / n := fun t a => (Int.le_ediv_iff_mul_le hn).symm
  refine ⟨fun t => ?_, fun t s hstart hstop => ?_⟩
  · obtain ⟨hstart, hstop⟩ := h.contains (t / n)
    refine ⟨(hiff t _).mpr hstart, ?_⟩
    by_contra hle
    exact absurd ((hiff t _).mp (not_lt.mp hle)) (not_le.mpr hstop)
  · have hbegin : (w (t / n)).1 ≤ s / n := (hiff s _).mp hstart
    have hend : s / n < (w (t / n)).2 := by
      by_contra hle
      exact absurd ((hiff s _).mpr (not_lt.mp hle)) (not_le.mpr hstop)
    rw [h.same _ _ hbegin hend]

theorem tiles_of_starts {first index : ℤ → ℤ}
    (hmono : ∀ i j, first i < first j → i < j)
    (hindex : ∀ t, first (index t) ≤ t ∧ t < first (index t + 1)) :
    Tiles fun t => (first (index t), first (index t + 1)) := by
  refine ⟨hindex, fun t s hstart hstop => ?_⟩
  obtain ⟨hle, hlt⟩ := hindex s
  have hbefore : index t < index s + 1 := hmono _ _ (lt_of_le_of_lt hstart hlt)
  have hafter : index s < index t + 1 := hmono _ _ (lt_of_le_of_lt hle hstop)
  have hsame : index s = index t := by omega
  rw [hsame]

end Windows
