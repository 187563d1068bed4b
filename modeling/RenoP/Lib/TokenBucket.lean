import Mathlib.Algebra.Order.Field.Basic
import Mathlib.Tactic.Linarith

/-!
# Token buckets

A bucket gains tokens at a rate, up to its burst, and a request takes one if there is one.
-/

structure TokenBucket (𝕜 : Type) where
  tokens : 𝕜
  last : 𝕜

namespace TokenBucket

variable {𝕜 : Type} [Field 𝕜] [LinearOrder 𝕜]

section

variable (rate burst : 𝕜)

def level (b : TokenBucket 𝕜) (t : 𝕜) : 𝕜 := min burst (b.tokens + rate * (t - min b.last t))

def take (b : TokenBucket 𝕜) (t : 𝕜) : Bool × TokenBucket 𝕜 :=
  if 0 ≤ level rate burst b t - 1 then (true, ⟨level rate burst b t - 1, t⟩) else (false, b)

def full : TokenBucket 𝕜 := ⟨burst, 0⟩

def Agree (t : 𝕜) (b b' : TokenBucket 𝕜) : Prop :=
  ∀ t', t ≤ t' → level rate burst b t' = level rate burst b' t'

def Settled (t : 𝕜) (b : TokenBucket 𝕜) : Prop := 0 ≤ b.tokens ∧ b.last ≤ t

end

variable {rate burst t t' : 𝕜} {b b' b'' : TokenBucket 𝕜}

theorem level_le : level rate burst b t ≤ burst := min_le_left _ _

theorem level_of_last_le (h : b.last ≤ t) :
    level rate burst b t = min burst (b.tokens + rate * (t - b.last)) := by
  rw [level, min_eq_left h]

theorem Agree.refl : Agree rate burst t b b := fun _ _ => rfl

theorem Agree.symm (h : Agree rate burst t b b') : Agree rate burst t b' b :=
  fun t' ht => (h t' ht).symm

theorem Agree.trans (h : Agree rate burst t b b') (h' : Agree rate burst t b' b'') :
    Agree rate burst t b b'' := fun t' ht => (h t' ht).trans (h' t' ht)

theorem Agree.later (h : Agree rate burst t b b') (ht : t ≤ t') : Agree rate burst t' b b' :=
  fun t'' ht' => h t'' (ht.trans ht')

theorem agree_take (h : Agree rate burst t b b') :
    (take rate burst b t).1 = (take rate burst b' t).1 ∧
      Agree rate burst t (take rate burst b t).2 (take rate burst b' t).2 := by
  unfold take
  rw [h t le_rfl]
  split_ifs
  · exact ⟨rfl, Agree.refl⟩
  · exact ⟨rfl, h⟩

theorem settled_take (h : Settled t b) (ht : t ≤ t') : Settled t' (take rate burst b t').2 := by
  unfold take
  split_ifs with hlevel
  · exact ⟨hlevel, le_rfl⟩
  · exact ⟨h.1, h.2.trans ht⟩

variable [IsStrictOrderedRing 𝕜]

theorem level_mono (hrate : 0 ≤ rate) (h : t ≤ t') :
    level rate burst b t ≤ level rate burst b t' := by
  have helapsed : t - min b.last t ≤ t' - min b.last t' := by
    rcases le_total b.last t with hlast | hlast
    · rw [min_eq_left hlast, min_eq_left (hlast.trans h)]
      exact sub_le_sub_right h _
    · rw [min_eq_right hlast, sub_self]
      exact sub_nonneg.mpr (min_le_right _ _)
  exact min_le_min_left _ (add_le_add le_rfl (mul_le_mul_of_nonneg_left helapsed hrate))

theorem level_growth (hrate : 0 ≤ rate) (h : t ≤ t') :
    level rate burst b t' ≤ level rate burst b t + rate * (t' - t) := by
  have hgain : 0 ≤ rate * (t' - t) := mul_nonneg hrate (sub_nonneg.mpr h)
  have helapsed : t' - min b.last t' ≤ t - min b.last t + (t' - t) := by
    rw [sub_add_sub_cancel']
    exact sub_le_sub_left (min_le_min_left b.last h) t'
  have hmul := mul_le_mul_of_nonneg_left helapsed hrate
  rw [mul_add] at hmul
  unfold level
  rw [← min_add_add_right]
  refine min_le_min (le_add_of_nonneg_right hgain) ?_
  rw [add_assoc]
  exact add_le_add le_rfl hmul

theorem level_nonneg (hrate : 0 ≤ rate) (hburst : 0 ≤ burst) (h : 0 ≤ b.tokens) :
    0 ≤ level rate burst b t :=
  le_min hburst (add_nonneg h (mul_nonneg hrate (sub_nonneg.mpr (min_le_right _ _))))

theorem level_full (hrate : 0 ≤ rate) : level rate burst (full burst) t = burst := by
  have hgain : 0 ≤ rate * (t - min 0 t) := mul_nonneg hrate (sub_nonneg.mpr (min_le_right _ _))
  exact min_eq_left (le_add_of_nonneg_right hgain)

theorem level_refilled {s : 𝕜} (hrate : 0 ≤ rate) (hb : Settled s b) (hs : s ≤ t)
    (h : burst ≤ rate * (t - s)) : level rate burst b t = burst := by
  obtain ⟨htokens, hlast⟩ := hb
  rw [level_of_last_le (hlast.trans hs)]
  have hgain := mul_le_mul_of_nonneg_left (sub_le_sub_left hlast t) hrate
  exact min_eq_left (h.trans (hgain.trans (le_add_of_nonneg_left htokens)))

theorem agree_full (hrate : 0 ≤ rate) (h : level rate burst b t = burst) :
    Agree rate burst t b (full burst) := by
  intro t' ht
  have hmono : level rate burst b t ≤ level rate burst b t' := level_mono hrate ht
  rw [level_full hrate]
  exact le_antisymm level_le (by rwa [h] at hmono)

theorem take_full (hrate : 0 ≤ rate) (hburst : 1 ≤ burst) :
    take rate burst (full burst) t = (true, ⟨burst - 1, t⟩) := by
  rw [take, level_full hrate, if_pos (sub_nonneg.mpr hburst)]

theorem level_take : level rate burst (take rate burst b t).2 t +
    (if (take rate burst b t).1 then 1 else 0) = level rate burst b t := by
  unfold take
  by_cases h : 0 ≤ level rate burst b t - 1
  · have hlevel : level rate burst b t ≤ burst := level_le
    have hafter : level rate burst (⟨level rate burst b t - 1, t⟩ : TokenBucket 𝕜) t =
        level rate burst b t - 1 := by
      rw [level_of_last_le le_rfl, sub_self, mul_zero, add_zero]
      exact min_eq_right ((sub_le_self _ zero_le_one).trans hlevel)
    rw [if_pos h, if_pos rfl, hafter, sub_add_cancel]
  · rw [if_neg h, if_neg Bool.false_ne_true, add_zero]

end TokenBucket
