import RenoP.Lib.MachineInt
import RenoP.Mail.Accounting
import Mathlib.Tactic.Ring

/-!
# Prices of mail

`Pricing.Validate` and `Pricing.Cost` of `internal/mail/config.go`.
-/

namespace RenoP.Mail

open Fallible (refuse)
open MachineInt (checked checked_ok ceilDiv)

def validTiers : ℤ → List PriceTier → Bool
  | _, [] => true
  | previous, tier :: tiers =>
    if tier.upTo < 0 ∨ 1000000000 < tier.upTo ∨ (tier.upTo ≠ 0 ∧ tier.upTo ≤ previous) ∨
        (tier.upTo = 0 ∧ tiers ≠ []) ∨ tier.amountMicros < 0 ∨ 1000000000000 < tier.amountMicros ∨
        tier.batchSize < 1 ∨ 1000000000 < tier.batchSize then false
    else validTiers tier.upTo tiers

def Pricing.validate (p : Pricing) : Bool :=
  decide (p.currency.length = 3 ∧ p.tiers.length ≤ 20) &&
    p.currency.all (fun letter => 'A' ≤ letter && letter ≤ 'Z') && validTiers 0 p.tiers

inductive CostError where
  | refused
  /-- an operation whose result does not fit `int64` -/
  | overflow
  deriving DecidableEq

def int64 (x : ℤ) : Except CostError ℤ := checked .overflow x

def batches64 (rounding : Rounding) (units batchSize : ℤ) : Except CostError (ℤ × ℤ) := do
  let whole ← int64 (units.tdiv batchSize)
  let remainder ← int64 (units.tmod batchSize)
  if rounding = .batch ∧ 0 < remainder then
    let whole ← int64 (whole + 1)
    return (whole, 0)
  else return (whole, remainder)

def PriceTier.cost64 (tier : PriceTier) (whole remainder : ℤ) : Except CostError ℤ := do
  let cost ← int64 (whole * tier.amountMicros)
  if 0 < remainder then
    let product ← int64 (remainder * tier.amountMicros)
    let cost ← int64 (cost + product.tdiv tier.batchSize)
    if 0 < product.tmod tier.batchSize then int64 (cost + 1) else return cost
  else return cost

def PriceTier.share64 (tier : PriceTier) (previous units : ℤ) : Except CostError ℤ :=
  if 0 < tier.upTo then (min units ·) <$> int64 (tier.upTo - previous) else .ok units

def PriceTier.add64 (tier : PriceTier) (rounding : Rounding) (total units : ℤ) :
    Except CostError ℤ := do
  refuse (tier.batchSize ≤ 0) .refused
  let (whole, remainder) ← batches64 rounding units tier.batchSize
  refuse (0 < tier.amountMicros ∧ (maxCost.tdiv tier.amountMicros < whole ∨
    maxInt64.tdiv tier.amountMicros < remainder)) .refused
  let cost ← tier.cost64 whole remainder
  let left ← int64 (maxCost - cost)
  refuse (left < total) .refused
  int64 (total + cost)

def costFrom64 (rounding : Rounding) (count : ℤ) : ℤ → ℤ → List PriceTier → Except CostError ℤ
  | total, previous, [] => if previous < count then .error .refused else .ok total
  | total, previous, tier :: tiers => do
    let units ← int64 (count - previous)
    if units ≤ 0 then
      if previous < count then .error .refused else .ok total
    else
      let units ← tier.share64 previous units
      let total ← tier.add64 rounding total units
      if tier.upTo = 0 then return total else costFrom64 rounding count total tier.upTo tiers

def Pricing.cost64 (p : Pricing) (count : ℤ) : Except CostError ℤ :=
  if count < 0 ∨ 1000000000 < count then .error .refused
  else costFrom64 p.rounding count 0 0 p.tiers

def PriceTier.units (tier : PriceTier) (previous count : ℤ) : ℤ :=
  max 0 ((if tier.upTo = 0 then count else min count tier.upTo) - previous)

def PriceTier.exact (tier : PriceTier) (rounding : Rounding) (units : ℤ) : ℤ :=
  match rounding with
  | .proportional => ceilDiv (units * tier.amountMicros) tier.batchSize
  | .batch => ceilDiv units tier.batchSize * tier.amountMicros

def exactFrom (rounding : Rounding) (count : ℤ) : ℤ → List PriceTier → ℤ
  | _, [] => 0
  | previous, tier :: tiers =>
    tier.exact rounding (tier.units previous count) + exactFrom rounding count tier.upTo tiers

def Pricing.exact (p : Pricing) (count : ℤ) : ℤ := exactFrom p.rounding count 0 p.tiers

def Pricing.Covers (p : Pricing) (count : ℤ) : Prop :=
  count = 0 ∨ ∃ tier ∈ p.tiers, tier.upTo = 0 ∨ count ≤ tier.upTo

/-- Units beyond whole batches that cost more than `int64` holds before the division. -/
def longFrom (rounding : Rounding) (count : ℤ) : ℤ → List PriceTier → Prop
  | _, [] => False
  | previous, tier :: tiers =>
    (rounding = .proportional ∧
      maxInt64 < tier.units previous count % tier.batchSize * tier.amountMicros) ∨
      longFrom rounding count tier.upTo tiers

def Pricing.LongRemainder (p : Pricing) (count : ℤ) : Prop := longFrom p.rounding count 0 p.tiers

structure TierOk (previous : ℤ) (tier : PriceTier) (tiers : List PriceTier) : Prop where
  upTo : 0 ≤ tier.upTo ∧ tier.upTo ≤ 1000000000
  ascends : tier.upTo = 0 ∨ previous < tier.upTo
  last : tier.upTo = 0 → tiers = []
  amount : 0 ≤ tier.amountMicros ∧ tier.amountMicros ≤ 1000000000000
  batch : 0 < tier.batchSize ∧ tier.batchSize ≤ 1000000000

variable {previous count units total : ℤ} {tier : PriceTier} {tiers : List PriceTier}
  {rounding : Rounding}

theorem validTiers_cons (h : validTiers previous (tier :: tiers) = true) :
    TierOk previous tier tiers ∧ validTiers tier.upTo tiers = true := by
  unfold validTiers at h
  split_ifs at h with hbad
  refine ⟨⟨by omega, by omega, fun hopen => ?_, by omega, by omega⟩, h⟩
  by_contra hne
  exact hbad (by tauto)

theorem units_nonneg : 0 ≤ tier.units previous count := le_max_left _ _

theorem units_past (h : count ≤ previous) :
    tier.units previous count = 0 := by
  unfold PriceTier.units
  split_ifs <;> omega

theorem units_eq (hok : TierOk previous tier tiers) (h : previous < count) :
    (if 0 < tier.upTo then min (count - previous) (tier.upTo - previous) else count - previous) =
      tier.units previous count := by
  have hup := hok.upTo
  have hascends := hok.ascends
  unfold PriceTier.units
  split_ifs <;> omega

theorem units_mono {m n : ℤ} (h : m ≤ n) : tier.units previous m ≤ tier.units previous n := by
  unfold PriceTier.units
  split_ifs <;> omega

theorem exact_mono (hok : TierOk previous tier tiers) {m n : ℤ} (h : m ≤ n) :
    tier.exact rounding m ≤ tier.exact rounding n := by
  have hbatch := hok.batch.1
  have hamount := hok.amount.1
  cases rounding with
  | proportional =>
    exact MachineInt.ceilDiv_mono hbatch (Int.mul_le_mul_of_nonneg_right h hamount)
  | batch =>
    exact Int.mul_le_mul_of_nonneg_right (MachineInt.ceilDiv_mono hbatch h) hamount

theorem exact_zero : tier.exact rounding 0 = 0 := by
  cases rounding with
  | proportional => simp [PriceTier.exact, MachineInt.ceilDiv_zero]
  | batch => simp [PriceTier.exact, MachineInt.ceilDiv_zero]

theorem exact_nonneg (hok : TierOk previous tier tiers) (h : 0 ≤ units) :
    0 ≤ tier.exact rounding units := by
  rw [← @exact_zero tier rounding]
  exact exact_mono hok h

structure Batched (rounding : Rounding) (tier : PriceTier) (units whole remainder : ℤ) : Prop where
  batches : 0 ≤ whole ∧ whole ≤ units + 1
  rest : 0 ≤ remainder ∧ remainder < tier.batchSize
  long : maxInt64 < remainder * tier.amountMicros ↔
    rounding = .proportional ∧ maxInt64 < units % tier.batchSize * tier.amountMicros
  part : whole * tier.amountMicros ≤ tier.exact rounding units
  cost : tier.cost whole remainder = tier.exact rounding units

theorem cost_eq (hok : TierOk previous tier tiers) {whole remainder : ℤ} (h : 0 ≤ remainder) :
    tier.cost whole remainder =
      whole * tier.amountMicros + ceilDiv (remainder * tier.amountMicros) tier.batchSize := by
  have hproduct : 0 ≤ remainder * tier.amountMicros := Int.mul_nonneg h hok.amount.1
  unfold PriceTier.cost
  dsimp only
  rw [MachineInt.ceilDiv_eq hok.batch.1, Int.tdiv_eq_ediv_of_nonneg hproduct,
    Int.tmod_eq_emod_of_nonneg hproduct]
  rcases Int.lt_or_eq_of_le h with hpos | hzero
  · rw [if_pos hpos]
    split_ifs <;> omega
  · rw [← hzero]
    simp

theorem batches_spec (hok : TierOk previous tier tiers) (h : 0 ≤ units) :
    Batched rounding tier units (batches rounding units tier.batchSize).1
      (batches rounding units tier.batchSize).2 := by
  have hbatch := hok.batch.1
  have hamount := hok.amount.1
  have hlow := Int.emod_nonneg units (Int.ne_of_gt hbatch)
  have hhigh := Int.emod_lt_of_pos units hbatch
  have hquotient := Int.ediv_nonneg h (Int.le_of_lt hbatch)
  have hle : units / tier.batchSize ≤ units := Int.ediv_le_self _ h
  have hsplit : units / tier.batchSize * tier.batchSize + units % tier.batchSize = units :=
    Int.ediv_mul_add_emod units tier.batchSize
  have hup := MachineInt.ceilDiv_eq hbatch units
  have hzero : tier.amountMicros * 0 = 0 := Int.mul_zero _
  unfold batches
  dsimp only
  rw [Int.tdiv_eq_ediv_of_nonneg h, Int.tmod_eq_emod_of_nonneg h]
  cases rounding with
  | proportional =>
    have hexact : tier.exact .proportional units = units / tier.batchSize * tier.amountMicros +
        ceilDiv (units % tier.batchSize * tier.amountMicros) tier.batchSize := by
      unfold PriceTier.exact
      dsimp only
      rw [← MachineInt.ceilDiv_add_mul hbatch]
      congr 1
      conv_lhs => rw [← hsplit]
      ring
    have hrest := MachineInt.ceilDiv_nonneg hbatch (Int.mul_nonneg hlow hamount)
    rw [if_neg fun hboth => nomatch hboth.1]
    refine ⟨⟨hquotient, by omega⟩, ⟨hlow, hhigh⟩, ⟨fun hlong => ⟨rfl, hlong⟩, And.right⟩, ?_, ?_⟩
    · dsimp only
      omega
    · rw [cost_eq hok hlow, hexact]
  | batch =>
    have hexact : tier.exact .batch units =
        ceilDiv units tier.batchSize * tier.amountMicros := rfl
    split_ifs with hrest
    · rw [if_pos hrest.2] at hup
      refine ⟨⟨by omega, by omega⟩, ⟨le_rfl, hbatch⟩, ⟨fun hlong => ?_, nofun⟩, ?_, ?_⟩
      · simp [maxInt64] at hlong
      · rw [hexact, hup]
      · rw [cost_eq hok le_rfl, hexact, hup, Int.zero_mul, MachineInt.ceilDiv_zero, Int.add_zero]
    · have hnone : units % tier.batchSize = 0 := by
        by_contra hne
        exact hrest ⟨rfl, by omega⟩
      rw [hnone, if_neg (lt_irrefl 0), Int.add_zero] at hup
      rw [hnone]
      refine ⟨⟨hquotient, by omega⟩, ⟨le_rfl, hbatch⟩, ⟨fun hlong => ?_, nofun⟩, ?_, ?_⟩
      · simp [maxInt64] at hlong
      · rw [hexact, hup]
      · rw [cost_eq hok le_rfl, hexact, hup, Int.zero_mul, MachineInt.ceilDiv_zero, Int.add_zero]

theorem guard_iff {whole remainder : ℤ} :
    (0 < tier.amountMicros ∧ (maxCost.tdiv tier.amountMicros < whole ∨
      maxInt64.tdiv tier.amountMicros < remainder)) ↔
      0 < tier.amountMicros ∧ (maxCost < whole * tier.amountMicros ∨
        maxInt64 < remainder * tier.amountMicros) := by
  have hcost : 0 ≤ maxCost := by decide
  have hint : 0 ≤ maxInt64 := by decide
  rw [Int.tdiv_eq_ediv_of_nonneg hcost, Int.tdiv_eq_ediv_of_nonneg hint]
  refine and_congr_right fun hpos => ?_
  rw [Int.ediv_lt_iff_lt_mul hpos, Int.ediv_lt_iff_lt_mul hpos]

def coversFrom (count previous : ℤ) (tiers : List PriceTier) : Prop :=
  count ≤ previous ∨ ∃ tier ∈ tiers, tier.upTo = 0 ∨ count ≤ tier.upTo

theorem exactFrom_past (hvalid : validTiers previous tiers = true) (h : count ≤ previous) :
    exactFrom rounding count previous tiers = 0 ∧ ¬longFrom rounding count previous tiers := by
  induction tiers generalizing previous with
  | nil => exact ⟨rfl, id⟩
  | cons tier tiers ih =>
    obtain ⟨hok, hrest⟩ := validTiers_cons hvalid
    have hzero : maxInt64 < 0 % tier.batchSize * tier.amountMicros ↔ False := by
      simp [maxInt64]
    have htail : exactFrom rounding count tier.upTo tiers = 0 ∧
        ¬longFrom rounding count tier.upTo tiers := by
      rcases hok.ascends with hopen | hascends
      · rw [hok.last hopen]
        exact ⟨rfl, id⟩
      · exact ih hrest (by omega)
    unfold exactFrom longFrom
    rw [units_past h, exact_zero, htail.1, hzero]
    exact ⟨rfl, fun hlong => hlong.elim (fun hno => hno.2) htail.2⟩

theorem exactFrom_nonneg (hvalid : validTiers previous tiers = true) :
    0 ≤ exactFrom rounding count previous tiers := by
  induction tiers generalizing previous with
  | nil => exact le_rfl
  | cons tier tiers ih =>
    obtain ⟨hok, hrest⟩ := validTiers_cons hvalid
    have htier := @exact_nonneg previous _ tier tiers rounding hok (@units_nonneg previous count tier)
    have htiers := ih hrest
    unfold exactFrom
    omega

theorem exactFrom_mono (hvalid : validTiers previous tiers = true) {m n : ℤ} (h : m ≤ n) :
    exactFrom rounding m previous tiers ≤ exactFrom rounding n previous tiers := by
  induction tiers generalizing previous with
  | nil => exact le_rfl
  | cons tier tiers ih =>
    obtain ⟨hok, hrest⟩ := validTiers_cons hvalid
    have htier := @exact_mono previous tier tiers rounding hok _ _ (@units_mono previous tier m n h)
    have htiers := ih hrest
    unfold exactFrom
    omega

theorem costFrom_cons (hok : TierOk previous tier tiers) (htotal : 0 ≤ total)
    (h : previous < count) {c : ℤ} :
    Pricing.costFrom rounding count total previous (tier :: tiers) = some c ↔
      ¬(rounding = .proportional ∧
        maxInt64 < tier.units previous count % tier.batchSize * tier.amountMicros) ∧
      total + tier.exact rounding (tier.units previous count) ≤ maxCost ∧
      (if tier.upTo = 0 then some (total + tier.exact rounding (tier.units previous count))
        else Pricing.costFrom rounding count
          (total + tier.exact rounding (tier.units previous count)) tier.upTo tiers) = some c := by
  have hbatched := @batches_spec previous _ tier tiers rounding hok (@units_nonneg previous count tier)
  have hamount := hok.amount.1
  rw [Pricing.costFrom]
  dsimp only
  rw [if_neg (by omega), units_eq hok h, if_neg (by have := hok.batch.1; omega)]
  generalize batches rounding (tier.units previous count) tier.batchSize = batch at hbatched ⊢
  obtain ⟨whole, remainder⟩ := batch
  have hpart := hbatched.part
  dsimp only at hbatched hpart ⊢
  rw [hbatched.cost, ← hbatched.long]
  generalize tier.exact rounding (tier.units previous count) = cost at hpart ⊢
  by_cases hguard : 0 < tier.amountMicros ∧ (maxCost.tdiv tier.amountMicros < whole ∨
      maxInt64.tdiv tier.amountMicros < remainder)
  · rw [if_pos hguard]
    refine ⟨nofun, fun hright => ?_⟩
    rcases (guard_iff.mp hguard).2 with hwhole | hlong
    · exact absurd hright.2.1 (by omega)
    · exact absurd hlong hright.1
  · have hshort : ¬maxInt64 < remainder * tier.amountMicros := by
      intro hlong
      rcases Int.lt_or_eq_of_le hamount with hpos | hzero
      · exact hguard (guard_iff.mpr ⟨hpos, Or.inr hlong⟩)
      · rw [← hzero, Int.mul_zero] at hlong
        exact absurd hlong (by decide)
    rw [if_neg hguard]
    by_cases hleft : maxCost - cost < total
    · rw [if_pos hleft]
      exact ⟨nofun, fun hright => absurd hright.2.1 (by omega)⟩
    · rw [if_neg hleft]
      exact ⟨fun heq => ⟨hshort, by omega, heq⟩, fun hright => hright.2.2⟩

theorem costFrom_iff (hvalid : validTiers previous tiers = true) (htotal : 0 ≤ total)
    (hle : total ≤ maxCost) {c : ℤ} :
    Pricing.costFrom rounding count total previous tiers = some c ↔
      coversFrom count previous tiers ∧ ¬longFrom rounding count previous tiers ∧
        total + exactFrom rounding count previous tiers = c ∧ c ≤ maxCost := by
  induction tiers generalizing previous total with
  | nil =>
    unfold Pricing.costFrom coversFrom longFrom exactFrom
    split_ifs with hpast
    · refine ⟨nofun, fun h => ?_⟩
      rcases h.1 with hcount | ⟨tier, hmem, -⟩
      · omega
      · cases hmem
    · simp only [Option.some.injEq]
      refine ⟨fun h => ⟨Or.inl (by omega), id, by omega, by omega⟩, fun h => by omega⟩
  | cons tier tiers ih =>
    obtain ⟨hok, hrest⟩ := validTiers_cons hvalid
    by_cases hpast : count ≤ previous
    · obtain ⟨hexact, hlong⟩ := @exactFrom_past previous count _ rounding hvalid hpast
      rw [hexact]
      unfold Pricing.costFrom
      dsimp only
      rw [if_pos (by omega), if_neg (by omega)]
      simp only [Option.some.injEq]
      exact ⟨fun h => ⟨Or.inl hpast, hlong, by omega, by omega⟩, fun h => by omega⟩
    · have hcost := @exact_nonneg previous _ tier tiers rounding hok (@units_nonneg previous count tier)
      have htail := @exactFrom_nonneg tier.upTo count tiers rounding hrest
      rw [costFrom_cons hok htotal (by omega)]
      unfold longFrom exactFrom
      generalize tier.exact rounding (tier.units previous count) = cost at hcost ⊢
      split_ifs with hopen
      · have hnil := hok.last hopen
        subst hnil
        have hcovers : coversFrom count previous [tier] :=
          Or.inr ⟨tier, List.mem_singleton_self tier, Or.inl hopen⟩
        simp only [Option.some.injEq, longFrom, exactFrom, or_false, Int.add_zero, hcovers, true_and]
        refine ⟨fun h => ⟨h.1, h.2.2, by omega⟩, fun h => ⟨h.1, by omega, h.2.1⟩⟩
      · have hascends := hok.ascends.resolve_left hopen
        have hcovers : coversFrom count previous (tier :: tiers) ↔
            coversFrom count tier.upTo tiers := by
          unfold coversFrom
          simp only [List.mem_cons, exists_eq_or_imp, hopen, false_or]
          exact or_iff_right hpast
        rw [hcovers, not_or]
        by_cases hsum : total + cost ≤ maxCost
        · rw [ih hrest (by omega) hsum]
          refine ⟨fun h => ⟨h.2.2.1, ⟨h.1, h.2.2.2.1⟩, by omega, h.2.2.2.2.2⟩,
            fun h => ⟨h.2.1.1, hsum, h.1, h.2.1.2, by omega, h.2.2.2⟩⟩
        · exact ⟨fun h => absurd h.2.1 hsum, fun h => absurd h.2.2 (by omega)⟩

def answer : Option ℤ → Except CostError ℤ
  | none => .error .refused
  | some cost => .ok cost

theorem int64_bind {β : Type} {x : ℤ} (h : -9223372036854775808 ≤ x ∧ x ≤ 9223372036854775807)
    (f : ℤ → Except CostError β) : (int64 x >>= f) = f x := by
  unfold int64
  rw [checked_ok h]
  rfl

theorem refuse_bind {β : Type} (p : Prop) [Decidable p] (f : Unit → Except CostError β) :
    (refuse p CostError.refused >>= f) = if p then .error .refused else f () := by
  unfold refuse
  split_ifs <;> rfl

theorem batches64_eq (hok : TierOk previous tier tiers) (h : 0 ≤ units)
    (hle : units ≤ 1000000000) :
    batches64 rounding units tier.batchSize = .ok (batches rounding units tier.batchSize) := by
  have hbatch := hok.batch
  have hquotient := Int.ediv_nonneg h (Int.le_of_lt hbatch.1)
  have hself : units / tier.batchSize ≤ units := Int.ediv_le_self _ h
  have hlow := Int.emod_nonneg units (Int.ne_of_gt hbatch.1)
  have hhigh := Int.emod_lt_of_pos units hbatch.1
  unfold batches64 batches
  dsimp only
  rw [Int.tdiv_eq_ediv_of_nonneg h, Int.tmod_eq_emod_of_nonneg h, int64_bind (by omega),
    int64_bind (by omega)]
  split_ifs
  · rw [int64_bind (by omega)]
    rfl
  · rfl

theorem cost64_eq (hok : TierOk previous tier tiers) {whole remainder : ℤ} (hwhole : 0 ≤ whole)
    (hrest : 0 ≤ remainder ∧ remainder < tier.batchSize)
    (hcost : whole * tier.amountMicros ≤ maxCost)
    (hproduct : remainder * tier.amountMicros ≤ maxInt64) :
    tier.cost64 whole remainder = .ok (tier.cost whole remainder) := by
  have hamount := hok.amount
  have hnonneg : 0 ≤ whole * tier.amountMicros := Int.mul_nonneg hwhole hamount.1
  have hpositive : 0 ≤ remainder * tier.amountMicros := Int.mul_nonneg hrest.1 hamount.1
  have hquotient := Int.ediv_nonneg hpositive (Int.le_of_lt hok.batch.1)
  -- a remainder is less than a batch
  have hsmall : remainder * tier.amountMicros / tier.batchSize ≤ tier.amountMicros := by
    refine Int.ediv_le_of_le_mul hok.batch.1 ?_
    rw [Int.mul_comm tier.amountMicros]
    exact Int.mul_le_mul_of_nonneg_right (Int.le_of_lt hrest.2) hamount.1
  unfold maxCost at hcost
  unfold maxInt64 at hproduct
  unfold PriceTier.cost64 PriceTier.cost
  dsimp only
  rw [int64_bind (by omega)]
  by_cases hpos : 0 < remainder
  · rw [if_pos hpos, if_pos hpos, int64_bind (by omega),
      Int.tdiv_eq_ediv_of_nonneg hpositive, Int.tmod_eq_emod_of_nonneg hpositive,
      int64_bind (by omega)]
    split_ifs
    · exact checked_ok ⟨by omega, by omega⟩
    · rfl
  · rw [if_neg hpos, if_neg hpos]
    rfl

theorem share64_eq (hok : TierOk previous tier tiers) (hprevious : 0 ≤ previous)
    (h : previous < count) (hle : previous ≤ 1000000000) :
    tier.share64 previous (count - previous) = .ok (tier.units previous count) := by
  have hup := hok.upTo
  have hfits : int64 (tier.upTo - previous) = .ok (tier.upTo - previous) :=
    checked_ok ⟨by omega, by omega⟩
  unfold PriceTier.share64
  rw [← units_eq hok h, hfits]
  split_ifs <;> rfl

theorem cost_le (hok : TierOk previous tier tiers) (whole : ℤ) {remainder : ℤ}
    (hrest : 0 ≤ remainder ∧ remainder < tier.batchSize) :
    tier.cost whole remainder ≤ whole * tier.amountMicros + tier.amountMicros := by
  have hceil : ceilDiv (remainder * tier.amountMicros) tier.batchSize ≤ tier.amountMicros := by
    rw [MachineInt.ceilDiv_le_iff hok.batch.1, Int.mul_comm tier.amountMicros]
    exact Int.mul_le_mul_of_nonneg_right (Int.le_of_lt hrest.2) hok.amount.1
  rw [cost_eq hok hrest.1]
  omega

theorem add64_eq (hok : TierOk previous tier tiers) (h : 0 ≤ units) (hle : units ≤ 1000000000)
    (htotal : 0 ≤ total ∧ total ≤ maxCost) :
    tier.add64 rounding total units =
      let (whole, remainder) := batches rounding units tier.batchSize
      if 0 < tier.amountMicros ∧ (maxCost.tdiv tier.amountMicros < whole ∨
          maxInt64.tdiv tier.amountMicros < remainder) then .error .refused
      else if maxCost - tier.cost whole remainder < total then .error .refused
      else .ok (total + tier.cost whole remainder) := by
  have hbatched := @batches_spec _ units tier tiers rounding hok h
  have hbatch := hok.batch
  have hamount := hok.amount
  unfold PriceTier.add64
  rw [refuse_bind, if_neg (by omega), batches64_eq hok h hle]
  generalize batches rounding units tier.batchSize = batch at hbatched ⊢
  obtain ⟨whole, remainder⟩ := batch
  have hpart := hbatched.part
  have hcost := hbatched.cost
  have hrest := hbatched.rest
  dsimp only at hpart hcost hrest ⊢
  change (refuse _ CostError.refused >>= fun _ => _) = _
  rw [refuse_bind]
  by_cases hguard : 0 < tier.amountMicros ∧ (maxCost.tdiv tier.amountMicros < whole ∨
      maxInt64.tdiv tier.amountMicros < remainder)
  · rw [if_pos hguard, if_pos hguard]
  · rw [guard_iff] at hguard
    have hproducts : whole * tier.amountMicros ≤ maxCost ∧
        remainder * tier.amountMicros ≤ maxInt64 := by
      rcases Int.lt_or_eq_of_le hamount.1 with hpos | hzero
      · by_contra hlong
        exact hguard ⟨hpos, by omega⟩
      · rw [← hzero, Int.mul_zero, Int.mul_zero]
        decide
    have hbound := cost_le hok whole hrest
    have hnonneg := @exact_nonneg _ units tier tiers rounding hok h
    have hmax : maxCost = 1000000000000000 := rfl
    rw [← hcost] at hnonneg
    rw [if_neg (guard_iff.not.mpr hguard), if_neg (guard_iff.not.mpr hguard),
      cost64_eq hok hbatched.batches.1 hrest hproducts.1 hproducts.2]
    change (int64 (maxCost - tier.cost whole remainder) >>= fun left => _) = _
    rw [int64_bind (by omega), refuse_bind]
    split_ifs
    · rfl
    · change int64 (total + tier.cost whole remainder) = _
      exact checked_ok ⟨by omega, by omega⟩

theorem costFrom64_eq (hvalid : validTiers previous tiers = true)
    (hcount : 0 ≤ count ∧ count ≤ 1000000000) (hprevious : 0 ≤ previous ∧ previous ≤ 1000000000)
    (htotal : 0 ≤ total ∧ total ≤ maxCost) :
    costFrom64 rounding count total previous tiers =
      answer (Pricing.costFrom rounding count total previous tiers) := by
  induction tiers generalizing previous total with
  | nil =>
    unfold costFrom64 Pricing.costFrom
    split_ifs <;> rfl
  | cons tier tiers ih =>
    obtain ⟨hok, hrest⟩ := validTiers_cons hvalid
    have hup := hok.upTo
    rw [costFrom64, Pricing.costFrom, int64_bind (by omega)]
    dsimp only
    by_cases hpast : count - previous ≤ 0
    · rw [if_pos hpast, if_pos hpast]
      split_ifs <;> rfl
    · have hunits : tier.units previous count ≤ 1000000000 := by
        rw [← units_eq hok (by omega)]
        split_ifs <;> omega
      rw [if_neg hpast, if_neg hpast, share64_eq hok hprevious.1 (by omega) hprevious.2,
        units_eq hok (by omega), if_neg (by have := hok.batch.1; omega)]
      change (tier.add64 rounding total _ >>= fun total => _) = _
      rw [add64_eq hok units_nonneg hunits htotal]
      have hbatched := @batches_spec previous _ tier tiers rounding hok
        (@units_nonneg previous count tier)
      have hnonneg := @exact_nonneg previous _ tier tiers rounding hok
        (@units_nonneg previous count tier)
      rw [← hbatched.cost] at hnonneg
      generalize batches rounding (tier.units previous count) tier.batchSize = batch at hnonneg ⊢
      obtain ⟨whole, remainder⟩ := batch
      dsimp only at hnonneg ⊢
      by_cases hguard : 0 < tier.amountMicros ∧ (maxCost.tdiv tier.amountMicros < whole ∨
          maxInt64.tdiv tier.amountMicros < remainder)
      · rw [if_pos hguard, if_pos hguard]
        rfl
      · rw [if_neg hguard, if_neg hguard]
        by_cases hleft : maxCost - tier.cost whole remainder < total
        · rw [if_pos hleft, if_pos hleft]
          rfl
        · rw [if_neg hleft, if_neg hleft]
          change (if tier.upTo = 0 then _ else _) = _
          split_ifs with hopen
          · rfl
          · exact ih hrest hup ⟨by omega, by omega⟩

/-- The price of a count is the exact one wherever there is one within the bound, no operation
overflows, and no smaller count costs more. -/
structure PricedExactly (p : Pricing) (count : ℤ) : Prop where
  exact : ∀ cost, p.cost count = some cost ↔
    p.Covers count ∧ p.exact count ≤ maxCost ∧ cost = p.exact count
  fits : p.cost64 count = answer (p.cost count)
  mono : ∀ less cost cost', 0 ≤ less → less ≤ count → p.cost less = some cost →
    p.cost count = some cost' → cost ≤ cost'

variable {p : Pricing}

theorem cost_iff (hvalid : p.validate = true) (hcount : 0 ≤ count ∧ count ≤ 1000000000) {cost : ℤ} :
    p.cost count = some cost ↔ p.Covers count ∧ ¬p.LongRemainder count ∧
      cost = p.exact count ∧ p.exact count ≤ maxCost := by
  have htiers : validTiers 0 p.tiers = true := by
    unfold Pricing.validate at hvalid
    rw [Bool.and_eq_true] at hvalid
    exact hvalid.2
  have hcovers : coversFrom count 0 p.tiers ↔ p.Covers count := by
    unfold coversFrom Pricing.Covers
    refine or_congr_left ?_
    omega
  unfold Pricing.cost
  rw [if_neg (by omega), costFrom_iff htiers le_rfl (by decide), hcovers, Int.zero_add]
  change _ ∧ _ ∧ p.exact count = cost ∧ _ ↔ _
  refine and_congr_right fun _ => and_congr_right fun _ => ⟨?_, ?_⟩
  · rintro ⟨rfl, hle⟩
    exact ⟨rfl, hle⟩
  · rintro ⟨rfl, hle⟩
    exact ⟨rfl, hle⟩

/-- The guard of the remainder refuses a price within the bound, and nothing else goes wrong. -/
theorem priced_exactly_iff (hvalid : p.validate = true)
    (hcount : 0 ≤ count ∧ count ≤ 1000000000) :
    PricedExactly p count ↔
      (p.LongRemainder count → p.Covers count → maxCost < p.exact count) := by
  have htiers : validTiers 0 p.tiers = true := by
    unfold Pricing.validate at hvalid
    rw [Bool.and_eq_true] at hvalid
    exact hvalid.2
  have hiff : ∀ cost, p.cost count = some cost ↔ p.Covers count ∧ ¬p.LongRemainder count ∧
      cost = p.exact count ∧ p.exact count ≤ maxCost := fun cost => cost_iff hvalid hcount
  constructor
  · intro h hlong hcovers
    by_contra hle
    have hprice := (h.exact (p.exact count)).mpr ⟨hcovers, Int.not_lt.mp hle, rfl⟩
    exact ((hiff _).mp hprice).2.1 hlong
  · intro h
    refine ⟨fun cost => ?_, ?_, ?_⟩
    · rw [hiff]
      refine ⟨fun hprice => ⟨hprice.1, hprice.2.2.2, hprice.2.2.1⟩, fun hprice => ?_⟩
      exact ⟨hprice.1, fun hlong => absurd (h hlong hprice.1) (Int.not_lt.mpr hprice.2.1),
        hprice.2.2, hprice.2.1⟩
    · unfold Pricing.cost64 Pricing.cost
      rw [if_neg (by omega), if_neg (by omega)]
      exact costFrom64_eq htiers hcount ⟨le_rfl, by decide⟩ ⟨le_rfl, by decide⟩
    · intro less cost cost' hless hle hcost hcost'
      rw [((hiff _).mp hcost').2.2.1,
        ((cost_iff hvalid ⟨hless, hle.trans hcount.2⟩).mp hcost).2.2.1]
      exact exactFrom_mono htiers hle

def openPricing (amountMicros batchSize : ℤ) : Pricing where
  currency := "USD".toList
  rounding := .proportional
  tiers := [⟨0, amountMicros, batchSize⟩]

theorem openPricing_exactly : PricedExactly (openPricing 1000000 1000) 1500 ↔
    ((openPricing 1000000 1000).LongRemainder 1500 → (openPricing 1000000 1000).Covers 1500 →
      maxCost < (openPricing 1000000 1000).exact 1500) :=
  priced_exactly_iff (by decide +kernel) (by decide +kernel)

/-- 9223373 messages at a million for each thousand million of them cost 9223.373. -/
theorem openPricing_refuses : (openPricing 1000000000000 1000000000).validate = true ∧
    (openPricing 1000000000000 1000000000).exact 9223373 = 9223373000 ∧
    ¬PricedExactly (openPricing 1000000000000 1000000000) 9223373 := by
  have hexact : (openPricing 1000000000000 1000000000).exact 9223373 = 9223373000 := by decide +kernel
  refine ⟨by decide +kernel, hexact, fun h => ?_⟩
  have hcovers : (openPricing 1000000000000 1000000000).Covers 9223373 :=
    Or.inr ⟨_, List.mem_singleton_self _, Or.inl rfl⟩
  have hprice := (h.exact 9223373000).mpr ⟨hcovers, by rw [hexact]; decide +kernel, hexact.symm⟩
  revert hprice
  decide +kernel

end RenoP.Mail
