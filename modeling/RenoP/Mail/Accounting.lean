import RenoP.Lib.Fallible
import RenoP.Database.PublicationQuota

/-!
# Mail accounting

The credits of a sending identity, `internal/mail/accounting.go` and `internal/mail/config.go`,
over unbounded integers. Clocks are in milliseconds, as `UnixMilli` reads them.
-/

namespace RenoP.Mail

open RenoP.Database (Text)
open Fallible (refuse)

structure Library where
  hashHex : Text → Text
  equalFold : Text → Text → Bool

inductive Period where
  | hour
  | day
  | week
  | month
  deriving DecidableEq

structure Rate where
  limit : ℤ
  interval : ℤ
  deriving DecidableEq

structure Quota where
  limit : ℤ
  period : Period
  deriving DecidableEq

structure PriceTier where
  upTo : ℤ
  amountMicros : ℤ
  batchSize : ℤ
  deriving DecidableEq

inductive Rounding where
  | proportional
  | batch
  deriving DecidableEq

structure Pricing where
  currency : Text
  rounding : Rounding
  tiers : List PriceTier
  deriving DecidableEq

structure Account where
  provider : Text
  endpoint : Text
  region : Text
  accountId : Text
  apiKey : Text
  apiSecret : Text
  quota : Quota
  forceSend : Bool
  overage : Quota
  pricing : Pricing
  balanceMicros : Option ℤ
  fetchBalance : Bool
  billingEndpoint : Text
  deriving DecidableEq

def hourMs : ℤ := 3600000
def dayMs : ℤ := 24 * hourMs

/-- The start of the calendar bucket, the first value of `Window`. -/
def windowStart (period : Period) (now : ℤ) : ℤ :=
  let today := now / dayMs
  match period with
  | .hour => now / hourMs * hourMs
  | .day => today * dayMs
  | .week => (today - CivilDate.weekdayFromMonday today) * dayMs
  | .month => CivilDate.days (CivilDate.year today) (CivilDate.month today) 1 * dayMs

def maxCost : ℤ := 1000000000000000
def maxInt64 : ℤ := 9223372036854775807

def batches (rounding : Rounding) (units batchSize : ℤ) : ℤ × ℤ :=
  let whole := units.tdiv batchSize
  let remainder := units.tmod batchSize
  if rounding = .batch ∧ 0 < remainder then (whole + 1, 0) else (whole, remainder)

def PriceTier.cost (tier : PriceTier) (whole remainder : ℤ) : ℤ :=
  let cost := whole * tier.amountMicros
  if 0 < remainder then
    let product := remainder * tier.amountMicros
    let cost := cost + product.tdiv tier.batchSize
    if 0 < product.tmod tier.batchSize then cost + 1 else cost
  else cost

def Pricing.costFrom (rounding : Rounding) (count : ℤ) : ℤ → ℤ → List PriceTier → Option ℤ
  | total, previous, [] => if previous < count then none else some total
  | total, previous, tier :: tiers =>
    let units := count - previous
    if units ≤ 0 then
      if previous < count then none else some total
    else
      let units := if 0 < tier.upTo then min units (tier.upTo - previous) else units
      if tier.batchSize ≤ 0 then none
      else
        let (whole, remainder) := batches rounding units tier.batchSize
        if 0 < tier.amountMicros ∧ (maxCost.tdiv tier.amountMicros < whole ∨
            maxInt64.tdiv tier.amountMicros < remainder) then none
        else
          let cost := tier.cost whole remainder
          if maxCost - cost < total then none
          else if tier.upTo = 0 then some (total + cost)
          else Pricing.costFrom rounding count (total + cost) tier.upTo tiers

def Pricing.cost (p : Pricing) (count : ℤ) : Option ℤ :=
  if count < 0 ∨ 1000000000 < count then none
  else Pricing.costFrom p.rounding count 0 0 p.tiers

structure Budget where
  remaining : Option ℤ
  hardRemaining : Option ℤ
  balanceMicros : Option ℤ
  currency : Text
  disabled : Option Bool
  resetAt : ℤ
  deriving DecidableEq

def Budget.empty : Budget := ⟨none, none, none, [], none, 0⟩

structure Counter where
  start : ℤ
  used : ℤ
  deriving DecidableEq

/-- A `map[string]Counter`, whose keys are periods. -/
abbrev Counters := Period → Option Counter

def Counters.read (m : Counters) (period : Period) : Counter := (m period).getD ⟨0, 0⟩

structure AccountState where
  configuration : Text
  currency : Text
  usage : Counters
  overage : Counters
  rate : Counter
  budget : Budget
  manualBalance : Option ℤ
  balanceMicros : Option ℤ
  calibrationAt : ℤ
  calibrationError : Text
  attempts : ℤ
  charged : ℤ
  spentMicros : ℤ

def AccountState.empty : AccountState where
  configuration := []
  currency := []
  usage := fun _ => none
  overage := fun _ => none
  rate := ⟨0, 0⟩
  budget := .empty
  manualBalance := none
  balanceMicros := none
  calibrationAt := 0
  calibrationError := []
  attempts := 0
  charged := 0
  spentMicros := 0

structure Reservation where
  periods : Period → Option ℤ
  costMicros : ℤ
  paid : Bool
  remote : Bool
  hard : Bool
  calibrationAt : ℤ
  manualBalance : Option ℤ
  currency : Text

def fingerprint (lib : Library) (a : Account) : Text :=
  let fields := [a.provider, a.endpoint, a.region, a.accountId, a.apiKey, a.apiSecret,
    a.billingEndpoint, a.pricing.currency]
  lib.hashHex (List.intercalate [Char.ofNat 0] fields)

def AccountState.configure (s : AccountState) (a : Account) (fingerprint : Text) : AccountState :=
  if s.configuration ≠ [] ∧ s.configuration ≠ fingerprint then
    { s with
      configuration := fingerprint
      budget := .empty
      balanceMicros := a.balanceMicros
      calibrationAt := 0
      calibrationError := [] }
  else { s with configuration := fingerprint }

def AccountState.convert (s : AccountState) (currency : Text) : AccountState :=
  if s.currency ≠ currency then { s with currency := currency, spentMicros := 0 } else s

def Counters.roll (m : Counters) (now : ℤ) : Counters := fun period =>
  if (m.read period).start ≠ windowStart period now then some ⟨windowStart period now, 0⟩
  else m period

def AccountState.rollRate (s : AccountState) (rate : Rate) (now : ℤ) : AccountState :=
  if 0 < rate.interval then
    let start := now.tdiv rate.interval * rate.interval
    if s.rate.start ≠ start then { s with rate := ⟨start, 0⟩ } else s
  else s

def AccountState.editBalance (s : AccountState) (a : Account) : AccountState :=
  if s.manualBalance ≠ a.balanceMicros then
    { s with
      manualBalance := a.balanceMicros
      balanceMicros :=
        if a.balanceMicros = none ∧ a.fetchBalance = true then s.budget.balanceMicros
        else a.balanceMicros }
  else s

def AccountState.dropBalance (s : AccountState) (a : Account) : AccountState :=
  if a.balanceMicros = none ∧ a.fetchBalance = false then { s with balanceMicros := none } else s

def AccountState.rollCounters (s : AccountState) (now : ℤ) : AccountState :=
  { s with usage := s.usage.roll now, overage := s.overage.roll now }

def AccountState.normalize (lib : Library) (a : Account) (rate : Rate) (now : ℤ)
    (s : AccountState) : AccountState :=
  let s := s.configure a (fingerprint lib a)
  let s := s.convert a.pricing.currency
  let s := s.rollCounters now
  let s := s.rollRate rate now
  let s := s.editBalance a
  s.dropBalance a

def AccountState.calibrate (lib : Library) (a : Account) (b : Budget) (now : ℤ)
    (s : AccountState) : AccountState :=
  let balance := b.balanceMicros.isSome && lib.equalFold b.currency a.pricing.currency
  { s with
    budget := {
      remaining := b.remaining.or s.budget.remaining
      hardRemaining := b.hardRemaining.or s.budget.hardRemaining
      balanceMicros := if balance then b.balanceMicros else s.budget.balanceMicros
      currency := if balance then b.currency else s.budget.currency
      disabled := b.disabled.or s.budget.disabled
      resetAt := if 0 < b.resetAt then b.resetAt else s.budget.resetAt }
    balanceMicros := if balance then b.balanceMicros else s.balanceMicros
    calibrationAt := now }

inductive Refusal where
  | accountDisabled
  | balanceExhausted
  | accountRateLimited
  | providerQuotaExhausted
  | quotaExhausted
  | overageExhausted
  | pricingInvalid
  deriving DecidableEq

def Refusal.reason : Refusal → String
  | .accountDisabled => "mail_account_disabled"
  | .balanceExhausted => "mail_balance_exhausted"
  | .accountRateLimited => "mail_account_rate_limited"
  | .providerQuotaExhausted => "mail_provider_quota_exhausted"
  | .quotaExhausted => "mail_quota_exhausted"
  | .overageExhausted => "mail_overage_exhausted"
  | .pricingInvalid => "mail_pricing_invalid"

def AccountState.exhausted (s : AccountState) (a : Account) : Bool :=
  decide (0 < a.quota.limit ∧ a.quota.limit ≤ (s.usage.read a.quota.period).used) ||
    decide (a.quota.limit = 0) && s.budget.remaining.any (· ≤ 0)

def AccountState.overageCost (s : AccountState) (a : Account) : Except Refusal ℤ := do
  refuse (a.forceSend = false) .quotaExhausted
  let used := (s.overage.read a.overage.period).used
  refuse (0 ≤ a.overage.limit ∧ a.overage.limit ≤ used) .overageExhausted
  match a.pricing.cost used, a.pricing.cost (used + 1) with
  | some before, some after => do
    let cost := after - before
    refuse (cost < 0 ∨ s.balanceMicros.any (· < cost) = true) .balanceExhausted
    return cost
  | _, _ => .error .pricingInvalid

/-- The checks of `Reserve`, with the cost of what they let pass. -/
def AccountState.price (s : AccountState) (a : Account) (rate : Rate) : Except Refusal ℤ := do
  refuse (s.budget.disabled = some true) .accountDisabled
  refuse (s.balanceMicros.any (· ≤ 0) = true) .balanceExhausted
  refuse (rate.limit ≤ s.rate.used) .accountRateLimited
  refuse (s.budget.hardRemaining.any (· ≤ 0) = true) .providerQuotaExhausted
  if s.exhausted a then s.overageCost a else return 0

def Counter.add (c : Counter) (n : ℤ) : Counter := { c with used := c.used + n }

def takeCredit (left : Option ℤ) : Option ℤ := left.map fun n => if 0 < n then n - 1 else n

def AccountState.reservation (s : AccountState) (a : Account) (cost : ℤ) : Reservation where
  periods := fun period => (s.usage period).map (·.start)
  costMicros := cost
  paid := s.exhausted a
  remote := s.budget.remaining.any (0 < ·)
  hard := s.budget.hardRemaining.any (0 < ·)
  calibrationAt := s.calibrationAt
  manualBalance := s.manualBalance
  currency := s.currency

/-- The debit of one attempt. The loop ranges over the periods of `Usage`. -/
def AccountState.debit (s : AccountState) (r : Reservation) : AccountState :=
  { s with
    usage := fun period => (s.usage period).map (·.add 1)
    overage := fun period =>
      if r.paid = true ∧ (s.usage period).isSome = true then some ((s.overage.read period).add 1)
      else s.overage period
    rate := s.rate.add 1
    attempts := s.attempts + 1
    charged := s.charged + 1
    spentMicros := s.spentMicros + r.costMicros
    balanceMicros := s.balanceMicros.map (· - r.costMicros)
    budget := { s.budget with
      remaining := takeCredit s.budget.remaining
      hardRemaining := takeCredit s.budget.hardRemaining } }

def AccountState.reserve (lib : Library) (a : Account) (rate : Rate) (now : ℤ)
    (s : AccountState) : AccountState × Except Refusal Reservation :=
  let s := s.normalize lib a rate now
  match s.price a rate with
  | .error refusal => (s, .error refusal)
  | .ok cost =>
    let r := s.reservation a cost
    (s.debit r, .ok r)

def Counters.giveBack (m : Counters) (periods : Period → Option ℤ) : Counters := fun period =>
  match periods period with
  | none => m period
  | some start =>
    let count := m.read period
    if count.start = start ∧ 0 < count.used then some (count.add (-1)) else m period

def giveCredit (taken current : Bool) (left : Option ℤ) : Option ℤ :=
  if taken = true ∧ current = true then left.map (· + 1) else left

def AccountState.refund (s : AccountState) (r : Reservation) : AccountState :=
  let current := decide (s.calibrationAt = r.calibrationAt)
  { s with
    usage := s.usage.giveBack r.periods
    overage := if r.paid then s.overage.giveBack r.periods else s.overage
    charged := if 0 < s.charged then s.charged - 1 else s.charged
    spentMicros :=
      if s.currency = r.currency then s.spentMicros - r.costMicros else s.spentMicros
    balanceMicros :=
      if s.currency = r.currency ∧ s.manualBalance = r.manualBalance ∧
          (s.manualBalance.isSome = true ∨ current = true) then
        s.balanceMicros.map (· + r.costMicros)
      else s.balanceMicros
    budget := { s.budget with
      remaining := giveCredit r.remote current s.budget.remaining
      hardRemaining := giveCredit r.hard current s.budget.hardRemaining } }

end RenoP.Mail
