import RenoP.Mail.Windows
import RenoP.Mail.Credits

/-!
# Runs of the mail accounting

What any sequence of calls accounts, while the calls are such as the state accounts exactly.
-/

namespace RenoP.Mail

open RenoP.Database (Text)
open Fallible (refuse refuse_bind_ok bind_ok)

variable {lib : Library} {a : Account} {rate : Rate} {s : AccountState} {h : History} {now : ℤ}

structure Priced (s : AccountState) (a : Account) (cost : ℤ) : Prop where
  balance : ∀ b, s.balanceMicros = some b → cost ≤ b
  hard : ∀ n, s.budget.hardRemaining = some n → 0 < n
  quota : s.exhausted a = false → 0 < a.quota.limit →
    (s.usage.read a.quota.period).used < a.quota.limit
  overage : s.exhausted a = true → 0 ≤ a.overage.limit →
    (s.overage.read a.overage.period).used < a.overage.limit

theorem overageCost_ok {cost : ℤ} (h : s.overageCost a = .ok cost) :
    (0 ≤ a.overage.limit → (s.overage.read a.overage.period).used < a.overage.limit) ∧
      ∀ b, s.balanceMicros = some b → cost ≤ b := by
  unfold AccountState.overageCost at h
  obtain ⟨-, h⟩ := refuse_bind_ok h
  dsimp only at h
  obtain ⟨hlimit, h⟩ := refuse_bind_ok h
  refine ⟨fun hpos => Int.not_le.mp fun hle => hlimit ⟨hpos, hle⟩, ?_⟩
  intro b hb
  split at h
  · obtain ⟨hcost, hreturn⟩ := refuse_bind_ok h
    cases hreturn
    rw [hb, Option.any_some, decide_eq_true_eq] at hcost
    omega
  · cases h

theorem price_ok {cost : ℤ} (h : s.price a rate = .ok cost) : Priced s a cost := by
  unfold AccountState.price at h
  obtain ⟨-, h⟩ := refuse_bind_ok h
  obtain ⟨hbalance, h⟩ := refuse_bind_ok h
  obtain ⟨-, h⟩ := refuse_bind_ok h
  obtain ⟨hhard, h⟩ := refuse_bind_ok h
  have hleft : ∀ n, s.budget.hardRemaining = some n → 0 < n := by
    intro n hn
    rw [hn, Option.any_some, decide_eq_true_eq] at hhard
    omega
  cases hexhausted : s.exhausted a with
  | true =>
    rw [hexhausted, if_pos rfl] at h
    obtain ⟨hover, hcost⟩ := overageCost_ok h
    exact ⟨hcost, hleft, (fun hno => absurd (hexhausted.symm.trans hno) (by decide)),
      fun _ => hover⟩
  | false =>
    rw [hexhausted, if_neg Bool.false_ne_true] at h
    cases h
    constructor
    · intro b hb
      rw [hb, Option.any_some, decide_eq_true_eq] at hbalance
      omega
    · exact hleft
    · intro _ hpos
      unfold AccountState.exhausted at hexhausted
      rw [Bool.or_eq_false_iff, decide_eq_false_iff_not] at hexhausted
      exact Int.not_le.mp fun hle => hexhausted.1 ⟨hpos, hle⟩
    · intro hyes
      exact absurd (hexhausted.symm.trans hyes) (by decide)

def paid (r : Reservation) : Bool := r.paid

def unpaid (r : Reservation) : Bool := !r.paid

structure Kept (lib : Library) (a : Account) (h : History) : Prop where
  configured : Configured lib a h.account
  clock : ∀ t, h.normalizedAt = some t → t ≤ h.clock
  started : Started h.outstanding h.normalizedAt
  periods : ∀ id g, h.outstanding.load id = some g →
    ∀ period, g.reservation.periods period = some (windowStart period g.time)
  usage : Counts h.outstanding h.normalizedAt (fun _ => true) h.account.usage
  overage : Counts h.outstanding h.normalizedAt paid h.account.overage
  quota : 0 < a.quota.limit → Limited h.outstanding a.quota.period unpaid a.quota.limit
  overageLimit : 0 ≤ a.overage.limit →
    Limited h.outstanding a.overage.period paid a.overage.limit
  balance : h.overdrawn = false
  remaining : Dated h.outstanding h.granted h.calibrations h.account.calibrationAt
    h.account.budget.remaining h.remainingSet (·.remote)
  remainingLeft : CreditLeft h.outstanding h.account.budget.remaining h.remainingSet
  hard : Dated h.outstanding h.granted h.calibrations h.account.calibrationAt
    h.account.budget.hardRemaining h.hardSet (·.hard)
  hardLeft : CreditLeft h.outstanding h.account.budget.hardRemaining h.hardSet
  covered : Covered h.outstanding h.hardSet (·.hard)

theorem Kept.accounted (hk : Kept lib a h) : Accounted a h := by
  constructor
  · intro now hnow period
    rw [hk.usage.read now hnow]
    unfold countIn History.counted
    simp only [Bool.and_true]
  · exact hk.overage.read
  · exact hk.quota
  · exact hk.overageLimit
  · exact hk.balance
  · exact fun set hset => (hk.remainingLeft set hset).2
  · exact fun set hset => (hk.hardLeft set hset).2

theorem kept_start (clock : ℤ) : Kept lib a (History.start clock) := by
  have hnone : ∀ {P : Prop} {id g}, (∅ : GoMap ℕ Grant).load id = some g → P := by
    intro P id g hg
    cases (GoMap.load_empty id).symm.trans hg
  have hcounts : ∀ q, Counts ∅ none q fun _ => none :=
    fun q => ⟨fun _ _ => rfl, fun _ hnow => by cases hnow⟩
  have hcount : ∀ p, ((GoMap.count p (∅ : GoMap ℕ Grant) : ℕ) : ℤ) = 0 := fun _ => rfl
  have hdated : ∀ taken, Dated ∅ 0 [] 0 none none taken := by
    intro taken
    constructor
    · exact fun id g hg => hnone hg
    · exact fun x hx => by cases hx
    · exact fun _ => rfl
    · exact fun n hn => by cases hn
    · exact fun id g hg => hnone hg
    · exact fun x hx => by cases hx
  constructor
  · exact ⟨Or.inl rfl, Or.inl rfl⟩
  · exact fun t ht => by cases ht
  · exact fun id g hg => hnone hg
  · exact fun id g hg => hnone hg
  · exact hcounts _
  · exact hcounts _
  · intro hpos t
    show ((GoMap.count _ ∅ : ℕ) : ℤ) ≤ _
    rw [hcount]
    omega
  · intro hpos t
    show ((GoMap.count _ ∅ : ℕ) : ℤ) ≤ _
    rw [hcount]
    exact hpos
  · rfl
  · exact hdated _
  · exact fun x hx => by cases hx
  · exact hdated _
  · exact fun x hx => by cases hx
  · exact fun x hx => by cases hx

theorem Kept.normalize (hk : Kept lib a h) (hnow : h.clock ≤ now) :
    Kept lib a (h.normalize lib a rate now) := by
  obtain ⟨spent, counter, balance, haccount, -⟩ := normalize_eq hk.configured rate now
  have hlater : ∀ t, h.normalizedAt = some t → t ≤ now :=
    fun t ht => Int.le_trans (hk.clock t ht) hnow
  unfold History.normalize
  rw [haccount]
  constructor
  · exact ⟨Or.inr rfl, Or.inr rfl⟩
  · intro t ht
    cases ht
    exact Int.le_refl now
  · intro id g hg
    obtain ⟨t, ht, htime⟩ := hk.started id g hg
    exact ⟨now, rfl, Int.le_trans htime (hlater t ht)⟩
  · exact hk.periods
  · exact hk.usage.roll hk.started hlater
  · exact hk.overage.roll hk.started hlater
  · exact hk.quota
  · exact hk.overageLimit
  · exact hk.balance
  · exact hk.remaining
  · exact hk.remainingLeft
  · exact hk.hard
  · exact hk.hardLeft
  · exact hk.covered

theorem Kept.grant {cost : ℤ} (hk : Kept lib a h) (hnow : h.normalizedAt = some now)
    (hsome : ∀ period, ∃ c, h.account.usage period = some c) (hprice : Priced h.account a cost) :
    Kept lib a (h.grant now (h.account.reservation a cost)) := by
  have hfresh := fresh_none hk.remaining.fresh
  have husage := hk.usage
  have hover := hk.overage
  rw [hnow] at husage hover
  have hall := hk.usage.read now hnow a.quota.period
  have hpaid := hk.overage.read now hnow a.overage.period
  unfold History.grant
  constructor
  · exact hk.configured
  · exact hk.clock
  · intro id g hg
    rcases (GoMap.moves_store _ _ _).cases hg with ⟨-, hnew⟩ | ⟨-, hold⟩
    · cases hnew
      exact ⟨now, hnow, Int.le_refl now⟩
    · exact hk.started id g hold
  · intro id g hg period
    rcases (GoMap.moves_store _ _ _).cases hg with ⟨-, hnew⟩ | ⟨-, hold⟩
    · cases hnew
      obtain ⟨c, hc⟩ := hsome period
      have hread := husage.read now rfl period
      unfold Counters.read at hread
      rw [hc, Option.getD_some] at hread
      show (h.account.usage period).map (·.start) = _
      rw [hc, Option.map_some, hread]
    · exact hk.periods id g hold period
  · show Counts _ h.normalizedAt _ _
    rw [hnow]
    apply husage.grant hfresh
    intro period
    obtain ⟨c, hc⟩ := hsome period
    rw [if_pos rfl]
    unfold Counters.read AccountState.debit
    dsimp only
    rw [hc]
    rfl
  · show Counts _ h.normalizedAt _ _
    rw [hnow]
    apply hover.grant hfresh
    intro period
    obtain ⟨c, hc⟩ := hsome period
    unfold Counters.read AccountState.debit paid
    dsimp only
    rw [hc]
    cases (h.account.reservation a cost).paid <;> rfl
  · intro hpos
    apply (hk.quota hpos).grant hfresh
    intro hunpaid
    have hfree : h.account.exhausted a = false := by
      unfold unpaid AccountState.reservation at hunpaid
      rw [Bool.not_eq_true'] at hunpaid
      exact hunpaid
    have hroom := hprice.quota hfree hpos
    have hle := countIn_le_all h.outstanding a.quota.period now unpaid
    rw [hall] at hroom
    exact Int.lt_of_le_of_lt hle hroom
  · intro hpos
    apply (hk.overageLimit hpos).grant hfresh
    intro hispaid
    have hroom := hprice.overage hispaid hpos
    rw [hpaid] at hroom
    exact hroom
  · exact hk.balance
  · exact hk.remaining.grant rfl rfl
  · exact hk.remainingLeft.grant hk.remaining
  · exact hk.hard.grant rfl rfl
  · exact hk.hardLeft.grant hk.hard
  · exact hk.covered.grant hk.hardLeft hk.hard rfl hprice.hard

theorem normalize_balance (hconf : Configured lib a s)
    (hedit : s.manualBalance = a.balanceMicros ∨ ∀ b ∈ a.balanceMicros, 0 ≤ b) :
    overdraws s.balanceMicros (s.normalize lib a rate now).balanceMicros = false := by
  obtain ⟨spent, counter, balance, haccount, hcases⟩ := normalize_eq hconf rate now
  rw [haccount]
  show (s.balanceMicros.any (0 ≤ ·) && balance.any (· < 0)) = false
  rcases hcases with hnone | hsame | ⟨hne, hconfigured⟩
  · rw [hnone, Option.any_none, Bool.and_false]
  · rw [hsame]
    cases s.balanceMicros with
    | none => rfl
    | some b =>
      rw [Option.any_some, Option.any_some, ← Bool.decide_and, decide_eq_false_iff_not]
      omega
  · rw [hconfigured]
    cases hb : a.balanceMicros with
    | none => rw [Option.any_none, Bool.and_false]
    | some b =>
      have hpos := hedit.resolve_left hne b hb
      rw [Option.any_some, decide_eq_false (Int.not_lt.mpr hpos), Bool.and_false]

theorem debit_balance {cost : ℤ} (hprice : Priced s a cost) (before : Option ℤ) :
    overdraws before (s.debit (s.reservation a cost)).balanceMicros = false := by
  show (before.any (0 ≤ ·) && (s.balanceMicros.map (· - cost)).any (· < 0)) = false
  cases hb : s.balanceMicros with
  | none => exact Bool.and_false _
  | some b =>
    have hle := hprice.balance b hb
    have hpos : ¬b - cost < 0 := by omega
    rw [Option.map_some, Option.any_some, decide_eq_false hpos, Bool.and_false]

theorem Kept.reserve (hk : Kept lib a h) (hnow : h.clock ≤ now)
    (hexact : Exact a h (.reserve now)) : Kept lib a (h.reserve lib a rate now) := by
  have hnormal : Kept lib a (h.normalize lib a rate now) := hk.normalize hnow
  have hsome : ∀ period, ∃ c, (h.normalize lib a rate now).account.usage period = some c := by
    intro period
    obtain ⟨spent, counter, balance, haccount, -⟩ := normalize_eq hk.configured rate now
    obtain ⟨c, hc⟩ := roll_isSome (hexact.1 period)
    refine ⟨c, ?_⟩
    show (h.account.normalize lib a rate now).usage period = some c
    rw [haccount]
    exact hc
  unfold History.reserve AccountState.reserve
  dsimp only
  cases hprice : (h.account.normalize lib a rate now).price a rate with
  | error refusal =>
    have hbalance := @normalize_balance lib a rate h.account now hk.configured hexact.2
    refine { hnormal with balance := ?_ }
    show (h.overdrawn || overdraws h.account.balanceMicros
      (h.account.normalize lib a rate now).balanceMicros) = false
    rw [hk.balance, hbalance]
    rfl
  | ok cost =>
    have hpriced := price_ok hprice
    refine { hnormal.grant rfl hsome hpriced with balance := ?_ }
    show (h.overdrawn || overdraws h.account.balanceMicros _) = false
    rw [hk.balance]
    exact debit_balance hpriced h.account.balanceMicros

theorem Kept.refund {id : ℕ} (hk : Kept lib a h) (hexact : Exact a h (.refund id)) :
    Kept lib a (h.refund id) := by
  unfold History.refund
  cases hg : h.outstanding.load id with
  | none => exact hk
  | some g =>
    obtain ⟨hremaining, hhard⟩ := hexact g hg
    have hsub : ∀ id' g', (h.outstanding.delete id).load id' = some g' →
        h.outstanding.load id' = some g' := by
      intro id' g' hg'
      rcases (GoMap.moves_delete h.outstanding id).cases hg' with ⟨-, hnone⟩ | ⟨-, hold⟩
      · cases hnone
      · exact hold
    have hperiods := hk.periods id g hg
    constructor
    · exact hk.configured
    · exact hk.clock
    · exact fun id' g' hg' => hk.started id' g' (hsub id' g' hg')
    · exact fun id' g' hg' => hk.periods id' g' (hsub id' g' hg')
    · exact hk.usage.refund hg hperiods
    · exact hk.overage.refund hg hperiods
    · exact fun hpos => (hk.quota hpos).refund hg
    · exact fun hpos => (hk.overageLimit hpos).refund hg
    · exact hk.balance
    · exact hk.remaining.refund _ _
    · exact hk.remainingLeft.refund hk.remaining hg hremaining
    · exact hk.hard.refund _ _
    · apply hk.hardLeft.refund hk.hard hg
      intro x hx hid
      have hcovered := hk.covered x hx
      constructor
      · exact fun _ => hcovered.1
      · exact fun _ => ⟨hcovered.2 id g hg hid, hhard x hx hid⟩
    · exact hk.covered.refund hg

theorem Kept.calibrate {b : Budget} (hk : Kept lib a h)
    (htimely : Timely h (.calibrate b now)) (hexact : Exact a h (.calibrate b now)) :
    Kept lib a (h.calibrate lib a b now) := by
  constructor
  · exact hk.configured
  · intro t ht
    exact Int.le_trans (hk.clock t ht) htimely.1
  · exact hk.started
  · exact hk.periods
  · exact hk.usage
  · exact hk.overage
  · exact hk.quota
  · exact hk.overageLimit
  · exact hk.balance
  · exact hk.remaining.calibrate b.remaining htimely.2
  · exact hk.remainingLeft.calibrate hk.remaining.fresh hexact.1
  · exact hk.hard.calibrate b.hardRemaining htimely.2
  · exact hk.hardLeft.calibrate hk.hard.fresh hexact.2
  · exact hk.covered.calibrate hk.hard.fresh hexact.2

theorem Kept.next (hk : Kept lib a h) (call : Call) (htimely : Timely h call)
    (hexact : Exact a h call) : Kept lib a (h.next lib a rate call) := by
  cases call with
  | normalize now => exact hk.normalize htimely
  | reserve now => exact hk.reserve htimely hexact
  | refund id => exact hk.refund hexact
  | calibrate b now => exact hk.calibrate htimely hexact

def providerCredits (remaining : Option ℤ) : Budget := { Budget.empty with remaining := remaining }

def creditAccount : Account where
  provider := "ses".toList
  endpoint := []
  region := []
  accountId := []
  apiKey := []
  apiSecret := []
  quota := ⟨0, .month⟩
  forceSend := false
  overage := ⟨0, .month⟩
  pricing := ⟨"USD".toList, .proportional, []⟩
  balanceMicros := none
  fetchBalance := false
  billingEndpoint := []

def plainLibrary : Library := ⟨id, fun s t => s == t⟩

def midday : ℤ := 1767268800000

def failedLookup : List Call :=
  [.calibrate (providerCredits (some 10)) midday, .reserve (midday + 1),
    .calibrate (providerCredits none) (midday + 2), .refund 0]

def refundedFirst : List Call :=
  [.calibrate (providerCredits (some 10)) midday, .reserve (midday + 1), .refund 0,
    .calibrate (providerCredits none) (midday + 2)]

end RenoP.Mail
