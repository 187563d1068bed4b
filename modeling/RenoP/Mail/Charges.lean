import RenoP.Mail.AccountingRuns
import RenoP.Mail.Pricing

/-!
# Charges of an overage window

What an account spends in one window of its overage against the price of the reservations that it
has not taken back.
-/

namespace RenoP.Mail

open RenoP.Database (Text)
open Fallible (refuse refuse_bind_ok bind_ok)

variable {lib : Library} {a : Account} {rate : Rate} {s : AccountState} {h : History} {now : ℤ}

theorem normalize_counters (s : AccountState) (rate : Rate) (now : ℤ) :
    (s.normalize lib a rate now).usage = s.usage.roll now ∧
      (s.normalize lib a rate now).overage = s.overage.roll now ∧
      (s.normalize lib a rate now).currency = a.pricing.currency ∧
      (s.currency = a.pricing.currency →
        (s.normalize lib a rate now).spentMicros = s.spentMicros) := by
  have hconfigure : ∀ (s : AccountState) (fingerprint : Text),
      (s.configure a fingerprint).usage = s.usage ∧ (s.configure a fingerprint).overage = s.overage ∧
        (s.configure a fingerprint).currency = s.currency ∧
        (s.configure a fingerprint).spentMicros = s.spentMicros := by
    intro s fingerprint
    unfold AccountState.configure
    split_ifs <;> exact ⟨rfl, rfl, rfl, rfl⟩
  have hconvert : ∀ s : AccountState, (s.convert a.pricing.currency).usage = s.usage ∧
      (s.convert a.pricing.currency).overage = s.overage ∧
      (s.convert a.pricing.currency).currency = a.pricing.currency ∧
      (s.currency = a.pricing.currency →
        (s.convert a.pricing.currency).spentMicros = s.spentMicros) := by
    intro s
    unfold AccountState.convert
    split_ifs with hne
    · exact ⟨rfl, rfl, rfl, fun heq => absurd heq hne⟩
    · exact ⟨rfl, rfl, not_not.mp hne, fun _ => rfl⟩
  have hedit : ∀ s : AccountState, ((s.editBalance a).dropBalance a).usage = s.usage ∧
      ((s.editBalance a).dropBalance a).overage = s.overage ∧
      ((s.editBalance a).dropBalance a).currency = s.currency ∧
      ((s.editBalance a).dropBalance a).spentMicros = s.spentMicros := by
    intro s
    unfold AccountState.dropBalance AccountState.editBalance
    split_ifs <;> exact ⟨rfl, rfl, rfl, rfl⟩
  unfold AccountState.normalize
  dsimp only
  generalize hs : ((s.configure a (fingerprint lib a)).convert a.pricing.currency) = converted
  obtain ⟨counter, hrate⟩ := rollRate_eq (converted.rollCounters now) rate now
  obtain ⟨husage, hoverage, hcurrency, hspent⟩ := hconvert (s.configure a (fingerprint lib a))
  obtain ⟨husage', hoverage', hcurrency', hspent'⟩ := hconfigure s (fingerprint lib a)
  rw [hs] at husage hoverage hcurrency hspent
  rw [(hedit _).1, (hedit _).2.1, (hedit _).2.2.1, (hedit _).2.2.2, hrate]
  refine ⟨?_, ?_, hcurrency, fun heq => ?_⟩
  · exact congrArg (·.roll now) (husage.trans husage')
  · exact congrArg (·.roll now) (hoverage.trans hoverage')
  · exact (hspent (hcurrency'.trans heq)).trans hspent'

def paidGrant (_ : ℕ) (g : Grant) : Bool := g.reservation.paid

def History.paidCount (h : History) : ℤ := h.counted paidGrant

def InWindow (a : Account) (start : ℤ) : Call → Prop
  | .normalize now | .reserve now => windowStart a.overage.period now = start
  | .refund _ => True
  | .calibrate _ _ => False

instance (a : Account) (start : ℤ) : ∀ call : Call, Decidable (InWindow a start call)
  | .normalize now | .reserve now =>
    inferInstanceAs (Decidable (windowStart a.overage.period now = start))
  | .refund _ => instDecidableTrue
  | .calibrate _ _ => instDecidableFalse

def Account.lastPrice (a : Account) (count : ℤ) : ℤ :=
  (a.pricing.cost count).getD 0 - (a.pricing.cost (count - 1)).getD 0

def refundGap (a : Account) (h : History) : Call → ℤ
  | .refund id =>
    match h.outstanding.load id with
    | some g =>
      if g.reservation.paid then a.lastPrice h.paidCount - g.reservation.costMicros else 0
    | none => 0
  | _ => 0

theorem refundGap_none {id : ℕ} (hload : h.outstanding.load id = none) :
    refundGap a h (.refund id) = 0 := by
  unfold refundGap
  dsimp only
  rw [hload]

theorem refundGap_some {id : ℕ} {g : Grant} (hload : h.outstanding.load id = some g) :
    refundGap a h (.refund id) =
      if g.reservation.paid then a.lastPrice h.paidCount - g.reservation.costMicros else 0 := by
  unfold refundGap
  dsimp only
  rw [hload]

def runGap (lib : Library) (a : Account) (rate : Rate) : History → List Call → ℤ
  | _, [] => 0
  | h, call :: calls => refundGap a h call + runGap lib a rate (h.next lib a rate call) calls

def History.opened (lib : Library) (a : Account) (rate : Rate) (s : AccountState) (now : ℤ) :
    History :=
  { History.start now with
    account := s.normalize lib a rate now
    normalizedAt := some now }

structure Charged (a : Account) (start base gap : ℤ) (h : History) : Prop where
  currency : h.account.currency = a.pricing.currency
  usage : ∃ used, h.account.usage a.overage.period = some ⟨start, used⟩
  overage : h.account.overage.read a.overage.period = ⟨start, h.paidCount⟩
  older : ∀ id g, h.outstanding.load id = some g → id < h.granted
  grants : ∀ id g, h.outstanding.load id = some g →
    g.reservation.currency = a.pricing.currency ∧
      g.reservation.periods a.overage.period = some start ∧
      (g.reservation.paid = false → g.reservation.costMicros = 0)
  priced : ∀ count, 0 ≤ count → count ≤ h.paidCount → ∃ cost, a.pricing.cost count = some cost
  spent : ∃ cost, a.pricing.cost h.paidCount = some cost ∧
    h.account.spentMicros = base + cost + gap

theorem cost_zero (p : Pricing) : p.cost 0 = some 0 := by
  unfold Pricing.cost
  rw [if_neg (by decide)]
  cases p.tiers with
  | nil => rfl
  | cons tier tiers =>
    unfold Pricing.costFrom
    rfl

theorem price_cost {cost : ℤ} (h : s.price a rate = .ok cost) :
    if s.exhausted a then ∃ before after,
      a.pricing.cost (s.overage.read a.overage.period).used = some before ∧
        a.pricing.cost ((s.overage.read a.overage.period).used + 1) = some after ∧
          cost = after - before
    else cost = 0 := by
  unfold AccountState.price at h
  obtain ⟨-, h⟩ := refuse_bind_ok h
  obtain ⟨-, h⟩ := refuse_bind_ok h
  obtain ⟨-, h⟩ := refuse_bind_ok h
  obtain ⟨-, h⟩ := refuse_bind_ok h
  split_ifs at h ⊢
  · unfold AccountState.overageCost at h
    obtain ⟨-, h⟩ := refuse_bind_ok h
    dsimp only at h
    obtain ⟨-, h⟩ := refuse_bind_ok h
    split at h
    · rename_i before after hbefore hafter
      obtain ⟨-, hreturn⟩ := refuse_bind_ok h
      cases hreturn
      exact ⟨before, after, hbefore, hafter, rfl⟩
    · cases h
  · cases h
    rfl

variable {start base gap : ℤ}

theorem Charged.normalize (hc : Charged a start base gap h)
    (hwindow : windowStart a.overage.period now = start) :
    Charged a start base gap (h.normalize lib a rate now) := by
  obtain ⟨husage, hoverage, hcurrency, hspent⟩ := @normalize_counters lib a h.account rate now
  obtain ⟨used, hused⟩ := hc.usage
  have hroll : ∀ m : Counters, (m.read a.overage.period).start = start →
      m.roll now a.overage.period = m a.overage.period := by
    intro m hm
    unfold Counters.roll
    rw [if_neg (not_not.mpr (hm.trans hwindow.symm))]
  refine ⟨hcurrency, ⟨used, ?_⟩, ?_, hc.older, hc.grants, hc.priced, ?_⟩
  · change (h.account.normalize lib a rate now).usage a.overage.period = _
    rw [husage, hroll _ (by unfold Counters.read; rw [hused]; rfl), hused]
  · change (h.account.normalize lib a rate now).overage.read a.overage.period = _
    unfold Counters.read
    rw [hoverage, hroll _ (by rw [hc.overage])]
    exact hc.overage
  · obtain ⟨cost, hcost, htotal⟩ := hc.spent
    exact ⟨cost, hcost, (hspent hc.currency).trans htotal⟩

theorem Charged.grant (hc : Charged a start base gap h) {cost : ℤ}
    (hprice : h.account.price a rate = .ok cost) :
    Charged a start base gap (h.grant now (h.account.reservation a cost)) := by
  obtain ⟨used, hused⟩ := hc.usage
  obtain ⟨total, htotal, hspent⟩ := hc.spent
  have hfresh : h.outstanding.load h.granted = none := by
    cases hload : h.outstanding.load h.granted with
    | none => rfl
    | some g => exact absurd (hc.older _ g hload) (lt_irrefl _)
  have hcost := price_cost hprice
  have hcount : (h.grant now (h.account.reservation a cost)).paidCount =
      h.paidCount + if h.account.exhausted a then 1 else 0 := count_grant hfresh paidGrant
  have hnonneg : 0 ≤ h.paidCount := Int.natCast_nonneg _
  have hgrants : ∀ id g,
      (h.outstanding.store h.granted ⟨now, h.account.reservation a cost⟩).load id = some g →
      id < h.granted + 1 ∧ g.reservation.currency = a.pricing.currency ∧
        g.reservation.periods a.overage.period = some start ∧
        (g.reservation.paid = false → g.reservation.costMicros = 0) := by
    intro id g hg
    rw [GoMap.load_store] at hg
    split_ifs at hg with hid
    · cases hg
      refine ⟨by omega, hc.currency, ?_, fun hfree => ?_⟩
      · change (h.account.usage a.overage.period).map (·.start) = _
        rw [hused]
        rfl
      · change h.account.exhausted a = false at hfree
        rw [hfree, if_neg Bool.false_ne_true] at hcost
        exact hcost
    · exact ⟨(hc.older id g hg).trans (Nat.lt_succ_self _), hc.grants id g hg⟩
  refine ⟨hc.currency, ⟨used + 1, ?_⟩, ?_, fun id g hg => (hgrants id g hg).1,
    fun id g hg => (hgrants id g hg).2, ?_, ?_⟩
  · change (h.account.usage a.overage.period).map (·.add 1) = _
    rw [hused]
    rfl
  · rw [hcount]
    change ((if h.account.exhausted a = true ∧ (h.account.usage a.overage.period).isSome = true then
      some ((h.account.overage.read a.overage.period).add 1)
      else h.account.overage a.overage.period).getD ⟨0, 0⟩) = _
    rw [hused]
    cases h.account.exhausted a with
    | true =>
      rw [if_pos ⟨rfl, rfl⟩, if_pos rfl, hc.overage]
      rfl
    | false =>
      rw [if_neg (fun hno => Bool.false_ne_true hno.1), if_neg Bool.false_ne_true, Int.add_zero]
      exact hc.overage
  · rw [hcount]
    intro count hlow hhigh
    by_cases hold : count ≤ h.paidCount
    · exact hc.priced count hlow hold
    · split_ifs at hhigh hcost
      · obtain ⟨before, after, -, hafter, -⟩ := hcost
        rw [hc.overage] at hafter
        have hnew : count = h.paidCount + 1 := by omega
        exact ⟨after, hnew ▸ hafter⟩
      · omega
  · rw [hcount]
    change ∃ c, _ ∧ h.account.spentMicros + cost = _
    split_ifs at hcost ⊢
    · obtain ⟨before, after, hbefore, hafter, rfl⟩ := hcost
      rw [hc.overage] at hbefore hafter
      have hsame : before = total := Option.some.inj (hbefore.symm.trans htotal)
      exact ⟨after, hafter, by omega⟩
    · exact ⟨total, by rw [Int.add_zero]; exact htotal, by omega⟩

theorem Charged.reserve (hc : Charged a start base gap h)
    (hwindow : windowStart a.overage.period now = start) :
    Charged a start base gap (h.reserve lib a rate now) := by
  have hnormal := @Charged.normalize lib a rate h now start base gap hc hwindow
  unfold History.reserve AccountState.reserve
  dsimp only
  split
  · rename_i r hr
    split at hr
    · cases hr
    · rename_i cost hcost
      cases hr
      exact { hnormal.grant hcost with }
  · exact { hnormal with }

theorem Charged.refund {id : ℕ} (hc : Charged a start base gap h) :
    Charged a start base (gap + refundGap a h (.refund id)) (h.refund id) := by
  unfold History.refund
  cases hload : h.outstanding.load id with
  | none =>
    rw [refundGap_none hload, Int.add_zero]
    exact hc
  | some g =>
    obtain ⟨hcurrency, hperiods, hfree⟩ := hc.grants id g hload
    obtain ⟨used, hused⟩ := hc.usage
    obtain ⟨total, htotal, hspent⟩ := hc.spent
    have hcount : History.paidCount { h with
        account := h.account.refund g.reservation, outstanding := h.outstanding.delete id } =
        h.paidCount - if g.reservation.paid then 1 else 0 := count_refund hload paidGrant
    have hnonneg : 0 ≤ h.paidCount - if g.reservation.paid then 1 else 0 := by
      rw [← hcount]
      exact Int.natCast_nonneg _
    have hkept : ∀ id' g', (h.outstanding.delete id).load id' = some g' →
        h.outstanding.load id' = some g' := by
      intro id' g' hg
      rw [GoMap.load_delete] at hg
      split_ifs at hg
      exact hg
    have hspend : (h.account.refund g.reservation).spentMicros =
        h.account.spentMicros - g.reservation.costMicros := by
      unfold AccountState.refund
      dsimp only
      rw [if_pos (hc.currency.trans hcurrency.symm)]
    refine ⟨hc.currency, ?_, ?_, fun id' g' hg => hc.older id' g' (hkept id' g' hg),
      fun id' g' hg => hc.grants id' g' (hkept id' g' hg), ?_, ?_⟩
    · change ∃ used, h.account.usage.giveBack g.reservation.periods a.overage.period = _
      unfold Counters.giveBack
      rw [hperiods]
      dsimp only
      split_ifs
      · refine ⟨used - 1, ?_⟩
        unfold Counters.read
        rw [hused]
        rfl
      · exact ⟨used, hused⟩
    · rw [hcount]
      change (if g.reservation.paid then h.account.overage.giveBack g.reservation.periods
        else h.account.overage).read a.overage.period = _
      split_ifs at hnonneg ⊢
      · rw [read_giveBack, hperiods, hc.overage, if_pos ⟨rfl, by dsimp only; omega⟩]
        rfl
      · rw [hc.overage, Int.sub_zero]
    · rw [hcount]
      intro count hlow hhigh
      split_ifs at hhigh
      · exact hc.priced count hlow (by omega)
      · exact hc.priced count hlow (by omega)
    · rw [hcount]
      change ∃ cost, _ ∧ (h.account.refund g.reservation).spentMicros = _
      rw [hspend, refundGap_some hload]
      split_ifs at hnonneg ⊢ with hpaid
      · obtain ⟨before, hbefore⟩ := hc.priced (h.paidCount - 1) hnonneg (by omega)
        refine ⟨before, hbefore, ?_⟩
        unfold Account.lastPrice
        rw [htotal, hbefore, Option.getD_some, Option.getD_some]
        omega
      · rw [hfree (Bool.not_eq_true _ ▸ hpaid), Int.sub_zero, Int.sub_zero, Int.add_zero]
        exact ⟨total, htotal, hspent⟩

theorem Charged.next (hc : Charged a start base gap h) (call : Call)
    (hwindow : InWindow a start call) :
    Charged a start base (gap + refundGap a h call) (h.next lib a rate call) := by
  cases call with
  | normalize now =>
    have hgap : refundGap a h (.normalize now) = 0 := rfl
    rw [hgap, Int.add_zero]
    exact hc.normalize hwindow
  | reserve now =>
    have hgap : refundGap a h (.reserve now) = 0 := rfl
    rw [hgap, Int.add_zero]
    exact hc.reserve hwindow
  | refund id => exact hc.refund
  | calibrate b now => exact hwindow.elim

theorem charged_opened (husage : (s.usage.read a.overage.period).start ≠
      windowStart a.overage.period now)
    (hoverage : (s.overage.read a.overage.period).start ≠ windowStart a.overage.period now) :
    Charged a (windowStart a.overage.period now) (s.normalize lib a rate now).spentMicros 0
      (History.opened lib a rate s now) := by
  obtain ⟨husage', hoverage', hcurrency, -⟩ := @normalize_counters lib a s rate now
  have hnone : ∀ id g, (∅ : GoMap ℕ Grant).load id ≠ some g := nofun
  refine ⟨hcurrency, ⟨0, ?_⟩, ?_, fun id g hg => absurd hg (hnone id g),
    fun id g hg => absurd hg (hnone id g), ?_, ⟨0, cost_zero _, ?_⟩⟩
  · change (s.normalize lib a rate now).usage a.overage.period = _
    rw [husage']
    exact if_pos husage
  · change (s.normalize lib a rate now).overage.read a.overage.period = _
    rw [hoverage', read_roll, if_neg hoverage]
    rfl
  · intro count hlow hhigh
    have hzero : count = 0 := Int.le_antisymm hhigh hlow
    rw [hzero]
    exact ⟨0, cost_zero _⟩
  · change (s.normalize lib a rate now).spentMicros = _
    omega

theorem charged_run {start base gap : ℤ} {calls : List Call}
    (hwindow : ∀ call ∈ calls, InWindow a start call) (hc : Charged a start base gap h) :
    Charged a start base (gap + runGap lib a rate h calls)
      (calls.foldl (History.next lib a rate) h) := by
  induction calls generalizing h gap with
  | nil =>
    rw [runGap, Int.add_zero]
    exact hc
  | cons call calls ih =>
    have hstep := @Charged.next lib a rate h start base gap hc call
      (hwindow call (List.mem_cons_self ..))
    have hrest := ih (fun c hcall => hwindow c (List.mem_cons_of_mem call hcall)) hstep
    rw [Int.add_assoc] at hrest
    exact hrest

/-- What is spent in a window, whatever order its calls come in: the price of the paid reservations that are not refunded, and by how
much the refunds gave back less than the price of the last message that was counted. -/
theorem window_charges (lib : Library) (a : Account) (rate : Rate) (s : AccountState) (now : ℤ)
    (husage : (s.usage.read a.overage.period).start ≠ windowStart a.overage.period now)
    (hoverage : (s.overage.read a.overage.period).start ≠ windowStart a.overage.period now)
    (calls : List Call)
    (hwindow : ∀ call ∈ calls, InWindow a (windowStart a.overage.period now) call) :
    ∃ cost, a.pricing.cost (calls.foldl (History.next lib a rate)
        (History.opened lib a rate s now)).paidCount = some cost ∧
      (calls.foldl (History.next lib a rate) (History.opened lib a rate s now)).account.spentMicros -
          (History.opened lib a rate s now).account.spentMicros =
        cost + runGap lib a rate (History.opened lib a rate s now) calls := by
  have hc := @charged_run lib a rate _ _ _ 0 calls hwindow
    (@charged_opened lib a rate s now husage hoverage)
  obtain ⟨cost, hcost, hspent⟩ := hc.spent
  refine ⟨cost, hcost, ?_⟩
  change _ - (s.normalize lib a rate now).spentMicros = _
  omega

def batchAccount : Account :=
  { creditAccount with
    quota := ⟨1, .month⟩
    forceSend := true
    overage := ⟨-1, .month⟩
    pricing := ⟨"USD".toList, .batch, [⟨0, 1000, 1000⟩]⟩ }

def firstRefunded : List Call :=
  [.reserve midday, .reserve (midday + 1), .reserve (midday + 2), .refund 1]

theorem firstRefunded_charges : ∃ cost, batchAccount.pricing.cost (firstRefunded.foldl
      (History.next plainLibrary batchAccount ⟨50, 60000⟩)
      (History.opened plainLibrary batchAccount ⟨50, 60000⟩ .empty midday)).paidCount = some cost ∧
    (firstRefunded.foldl (History.next plainLibrary batchAccount ⟨50, 60000⟩)
        (History.opened plainLibrary batchAccount ⟨50, 60000⟩ .empty midday)).account.spentMicros -
        (History.opened plainLibrary batchAccount ⟨50, 60000⟩ .empty midday).account.spentMicros =
      cost + runGap plainLibrary batchAccount ⟨50, 60000⟩
        (History.opened plainLibrary batchAccount ⟨50, 60000⟩ .empty midday) firstRefunded :=
  window_charges plainLibrary batchAccount ⟨50, 60000⟩ .empty midday (by decide +kernel)
    (by decide +kernel) firstRefunded (by decide +kernel)

theorem firstRefunded_spends_nothing : batchAccount.pricing.validate = true ∧
    (∀ call ∈ firstRefunded,
      InWindow batchAccount (windowStart batchAccount.overage.period midday) call) ∧
    Runs.Along (History.next plainLibrary batchAccount ⟨50, 60000⟩) Timely
      (History.opened plainLibrary batchAccount ⟨50, 60000⟩ .empty midday) firstRefunded ∧
    batchAccount.pricing.cost (firstRefunded.foldl
      (History.next plainLibrary batchAccount ⟨50, 60000⟩)
      (History.opened plainLibrary batchAccount ⟨50, 60000⟩ .empty midday)).paidCount = some 1000 ∧
    (firstRefunded.foldl (History.next plainLibrary batchAccount ⟨50, 60000⟩)
        (History.opened plainLibrary batchAccount ⟨50, 60000⟩ .empty midday)).account.spentMicros -
        (History.opened plainLibrary batchAccount ⟨50, 60000⟩ .empty midday).account.spentMicros =
      0 := by
  decide +kernel

end RenoP.Mail
