import RenoP.Mail.Accounting
import RenoP.Lib.Runs

/-!
# Reservations that are not refunded

The calls of one account, beside the reservations that it granted and took back.
-/

namespace RenoP.Mail

open RenoP.Database (Text)

structure Grant where
  time : ℤ
  reservation : Reservation

structure Setting where
  value : ℤ
  before : ℕ
  deriving DecidableEq

structure History where
  account : AccountState
  /-- the reservations that are not refunded, by the order of granting -/
  outstanding : GoMap ℕ Grant
  granted : ℕ
  clock : ℤ
  normalizedAt : Option ℤ
  calibrations : List ℤ
  remainingSet : Option Setting
  hardSet : Option Setting
  /-- a balance that was not negative became so by a `Reserve` -/
  overdrawn : Bool

def History.start (clock : ℤ) : History where
  account := .empty
  outstanding := ∅
  granted := 0
  clock := clock
  normalizedAt := none
  calibrations := []
  remainingSet := none
  hardSet := none
  overdrawn := false

inductive Call where
  | normalize (now : ℤ)
  | reserve (now : ℤ)
  | refund (id : ℕ)
  | calibrate (budget : Budget) (now : ℤ)

def overdraws (before after : Option ℤ) : Bool :=
  before.any (0 ≤ ·) && after.any (· < 0)

def setCredit (said : Option ℤ) (granted : ℕ) (set : Option Setting) : Option Setting :=
  match said with
  | some value => some ⟨value, granted⟩
  | none => set

variable (lib : Library) (a : Account) (rate : Rate)

def History.normalize (h : History) (now : ℤ) : History :=
  { h with
    account := h.account.normalize lib a rate now
    clock := now
    normalizedAt := some now }

def History.grant (h : History) (now : ℤ) (r : Reservation) : History :=
  { h with
    account := h.account.debit r
    outstanding := h.outstanding.store h.granted ⟨now, r⟩
    granted := h.granted + 1 }

def History.reserve (h : History) (now : ℤ) : History :=
  let after :=
    match (h.account.reserve lib a rate now).2 with
    | .ok r => (h.normalize lib a rate now).grant now r
    | .error _ => h.normalize lib a rate now
  { after with
    overdrawn := h.overdrawn || overdraws h.account.balanceMicros after.account.balanceMicros }

def History.refund (h : History) (id : ℕ) : History :=
  match h.outstanding.load id with
  | some g =>
    { h with
      account := h.account.refund g.reservation
      outstanding := h.outstanding.delete id }
  | none => h

def History.calibrate (h : History) (b : Budget) (now : ℤ) : History :=
  { h with
    account := h.account.calibrate lib a b now
    clock := now
    calibrations := now :: h.calibrations
    remainingSet := setCredit b.remaining h.granted h.remainingSet
    hardSet := setCredit b.hardRemaining h.granted h.hardSet }

def History.next (h : History) : Call → History
  | .normalize now => h.normalize lib a rate now
  | .reserve now => h.reserve lib a rate now
  | .refund id => h.refund id
  | .calibrate b now => h.calibrate lib a b now

/-- Clocks do not go back, calibrations differ in time, and a reservation is refunded once. -/
def Timely (h : History) : Call → Prop
  | .normalize now | .reserve now => h.clock ≤ now
  | .refund id => h.outstanding.has id = true
  | .calibrate _ now => h.clock ≤ now ∧ now ∉ h.calibrations

instance (h : History) : ∀ call : Call, Decidable (Timely h call)
  | .normalize now | .reserve now => inferInstanceAs (Decidable (h.clock ≤ now))
  | .refund id => inferInstanceAs (Decidable (h.outstanding.has id = true))
  | .calibrate _ now => inferInstanceAs (Decidable (h.clock ≤ now ∧ now ∉ h.calibrations))

section
variable {ledger : GoMap ℕ Grant} {id : ℕ} {g : Grant}

theorem count_grant (hfresh : ledger.load id = none) (p : ℕ → Grant → Bool) :
    ((ledger.store id g).count p : ℤ) = ledger.count p + if p id g then 1 else 0 := by
  rw [GoMap.count_store, hfresh, Option.any_none, if_neg Bool.false_ne_true, Int.sub_zero]

theorem count_refund (hg : ledger.load id = some g) (p : ℕ → Grant → Bool) :
    ((ledger.delete id).count p : ℤ) = ledger.count p - if p id g then 1 else 0 := by
  rw [GoMap.count_delete, hg, Option.any_some]

end

def History.counted (h : History) (q : ℕ → Grant → Bool) : ℤ := h.outstanding.count q

def Grant.within (period : Period) (now : ℤ) (g : Grant) : Bool :=
  decide (windowStart period g.time = windowStart period now)

def Setting.since (set : Setting) (id : ℕ) (_ : Grant) : Bool := decide (set.before ≤ id)

structure Accounted (h : History) : Prop where
  usage : ∀ now, h.normalizedAt = some now → ∀ period, h.account.usage.read period =
    ⟨windowStart period now, h.counted fun _ g => g.within period now⟩
  overage : ∀ now, h.normalizedAt = some now → ∀ period, h.account.overage.read period =
    ⟨windowStart period now, h.counted fun _ g => g.within period now && g.reservation.paid⟩
  quota : 0 < a.quota.limit → ∀ now,
    h.counted (fun _ g => g.within a.quota.period now && !g.reservation.paid) ≤ a.quota.limit
  overageLimit : 0 ≤ a.overage.limit → ∀ now,
    h.counted (fun _ g => g.within a.overage.period now && g.reservation.paid) ≤ a.overage.limit
  balance : h.overdrawn = false
  remaining : ∀ set, h.remainingSet = some set →
    h.account.budget.remaining = some (max (set.value - h.counted set.since) 0)
  hardRemaining : ∀ set, h.hardSet = some set →
    h.account.budget.hardRemaining = some (max (set.value - h.counted set.since) 0)

/-- The calls that the state accounts exactly. A period without a counter gets one unless its
window starts at the Unix epoch, a balance that is edited is not negative, and providers report no
negative credits. A refund gives back a credit that the reservation took, from the calibration
that still holds, if and only if the credits are not overdrawn. -/
def Exact (h : History) : Call → Prop
  | .normalize _ => True
  | .reserve now =>
    (∀ period, h.account.usage period = none → windowStart period now ≠ 0) ∧
      (h.account.manualBalance = a.balanceMicros ∨ ∀ b ∈ a.balanceMicros, 0 ≤ b)
  | .refund id => ∀ g ∈ h.outstanding.load id,
    (∀ set ∈ h.remainingSet, set.before ≤ id →
      (g.reservation.remote = true ∧ h.account.calibrationAt = g.reservation.calibrationAt ↔
        h.counted set.since ≤ set.value)) ∧
    ∀ set ∈ h.hardSet, set.before ≤ id → h.account.calibrationAt = g.reservation.calibrationAt
  | .calibrate b _ => (∀ n ∈ b.remaining, 0 ≤ n) ∧ ∀ n ∈ b.hardRemaining, 0 ≤ n

instance (p : Period → Prop) [DecidablePred p] : Decidable (∀ period, p period) :=
  decidable_of_iff (p .hour ∧ p .day ∧ p .week ∧ p .month)
    ⟨fun h period => by cases period <;> simp only [h], fun h => ⟨h _, h _, h _, h _⟩⟩

instance (h : History) : ∀ call : Call, Decidable (Exact a h call)
  | .normalize _ => instDecidableTrue
  | .reserve now => inferInstanceAs (Decidable
      ((∀ period, h.account.usage period = none → windowStart period now ≠ 0) ∧
        (h.account.manualBalance = a.balanceMicros ∨ ∀ b ∈ a.balanceMicros, 0 ≤ b)))
  | .refund id => inferInstanceAs (Decidable (∀ g ∈ h.outstanding.load id,
      (∀ set ∈ h.remainingSet, set.before ≤ id →
        (g.reservation.remote = true ∧ h.account.calibrationAt = g.reservation.calibrationAt ↔
          h.counted set.since ≤ set.value)) ∧
      ∀ set ∈ h.hardSet, set.before ≤ id →
        h.account.calibrationAt = g.reservation.calibrationAt))
  | .calibrate b _ =>
    inferInstanceAs (Decidable ((∀ n ∈ b.remaining, 0 ≤ n) ∧ ∀ n ∈ b.hardRemaining, 0 ≤ n))

end RenoP.Mail
