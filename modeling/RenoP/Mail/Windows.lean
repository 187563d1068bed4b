import RenoP.Mail.Ledger

/-!
# Usage of the calendar windows

The counters of a period against the reservations that are not refunded.
-/

namespace RenoP.Mail

open RenoP.Database (Text)
open Fallible (refuse refuse_bind_ok bind_ok)

variable {lib : Library} {a : Account} {rate : Rate} {s : AccountState} {h : History} {now : ℤ}

theorem windowStart_mono (period : Period) {t t' : ℤ} (h : t ≤ t') :
    windowStart period t ≤ windowStart period t' := by
  have hday : t / dayMs ≤ t' / dayMs := by
    unfold dayMs hourMs
    omega
  cases period with
  | hour =>
    show t / hourMs * hourMs ≤ t' / hourMs * hourMs
    unfold hourMs
    omega
  | day =>
    show t / dayMs * dayMs ≤ t' / dayMs * dayMs
    exact Int.mul_le_mul_of_nonneg_right hday (by decide)
  | week =>
    show (t / dayMs - CivilDate.weekdayFromMonday (t / dayMs)) * dayMs ≤
      (t' / dayMs - CivilDate.weekdayFromMonday (t' / dayMs)) * dayMs
    have hweek : t / dayMs - CivilDate.weekdayFromMonday (t / dayMs) ≤
        t' / dayMs - CivilDate.weekdayFromMonday (t' / dayMs) := by
      unfold CivilDate.weekdayFromMonday
      omega
    exact Int.mul_le_mul_of_nonneg_right hweek (by decide)
  | month =>
    show CivilDate.days (CivilDate.year (t / dayMs)) (CivilDate.month (t / dayMs)) 1 * dayMs ≤
      CivilDate.days (CivilDate.year (t' / dayMs)) (CivilDate.month (t' / dayMs)) 1 * dayMs
    have hmonth := CivilDate.monthStart_mono hday
    rw [CivilDate.days_year_month, CivilDate.days_year_month]
    exact Int.mul_le_mul_of_nonneg_right (by omega) (by decide)

theorem read_roll (m : Counters) (now : ℤ) (period : Period) :
    (m.roll now).read period =
      if (m.read period).start = windowStart period now then m.read period
      else ⟨windowStart period now, 0⟩ := by
  unfold Counters.read Counters.roll
  split_ifs with hne heq heq
  · exact absurd heq hne
  · rfl
  · rfl
  · exact absurd heq (by simpa [Counters.read] using hne)

theorem roll_isSome {m : Counters} {period : Period}
    (h : m period = none → windowStart period now ≠ 0) : ∃ c, m.roll now period = some c := by
  unfold Counters.roll
  split_ifs with hne
  · exact ⟨_, rfl⟩
  · cases hm : m period with
    | some c => exact ⟨c, rfl⟩
    | none =>
      have hread : (m.read period).start = 0 := by
        unfold Counters.read
        rw [hm]
        rfl
      exact absurd ((not_not.mp hne).symm.trans hread) (h hm)

theorem read_giveBack (m : Counters) (periods : Period → Option ℤ) (period : Period) :
    (m.giveBack periods).read period =
      if periods period = some (m.read period).start ∧ 0 < (m.read period).used then
        (m.read period).add (-1)
      else m.read period := by
  cases hperiod : periods period with
  | none =>
    have hkeep : m.giveBack periods period = m period := by
      simp only [Counters.giveBack, hperiod]
    rw [if_neg (by rintro ⟨hnone, -⟩; cases hnone)]
    unfold Counters.read
    rw [hkeep]
  | some start =>
    have hgive : m.giveBack periods period =
        if (m.read period).start = start ∧ 0 < (m.read period).used then
          some ((m.read period).add (-1))
        else m period := by
      simp only [Counters.giveBack, hperiod]
    simp only [Option.some.injEq, eq_comm (a := start)]
    have hread : (m.giveBack periods).read period =
        ((m.giveBack periods period).getD ⟨0, 0⟩) := rfl
    rw [hread, hgive]
    split_ifs <;> rfl

def Configured (lib : Library) (a : Account) (s : AccountState) : Prop :=
  (s.configuration = [] ∨ s.configuration = fingerprint lib a) ∧
    (s.manualBalance = none ∨ s.manualBalance = a.balanceMicros)

theorem convert_eq (s : AccountState) (currency : Text) :
    ∃ spent, s.convert currency = { s with currency := currency, spentMicros := spent } := by
  unfold AccountState.convert
  split_ifs with hne
  · exact ⟨0, rfl⟩
  · rw [← not_not.mp hne]
    exact ⟨s.spentMicros, rfl⟩

theorem rollRate_eq (s : AccountState) (rate : Rate) (now : ℤ) :
    ∃ counter, s.rollRate rate now = { s with rate := counter } := by
  unfold AccountState.rollRate
  dsimp only
  split_ifs
  · exact ⟨_, rfl⟩
  · exact ⟨s.rate, rfl⟩
  · exact ⟨s.rate, rfl⟩

theorem editBalance_eq (hmanual : s.manualBalance = none ∨ s.manualBalance = a.balanceMicros) :
    ∃ balance, s.editBalance a =
        { s with manualBalance := a.balanceMicros, balanceMicros := balance } ∧
      (balance = s.balanceMicros ∨
        s.manualBalance ≠ a.balanceMicros ∧ balance = a.balanceMicros) := by
  unfold AccountState.editBalance
  by_cases heq : s.manualBalance = a.balanceMicros
  · rw [if_neg (not_not.mpr heq), ← heq]
    exact ⟨s.balanceMicros, rfl, Or.inl rfl⟩
  · have hsome : ¬(a.balanceMicros = none ∧ a.fetchBalance = true) := by
      rintro ⟨hnone, -⟩
      exact heq (hmanual.elim (fun hs => hs.trans hnone.symm) id)
    rw [if_pos heq, if_neg hsome]
    exact ⟨a.balanceMicros, rfl, Or.inr ⟨heq, rfl⟩⟩

theorem dropBalance_eq (s : AccountState) (a : Account) :
    ∃ balance, s.dropBalance a = { s with balanceMicros := balance } ∧
      (balance = none ∨ balance = s.balanceMicros) := by
  unfold AccountState.dropBalance
  split_ifs
  · exact ⟨none, rfl, Or.inl rfl⟩
  · exact ⟨s.balanceMicros, rfl, Or.inr rfl⟩

theorem normalize_eq (h : Configured lib a s) (rate : Rate) (now : ℤ) :
    ∃ spent counter balance, s.normalize lib a rate now = { s with
      configuration := fingerprint lib a
      currency := a.pricing.currency
      usage := s.usage.roll now
      overage := s.overage.roll now
      rate := counter
      manualBalance := a.balanceMicros
      balanceMicros := balance
      spentMicros := spent } ∧
      (balance = none ∨ balance = s.balanceMicros ∨
        s.manualBalance ≠ a.balanceMicros ∧ balance = a.balanceMicros) := by
  have hconfigure : s.configure a (fingerprint lib a) =
      { s with configuration := fingerprint lib a } := by
    unfold AccountState.configure
    rw [if_neg (fun hnot => h.1.elim hnot.1 hnot.2)]
  unfold AccountState.normalize
  dsimp only
  rw [hconfigure]
  obtain ⟨spent, hconvert⟩ := convert_eq { s with configuration := fingerprint lib a }
    a.pricing.currency
  rw [hconvert]
  obtain ⟨counter, hrate⟩ := rollRate_eq (AccountState.rollCounters { s with
    configuration := fingerprint lib a
    currency := a.pricing.currency
    spentMicros := spent } now) rate now
  rw [hrate]
  obtain ⟨edited, hedit, hedited⟩ := @editBalance_eq a { AccountState.rollCounters { s with
    configuration := fingerprint lib a
    currency := a.pricing.currency
    spentMicros := spent } now with rate := counter } h.2
  rw [hedit]
  obtain ⟨balance, hdrop, hdropped⟩ := dropBalance_eq { AccountState.rollCounters { s with
    configuration := fingerprint lib a
    currency := a.pricing.currency
    spentMicros := spent } now with
      rate := counter
      manualBalance := a.balanceMicros
      balanceMicros := edited } a
  rw [hdrop]
  refine ⟨spent, counter, balance, rfl, ?_⟩
  rcases hdropped with hnone | hsame
  · exact Or.inl hnone
  · exact Or.inr (hsame ▸ hedited)

variable {ledger : GoMap ℕ Grant} {id : ℕ} {g : Grant}

def countIn (ledger : GoMap ℕ Grant) (period : Period) (now : ℤ) (q : Reservation → Bool) : ℤ :=
  ledger.count fun _ g => g.within period now && q g.reservation

structure Counts (ledger : GoMap ℕ Grant) (normalizedAt : Option ℤ) (q : Reservation → Bool)
    (m : Counters) : Prop where
  new : normalizedAt = none → ∀ period, m.read period = ⟨0, 0⟩
  read : ∀ now, normalizedAt = some now → ∀ period,
    m.read period = ⟨windowStart period now, countIn ledger period now q⟩

def Started (ledger : GoMap ℕ Grant) (normalizedAt : Option ℤ) : Prop :=
  ∀ id g, ledger.load id = some g → ∃ t, normalizedAt = some t ∧ g.time ≤ t

variable {normalizedAt : Option ℤ} {q : Reservation → Bool} {m m' : Counters}

theorem countIn_later (hstarted : Started ledger normalizedAt) {period : Period}
    (hlater : ∀ t, normalizedAt = some t → windowStart period t < windowStart period now) :
    countIn ledger period now q = 0 := by
  have hzero : ledger.count (fun _ g => g.within period now && q g.reservation) = 0 := by
    rw [GoMap.count_eq_zero_iff]
    intro id g hg
    obtain ⟨t, ht, htime⟩ := hstarted id g hg
    have hstart := windowStart_mono period htime
    have hless := hlater t ht
    have hnot : ¬windowStart period g.time = windowStart period now := by omega
    rw [Grant.within, decide_eq_false hnot, Bool.false_and]
  unfold countIn
  rw [hzero]
  rfl

theorem Counts.roll (h : Counts ledger normalizedAt q m) (hstarted : Started ledger normalizedAt)
    (hnow : ∀ t, normalizedAt = some t → t ≤ now) : Counts ledger (some now) q (m.roll now) := by
  constructor
  · intro hnone
    cases hnone
  · intro now' hnow' period
    cases hnow'
    rw [read_roll]
    cases hat : normalizedAt with
    | none =>
      have hcount : countIn ledger period now q = 0 := by
        apply countIn_later hstarted
        intro t ht
        rw [hat] at ht
        cases ht
      rw [h.new hat, hcount]
      split_ifs with hstart
      · rw [← hstart]
      · rfl
    | some t =>
      rw [h.read t hat]
      dsimp only
      split_ifs with hstart
      · unfold countIn Grant.within
        rw [hstart]
      · have hle := windowStart_mono period (hnow t hat)
        have hcount : countIn ledger period now q = 0 := by
          apply countIn_later hstarted
          intro t' ht'
          rw [hat] at ht'
          cases ht'
          omega
        rw [hcount]

theorem Counts.grant (h : Counts ledger (some now) q m) (hfresh : ledger.load id = none)
    {r : Reservation}
    (hm : ∀ period, m'.read period = if q r then (m.read period).add 1 else m.read period) :
    Counts (ledger.store id ⟨now, r⟩) (some now) q m' := by
  constructor
  · intro hnone
    cases hnone
  · intro now' hnow' period
    cases hnow'
    have hwithin : Grant.within period now ⟨now, r⟩ = true := decide_eq_true rfl
    rw [hm, h.read now rfl]
    unfold countIn
    rw [count_grant hfresh, hwithin, Bool.true_and]
    cases q r with
    | true => rfl
    | false =>
      rw [if_neg Bool.false_ne_true, if_neg Bool.false_ne_true, Int.add_zero]

theorem Counts.refund (h : Counts ledger normalizedAt q m) (hg : ledger.load id = some g)
    (hperiods : ∀ period, g.reservation.periods period = some (windowStart period g.time)) :
    Counts (ledger.delete id) normalizedAt q
      (if q g.reservation then m.giveBack g.reservation.periods else m) := by
  constructor
  · intro hnone period
    have hread := h.new hnone period
    split_ifs
    · rw [read_giveBack, hread, if_neg (fun hpos => Int.lt_irrefl 0 hpos.2)]
    · exact hread
  · intro now hnow period
    have hread := h.read now hnow period
    cases hq : q g.reservation with
    | false =>
      rw [if_neg Bool.false_ne_true, hread]
      unfold countIn
      rw [count_refund hg, hq, Bool.and_false, if_neg Bool.false_ne_true, Int.sub_zero]
    | true =>
      rw [if_pos rfl, read_giveBack, hread, hperiods]
      simp only [Option.some.injEq]
      unfold countIn
      rw [count_refund hg, hq, Bool.and_true]
      by_cases hwithin : windowStart period g.time = windowStart period now
      · have hcounted : (g.within period now && q g.reservation) = true := by
          rw [hq, Bool.and_true, Grant.within, decide_eq_true hwithin]
        have hpos := @GoMap.count_pos ℕ Grant _ (fun _ g => g.within period now && q g.reservation)
          _ _ _ hg hcounted
        rw [if_pos ⟨hwithin, by omega⟩, Grant.within, decide_eq_true hwithin, if_pos rfl]
        rfl
      · rw [if_neg (fun hin => hwithin hin.1), Grant.within, decide_eq_false hwithin,
          if_neg Bool.false_ne_true, Int.sub_zero]

def Limited (ledger : GoMap ℕ Grant) (period : Period) (q : Reservation → Bool) (limit : ℤ) :
    Prop :=
  ∀ now, countIn ledger period now q ≤ limit

variable {period : Period} {limit : ℤ}

theorem Limited.grant (h : Limited ledger period q limit) (hfresh : ledger.load id = none)
    {r : Reservation} (hroom : q r = true → countIn ledger period now q < limit) :
    Limited (ledger.store id ⟨now, r⟩) period q limit := by
  intro t
  have hlimit := h t
  unfold countIn at hlimit ⊢
  rw [count_grant hfresh]
  split_ifs with hin
  · rw [Bool.and_eq_true, Grant.within, decide_eq_true_eq] at hin
    have hless := hroom hin.2
    have hsame : (fun (_ : ℕ) (g : Grant) => g.within period t && q g.reservation) =
        fun _ g => g.within period now && q g.reservation := by
      unfold Grant.within
      rw [← hin.1]
    unfold countIn at hless
    rw [hsame]
    omega
  · rw [Int.add_zero]
    exact hlimit

theorem Limited.refund (h : Limited ledger period q limit) (hg : ledger.load id = some g) :
    Limited (ledger.delete id) period q limit := by
  intro t
  have hlimit := h t
  unfold countIn at hlimit ⊢
  rw [count_refund hg]
  split_ifs <;> omega

theorem countIn_le_all (ledger : GoMap ℕ Grant) (period : Period) (now : ℤ)
    (q : Reservation → Bool) :
    countIn ledger period now q ≤ countIn ledger period now fun _ => true := by
  unfold countIn
  rw [GoMap.count_eq_sum, GoMap.count_eq_sum]
  apply GoMap.sum_le_sum
  intro id g _
  dsimp only
  cases g.within period now <;> cases q g.reservation <;> simp

end RenoP.Mail
