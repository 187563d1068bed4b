import RenoP.Mail.Ledger

/-!
# Credits of the provider

What a calibration set a credit to against the reservations that took it and are not refunded.
-/

namespace RenoP.Mail

variable {ledger : GoMap ℕ Grant} {granted id : ℕ} {calibrations : List ℤ} {calibrationAt now : ℤ}
  {left : Option ℤ} {set : Option Setting} {taken : Reservation → Bool} {g : Grant}
  {r : Reservation}

structure Dated (ledger : GoMap ℕ Grant) (granted : ℕ) (calibrations : List ℤ)
    (calibrationAt : ℤ) (left : Option ℤ) (set : Option Setting) (taken : Reservation → Bool) :
    Prop where
  fresh : ∀ id g, ledger.load id = some g → id < granted
  before : ∀ x, set = some x → x.before ≤ granted
  unset : set = none → left = none
  current : ∀ n, left = some n → calibrationAt ∈ calibrations
  dated : ∀ id g, ledger.load id = some g → taken g.reservation = true →
    g.reservation.calibrationAt ∈ calibrations
  older : ∀ x, set = some x → ∀ id g, ledger.load id = some g → id < x.before →
    taken g.reservation = true → g.reservation.calibrationAt ≠ calibrationAt

def CreditLeft (ledger : GoMap ℕ Grant) (left : Option ℤ) (set : Option Setting) : Prop :=
  ∀ x, set = some x → 0 ≤ x.value ∧ left = some (max (x.value - ledger.count x.since) 0)

theorem fresh_none (hfresh : ∀ id g, ledger.load id = some g → id < granted) :
    ledger.load granted = none := by
  cases hload : ledger.load granted with
  | none => rfl
  | some g => exact absurd (hfresh granted g hload) (Nat.lt_irrefl granted)

theorem Dated.grant (h : Dated ledger granted calibrations calibrationAt left set taken)
    (hr : r.calibrationAt = calibrationAt) (htaken : taken r = left.any (0 < ·)) :
    Dated (ledger.store granted ⟨now, r⟩) (granted + 1) calibrations calibrationAt
      (takeCredit left) set taken := by
  constructor
  · intro id g hg
    rcases (GoMap.moves_store ledger granted ⟨now, r⟩).cases hg with ⟨hid, -⟩ | ⟨-, hold⟩
    · omega
    · exact Nat.lt_succ_of_lt (h.fresh id g hold)
  · intro x hx
    exact Nat.le_succ_of_le (h.before x hx)
  · intro hset
    rw [h.unset hset]
    rfl
  · intro n hn
    obtain ⟨n', hleft, -⟩ := Option.map_eq_some_iff.mp hn
    exact h.current n' hleft
  · intro id g hg hgtaken
    rcases (GoMap.moves_store ledger granted ⟨now, r⟩).cases hg with ⟨-, hnew⟩ | ⟨-, hold⟩
    · cases hnew
      rw [htaken] at hgtaken
      rw [hr]
      cases hleft : left with
      | none =>
        rw [hleft] at hgtaken
        cases hgtaken
      | some n => exact h.current n hleft
    · exact h.dated id g hold hgtaken
  · intro x hx id g hg hid hgtaken
    rcases (GoMap.moves_store ledger granted ⟨now, r⟩).cases hg with ⟨hnew, -⟩ | ⟨-, hold⟩
    · have hbefore := h.before x hx
      omega
    · exact h.older x hx id g hold hid hgtaken

theorem CreditLeft.grant (h : CreditLeft ledger left set)
    (hdated : Dated ledger granted calibrations calibrationAt left set taken) :
    CreditLeft (ledger.store granted ⟨now, r⟩) (takeCredit left) set := by
  intro x hx
  obtain ⟨hvalue, hleft⟩ := h x hx
  have hbefore := hdated.before x hx
  have hsince : Setting.since x granted ⟨now, r⟩ = true := decide_eq_true hbefore
  refine ⟨hvalue, ?_⟩
  rw [hleft, count_grant (fresh_none hdated.fresh), hsince, if_pos rfl]
  unfold takeCredit
  rw [Option.map_some]
  congr 1
  split_ifs <;> omega

theorem Dated.refund (h : Dated ledger granted calibrations calibrationAt left set taken)
    (used current : Bool) :
    Dated (ledger.delete id) granted calibrations calibrationAt
      (giveCredit used current left) set taken := by
  have hsub : ∀ id' g, (ledger.delete id).load id' = some g → ledger.load id' = some g := by
    intro id' g hg
    rcases (GoMap.moves_delete ledger id).cases hg with ⟨-, hnone⟩ | ⟨-, hold⟩
    · cases hnone
    · exact hold
  constructor
  · intro id' g hg
    exact h.fresh id' g (hsub id' g hg)
  · exact h.before
  · intro hset
    rw [h.unset hset]
    unfold giveCredit
    split_ifs <;> rfl
  · intro n hn
    cases hleft : left with
    | none =>
      rw [hleft] at hn
      unfold giveCredit at hn
      split_ifs at hn
      cases hn
    | some n' => exact h.current n' hleft
  · intro id' g hg
    exact h.dated id' g (hsub id' g hg)
  · intro x hx id' g hg
    exact h.older x hx id' g (hsub id' g hg)

theorem CreditLeft.refund (h : CreditLeft ledger left set)
    (hdated : Dated ledger granted calibrations calibrationAt left set taken)
    (hg : ledger.load id = some g)
    (hexact : ∀ x, set = some x → x.before ≤ id →
      (taken g.reservation = true ∧ calibrationAt = g.reservation.calibrationAt ↔
        (ledger.count x.since : ℤ) ≤ x.value)) :
    CreditLeft (ledger.delete id)
      (giveCredit (taken g.reservation) (decide (calibrationAt = g.reservation.calibrationAt)) left)
      set := by
  intro x hx
  obtain ⟨hvalue, hleft⟩ := h x hx
  refine ⟨hvalue, ?_⟩
  rw [count_refund hg, hleft]
  unfold giveCredit Setting.since
  simp only [decide_eq_true_eq]
  by_cases hsince : x.before ≤ id
  · rw [if_pos hsince]
    have hiff := hexact x hx hsince
    unfold Setting.since at hiff
    split_ifs with hgives
    · have hle := hiff.mp hgives
      rw [Option.map_some]
      congr 1
      omega
    · have hless : ¬(ledger.count (fun id' _ => decide (x.before ≤ id')) : ℤ) ≤ x.value :=
        fun hle => hgives (hiff.mpr hle)
      congr 1
      omega
  · rw [if_neg hsince, if_neg, Int.sub_zero]
    intro hgives
    exact hdated.older x hx id g hg (Nat.not_le.mp hsince) hgives.1 hgives.2.symm

theorem setCredit_cases {said : Option ℤ} {x : Setting}
    (h : setCredit said granted set = some x) :
    (∃ value, said = some value ∧ x = ⟨value, granted⟩) ∨ said = none ∧ set = some x := by
  unfold setCredit at h
  cases said with
  | none => exact Or.inr ⟨rfl, h⟩
  | some value =>
    cases h
    exact Or.inl ⟨value, rfl, rfl⟩

theorem Dated.calibrate (h : Dated ledger granted calibrations calibrationAt left set taken)
    (said : Option ℤ) (hnow : now ∉ calibrations) :
    Dated ledger granted (now :: calibrations) now (said.or left) (setCredit said granted set)
      taken := by
  constructor
  · exact h.fresh
  · intro x hx
    rcases setCredit_cases hx with ⟨value, -, hset⟩ | ⟨-, hset⟩
    · rw [hset]
    · exact h.before x hset
  · intro hset
    cases said with
    | none => exact h.unset hset
    | some value => cases hset
  · intro n _
    exact List.mem_cons_self ..
  · intro id g hg htaken
    exact List.mem_cons_of_mem now (h.dated id g hg htaken)
  · intro x _ id g hg _ htaken heq
    exact hnow (heq ▸ h.dated id g hg htaken)

theorem CreditLeft.calibrate (h : CreditLeft ledger left set) {said : Option ℤ}
    (hfresh : ∀ id g, ledger.load id = some g → id < granted)
    (hsaid : ∀ n, said = some n → 0 ≤ n) :
    CreditLeft ledger (said.or left) (setCredit said granted set) := by
  intro x hx
  rcases setCredit_cases hx with ⟨value, hvalue, hset⟩ | ⟨hnone, hset⟩
  · rw [hset, hvalue]
    have hcount : ledger.count (Setting.since ⟨value, granted⟩) = 0 := by
      rw [GoMap.count_eq_zero_iff]
      intro id g hg
      exact decide_eq_false (Nat.not_le.mpr (hfresh id g hg))
    have hpos := hsaid value hvalue
    refine ⟨hpos, ?_⟩
    rw [hcount]
    show some value = some (max (value - 0) 0)
    rw [Int.sub_zero, max_eq_left hpos]
  · rw [hnone]
    exact h x hset

def Covered (ledger : GoMap ℕ Grant) (set : Option Setting) (taken : Reservation → Bool) : Prop :=
  ∀ x, set = some x → (ledger.count x.since : ℤ) ≤ x.value ∧
    ∀ id g, ledger.load id = some g → x.before ≤ id → taken g.reservation = true

theorem Covered.grant (h : Covered ledger set taken) (hleft : CreditLeft ledger left set)
    (hdated : Dated ledger granted calibrations calibrationAt left set taken)
    (htaken : taken r = left.any (0 < ·)) (hpos : ∀ n, left = some n → 0 < n) :
    Covered (ledger.store granted ⟨now, r⟩) set taken := by
  intro x hx
  obtain ⟨-, hall⟩ := h x hx
  obtain ⟨-, hvalue⟩ := hleft x hx
  have hroom := hpos _ hvalue
  refine ⟨?_, ?_⟩
  · rw [count_grant (fresh_none hdated.fresh)]
    split_ifs <;> omega
  · intro id g hg hid
    rcases (GoMap.moves_store ledger granted ⟨now, r⟩).cases hg with ⟨-, hnew⟩ | ⟨-, hold⟩
    · cases hnew
      rw [htaken, hvalue, Option.any_some]
      exact decide_eq_true hroom
    · exact hall id g hold hid

theorem Covered.refund (h : Covered ledger set taken) (hg : ledger.load id = some g) :
    Covered (ledger.delete id) set taken := by
  intro x hx
  obtain ⟨hle, hall⟩ := h x hx
  refine ⟨?_, ?_⟩
  · rw [count_refund hg]
    split_ifs <;> omega
  · intro id' g' hg' hid
    rcases (GoMap.moves_delete ledger id).cases hg' with ⟨-, hnone⟩ | ⟨-, hold⟩
    · cases hnone
    · exact hall id' g' hold hid

theorem Covered.calibrate (h : Covered ledger set taken) {said : Option ℤ}
    (hfresh : ∀ id g, ledger.load id = some g → id < granted)
    (hsaid : ∀ n, said = some n → 0 ≤ n) :
    Covered ledger (setCredit said granted set) taken := by
  intro x hx
  rcases setCredit_cases hx with ⟨value, hvalue, hset⟩ | ⟨-, hset⟩
  · rw [hset]
    refine ⟨?_, ?_⟩
    · have hcount : ledger.count (Setting.since ⟨value, granted⟩) = 0 := by
        rw [GoMap.count_eq_zero_iff]
        intro id g hg
        exact decide_eq_false (Nat.not_le.mpr (hfresh id g hg))
      rw [hcount]
      exact hsaid value hvalue
    · intro id g hg hid
      exact absurd (hfresh id g hg) (Nat.not_lt.mpr hid)
  · exact h x hset

end RenoP.Mail
