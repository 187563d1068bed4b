import RenoP.Traffic.Bucket

/-!
# Quota over a period

The bytes that a bucket grants in a period, against the limits of its tier.
-/

namespace RenoP.Traffic

inductive Call where
  | checkAndDeductAtomic (now requiredBytes : ℤ)
  | refundAtomic (now refundBytes : ℤ)
  | snapshot (now : ℤ)

def Call.now : Call → ℤ
  | .checkAndDeductAtomic now _ | .refundAtomic now _ | .snapshot now => now

def next (tier : EffectiveTier) (b : Bucket) : Call → Bucket
  | .checkAndDeductAtomic now requiredBytes => (b.checkAndDeductAtomic now tier requiredBytes).2
  | .refundAtomic now refundBytes => b.refundAtomic now tier refundBytes
  | .snapshot now => (b.snapshot now tier).2

def netGranted (tier : EffectiveTier) (b : Bucket) : Call → ℤ
  | .checkAndDeductAtomic now requiredBytes =>
    if (b.checkAndDeductAtomic now tier requiredBytes).1 then max 0 requiredBytes else 0
  | .refundAtomic _ refundBytes => -max 0 refundBytes
  | .snapshot _ => 0

variable {b b' : Bucket} {tier : EffectiveTier} {now : ℤ} {w : Window}

theorem topUp_le {enabled : Bool} {limit remaining bytes : ℤ} (hbytes : 0 ≤ bytes) :
    topUp enabled limit remaining bytes ≤ remaining + bytes := by
  unfold topUp
  split_ifs
  · exact min_le_right _ _
  · omega

theorem topUp_range {enabled : Bool} {limit remaining bytes : ℤ} (hbytes : 0 ≤ bytes)
    (hlow : 0 ≤ remaining) (hhigh : remaining ≤ limit) :
    0 ≤ topUp enabled limit remaining bytes ∧ topUp enabled limit remaining bytes ≤ limit := by
  unfold topUp
  split_ifs
  · omega
  · exact ⟨hlow, hhigh⟩

def InRange (tier : EffectiveTier) (w : Window) (b : Bucket) : Prop :=
  0 ≤ b.remaining w ∧ b.remaining w ≤ tier.limit w

theorem inRange_updateLazy (hlimited : tier.unlimited = false) (hlimit : 0 ≤ tier.limit w)
    (h : InRange tier w b) : InRange tier w (b.updateLazy now tier) := by
  unfold InRange at h ⊢
  rcases updateLazy_cases b now w hlimited with
    ⟨-, hrem, -⟩ | ⟨-, hrecovers, ⟨hsame, -⟩ | ⟨steps, hpos, -, hrem, -⟩⟩ | ⟨-, -, hwindow⟩
  · rw [hrem]
    exact ⟨hlimit, Int.le_refl _⟩
  · rw [hsame]
    exact h
  · rw [hrem]
    have hbytes := Int.mul_pos hpos hrecovers.1
    exact topUp_range (Int.le_of_lt hbytes) h.1 h.2
  · have hrem := congrArg Prod.fst hwindow
    dsimp only at hrem
    rw [hrem]
    unfold resetWindow
    split_ifs
    · exact ⟨hlimit, Int.le_refl _⟩
    · exact h

structure After (tier : EffectiveTier) (w : Window) (b₁ b' : Bucket) (net : ℤ) : Prop where
  remaining : net + b'.remaining w ≤ b₁.remaining w
  range : InRange tier w b₁ → InRange tier w b'
  recovered : b'.lastRecoveredAt = b₁.lastRecoveredAt
  start : b'.windowStart w = b₁.windowStart w
  initialized : b'.initialized = b₁.initialized

theorem after_refl (tier : EffectiveTier) (w : Window) (b : Bucket) : After tier w b b 0 :=
  ⟨Int.le_of_eq (Int.zero_add _), id, rfl, rfl, rfl⟩

theorem checkAndDeductAtomic_cases (b : Bucket) (now : ℤ) {requiredBytes : ℤ}
    (henabled : tier.enabled w = true) (hlimited : tier.unlimited = false)
    (hpos : 0 < requiredBytes) :
    ((b.checkAndDeductAtomic now tier requiredBytes).1 = false ∧
        (b.checkAndDeductAtomic now tier requiredBytes).2 = b.updateLazy now tier) ∨
      ((b.checkAndDeductAtomic now tier requiredBytes).1 = true ∧
        After tier w (b.updateLazy now tier) (b.checkAndDeductAtomic now tier requiredBytes).2
          requiredBytes) := by
  unfold Bucket.checkAndDeductAtomic
  rw [if_neg (by rw [hlimited]; decide), if_neg (Int.not_le.mpr hpos)]
  dsimp only
  split_ifs with hhour hday hmonth
  · exact Or.inl ⟨rfl, rfl⟩
  · exact Or.inl ⟨rfl, rfl⟩
  · exact Or.inl ⟨rfl, rfl⟩
  · right
    have henough : requiredBytes ≤ (b.updateLazy now tier).remaining w := by
      apply Int.not_lt.mp
      intro hless
      have hshort := Int.sub_neg_of_lt hless
      cases w with
      | hour => exact hhour ⟨henabled, hshort⟩
      | day => exact hday ⟨henabled, hshort⟩
      | month => exact hmonth ⟨henabled, hshort⟩
    refine ⟨rfl, ?_⟩
    constructor
    · rw [remaining_deduct, if_pos henabled]
      omega
    · intro hrange
      unfold InRange at hrange ⊢
      rw [remaining_deduct, if_pos henabled]
      omega
    · rfl
    · exact windowStart_deduct _ _ _ _
    · rfl

theorem next_cases (b : Bucket) (call : Call) (henabled : tier.enabled w = true)
    (hlimited : tier.unlimited = false) :
    (next tier b call = b ∧ netGranted tier b call = 0) ∨
      After tier w (b.updateLazy call.now tier) (next tier b call) (netGranted tier b call) := by
  cases call with
  | checkAndDeductAtomic now requiredBytes =>
    simp only [next, netGranted, Call.now]
    by_cases hpos : 0 < requiredBytes
    · right
      rcases checkAndDeductAtomic_cases b now henabled hlimited hpos with
        ⟨hresult, hbucket⟩ | ⟨hresult, hafter⟩
      · rw [hresult, hbucket]
        exact after_refl tier w _
      · rw [hresult, if_pos rfl, max_eq_right (Int.le_of_lt hpos)]
        exact hafter
    · left
      have hle := Int.not_lt.mp hpos
      unfold Bucket.checkAndDeductAtomic
      rw [if_neg (by rw [hlimited]; decide), if_pos hle, if_pos rfl, max_eq_left hle]
      exact ⟨rfl, rfl⟩
  | refundAtomic now refundBytes =>
    simp only [next, netGranted, Call.now, Bucket.refundAtomic]
    split_ifs with hnone
    · left
      have hle := hnone.resolve_left (by rw [hlimited]; decide)
      rw [max_eq_left hle]
      exact ⟨rfl, rfl⟩
    · right
      have hpos := Int.not_le.mp (not_or.mp hnone).2
      constructor
      · rw [remaining_addBytes, max_eq_right (Int.le_of_lt hpos)]
        have hle := @topUp_le (tier.enabled w) (tier.limit w)
          ((b.updateLazy now tier).remaining w) _ (Int.le_of_lt hpos)
        omega
      · intro hrange
        unfold InRange
        rw [remaining_addBytes]
        exact topUp_range (Int.le_of_lt hpos) hrange.1 hrange.2
      · rfl
      · exact windowStart_addBytes _ _ _ _
      · rfl
  | snapshot now =>
    right
    simp only [next, netGranted, Call.now, Bucket.snapshot]
    rw [if_neg (by rw [hlimited]; decide)]
    exact after_refl tier w _

theorem inRange_next (hlimited : tier.unlimited = false) (henabled : tier.enabled w = true)
    (hlimit : 0 ≤ tier.limit w) (call : Call) (h : InRange tier w b) :
    InRange tier w (next tier b call) := by
  rcases next_cases b call henabled hlimited with ⟨hsame, -⟩ | hafter
  · rw [hsame]
    exact h
  · exact hafter.range (inRange_updateLazy hlimited hlimit h)

/-- What a window can still grant until `ending`, its recovery included. -/
def recoverable (tier : EffectiveTier) (w : Window) (ending : ℤ) (b : Bucket) : ℤ :=
  b.remaining w +
    tier.recoveryAmountBytes * max 0 ((ending - b.lastRecoveredAt) / tier.recoveryIntervalMs)

def recoveringBound (tier : EffectiveTier) (w : Window) (length : ℤ) : ℤ :=
  tier.limit w + tier.recoveryAmountBytes * (length / tier.recoveryIntervalMs + 1)

theorem recoverable_updateLazy (hlimited : tier.unlimited = false) (hrecovers : tier.Recovers)
    {ending : ℤ} (hnow : now ≤ ending) (hinit : b.initialized = true) :
    recoverable tier w ending (b.updateLazy now tier) ≤ recoverable tier w ending b := by
  have hinterval : 0 < tier.recoveryIntervalMs := Int.mul_pos hrecovers.2 (by decide)
  rcases updateLazy_cases b now w hlimited with
    ⟨hnew, -⟩ | ⟨-, -, ⟨hsame, -⟩ | ⟨steps, hpos, hsteps, hrem, hat⟩⟩ | ⟨-, hnot, -⟩
  · rw [hinit] at hnew
    cases hnew
  · rw [hsame]
  · unfold recoverable
    rw [hrem, hat]
    have hquotient : (ending - (b.lastRecoveredAt + steps * tier.recoveryIntervalMs)) /
        tier.recoveryIntervalMs =
        (ending - b.lastRecoveredAt) / tier.recoveryIntervalMs - steps := by
      have hdiff : ending - (b.lastRecoveredAt + steps * tier.recoveryIntervalMs) =
          ending - b.lastRecoveredAt + (-steps) * tier.recoveryIntervalMs := by
        rw [Int.neg_mul]
        omega
      rw [hdiff, Int.add_mul_ediv_right _ _ (Int.ne_of_gt hinterval)]
      omega
    have hle : steps ≤ (ending - b.lastRecoveredAt) / tier.recoveryIntervalMs := by
      rw [hsteps]
      exact Int.ediv_le_ediv hinterval (by omega)
    have htop := @topUp_le (tier.enabled w) (tier.limit w) (b.remaining w) _
      (Int.le_of_lt (Int.mul_pos hpos hrecovers.1))
    rw [hquotient, max_eq_right (by omega), max_eq_right (by omega), Int.mul_sub,
      Int.mul_comm tier.recoveryAmountBytes steps]
    omega
  · exact absurd hrecovers hnot

theorem updateLazy_recent (hlimited : tier.unlimited = false) (hrecovers : tier.Recovers) :
    now - (b.updateLazy now tier).lastRecoveredAt < tier.recoveryIntervalMs := by
  have hinterval : 0 < tier.recoveryIntervalMs := Int.mul_pos hrecovers.2 (by decide)
  rcases updateLazy_cases b now .hour hlimited with
    ⟨-, -, hat, -⟩ | ⟨-, -, ⟨hsame, hearly⟩ | ⟨steps, -, hsteps, -, hat⟩⟩ | ⟨-, hnot, -⟩
  · rw [hat]
    omega
  · rw [hsame]
    exact hearly
  · have hless := Int.lt_ediv_add_one_mul_self (now - b.lastRecoveredAt) hinterval
    rw [← hsteps, Int.add_mul] at hless
    rw [hat]
    omega
  · exact absurd hrecovers hnot

theorem recoverable_le_bound (hlimited : tier.unlimited = false) (hrecovers : tier.Recovers)
    (hlimit : 0 ≤ tier.limit w) (hrange : InRange tier w b) {start length : ℤ}
    (hlength : 0 ≤ length) (hstart : start ≤ now) :
    recoverable tier w (start + length) (b.updateLazy now tier) ≤ recoveringBound tier w length := by
  have hinterval : 0 < tier.recoveryIntervalMs := Int.mul_pos hrecovers.2 (by decide)
  have hrecent := @updateLazy_recent b tier now hlimited hrecovers
  have hhigh := (@inRange_updateLazy b tier now w hlimited hlimit hrange).2
  have hsteps : (start + length - (b.updateLazy now tier).lastRecoveredAt) /
      tier.recoveryIntervalMs ≤ length / tier.recoveryIntervalMs + 1 := by
    rw [← Int.add_mul_ediv_right length 1 (Int.ne_of_gt hinterval)]
    exact Int.ediv_le_ediv hinterval (by omega)
  have hnonneg := Int.ediv_nonneg hlength (Int.le_of_lt hinterval)
  have hmax : max 0 ((start + length - (b.updateLazy now tier).lastRecoveredAt) /
      tier.recoveryIntervalMs) ≤ length / tier.recoveryIntervalMs + 1 := max_le (by omega) hsteps
  unfold recoverable recoveringBound
  have hbytes := Int.mul_le_mul_of_nonneg_left hmax (Int.le_of_lt hrecovers.1)
  omega

/-- The potential of rolling recovery in a period. A bucket that has been idle has long recovered
bytes that its limit cuts off, so the bound of the period limits what it can recover. -/
def rollingCredit (tier : EffectiveTier) (w : Window) (start length : ℤ) (b : Bucket) : ℤ :=
  if b.initialized then
    min (recoverable tier w (start + length) b) (recoveringBound tier w length)
  else recoveringBound tier w length

theorem rollingCredit_next (hlimited : tier.unlimited = false) (henabled : tier.enabled w = true)
    (hlimit : 0 ≤ tier.limit w) (hrecovers : tier.Recovers) {start length : ℤ}
    (hlength : 0 ≤ length) {call : Call} (hrange : InRange tier w b)
    (hcall : start ≤ call.now ∧ call.now ≤ start + length) :
    netGranted tier b call + rollingCredit tier w start length (next tier b call) ≤
      rollingCredit tier w start length b := by
  rcases next_cases b call henabled hlimited with ⟨hsame, hnet⟩ | hafter
  · rw [hsame, hnet]
    omega
  · have hbound := recoverable_le_bound hlimited hrecovers hlimit hrange hlength hcall.1
    have hinit := updateLazy_initialized b call.now hlimited
    have hbefore : recoverable tier w (start + length) (b.updateLazy call.now tier) ≤
        rollingCredit tier w start length b := by
      unfold rollingCredit
      split_ifs with hold
      · exact le_min (recoverable_updateLazy hlimited hrecovers hcall.2 hold) hbound
      · exact hbound
    have hleft : netGranted tier b call + recoverable tier w (start + length) (next tier b call) ≤
        recoverable tier w (start + length) (b.updateLazy call.now tier) := by
      have hremaining := hafter.remaining
      unfold recoverable
      rw [hafter.recovered]
      omega
    have hcredit : rollingCredit tier w start length (next tier b call) ≤
        recoverable tier w (start + length) (next tier b call) := by
      unfold rollingCredit
      rw [hafter.initialized, hinit, if_pos rfl]
      exact min_le_left _ _
    omega

/-- The potential of fixed windows in a period: what is left, and the limit while the window can
still be reset. -/
def fixedCredit (tier : EffectiveTier) (w : Window) (ending : ℤ) (b : Bucket) : ℤ :=
  if b.initialized then
    b.remaining w + if b.windowStart w + w.length ≤ ending then tier.limit w else 0
  else tier.limit w

theorem fixedCredit_next (hlimited : tier.unlimited = false) (henabled : tier.enabled w = true)
    (hfixed : ¬tier.Recovers) {start length : ℤ}
    (hlength : length < w.length) {call : Call} (hrange : InRange tier w b)
    (hcall : start ≤ call.now ∧ call.now ≤ start + length) :
    netGranted tier b call + fixedCredit tier w (start + length) (next tier b call) ≤
      fixedCredit tier w (start + length) b := by
  rcases next_cases b call henabled hlimited with ⟨hsame, hnet⟩ | hafter
  · rw [hsame, hnet]
    omega
  · have hinit := updateLazy_initialized b call.now hlimited
    have hremaining := hafter.remaining
    have hlow := hrange.1
    have hupdate : fixedCredit tier w (start + length) (b.updateLazy call.now tier) ≤
        fixedCredit tier w (start + length) b := by
      unfold fixedCredit
      rw [hinit, if_pos rfl]
      rcases updateLazy_cases b call.now w hlimited with
        ⟨hnew, hrem, -, hstart⟩ | ⟨-, hrecovers, -⟩ | ⟨hold, -, hwindow⟩
      · rw [hrem, hstart, hnew, if_neg Bool.false_ne_true, if_neg (by omega)]
        omega
      · exact absurd hrecovers hfixed
      · obtain ⟨hrem, hstart⟩ := Prod.ext_iff.mp hwindow
        dsimp only at hrem hstart
        rw [hrem, hstart, hold, if_pos rfl]
        by_cases hreset : w.length ≤ call.now - b.windowStart w
        · simp only [resetWindow, if_pos hreset]
          rw [if_neg (by omega), if_pos (by omega)]
          omega
        · simp only [resetWindow, if_neg hreset]
          exact Int.le_refl _
    have hnext : fixedCredit tier w (start + length) (next tier b call) =
        fixedCredit tier w (start + length) (b.updateLazy call.now tier) -
          ((b.updateLazy call.now tier).remaining w - (next tier b call).remaining w) := by
      unfold fixedCredit
      rw [hafter.initialized, hinit, hafter.start, if_pos rfl, if_pos rfl]
      omega
    omega

theorem inRange_run (hlimited : tier.unlimited = false) (henabled : tier.enabled w = true)
    (hlimit : 0 ≤ tier.limit w) (calls : List Call) (h : InRange tier w b) :
    InRange tier w (calls.foldl (next tier) b) := by
  induction calls generalizing b with
  | nil => exact h
  | cons call calls ih => exact ih (inRange_next hlimited henabled hlimit call h)

/-- In every run of a tier with limits, whatever its clocks say, what is left of a window is within
its limit, and a period grants no more than a limit and what recovers in it, or than two limits of
a fixed window. -/
theorem quota_enforced (tier : EffectiveTier) (w : Window) (hlimited : tier.unlimited = false)
    (henabled : tier.enabled w = true) (hlimit : 0 ≤ tier.limit w) (before during : List Call)
    (b : Bucket) (hb : b = before.foldl (next tier) .new) :
    (0 ≤ b.remaining w ∧ b.remaining w ≤ tier.limit w) ∧
      ∀ (start : ℤ) (length : ℕ),
        (∀ call ∈ during, start ≤ call.now ∧ call.now ≤ start + length) →
          (tier.Recovers → Runs.total (next tier) (netGranted tier) b during ≤
            tier.limit w + tier.recoveryAmountBytes * (length / tier.recoveryIntervalMs + 1)) ∧
          (¬tier.Recovers → length < w.length →
            Runs.total (next tier) (netGranted tier) b during ≤ 2 * tier.limit w) := by
  have hnew : InRange tier w .new := by
    cases w with
    | hour => exact ⟨Int.le_refl _, hlimit⟩
    | day => exact ⟨Int.le_refl _, hlimit⟩
    | month => exact ⟨Int.le_refl _, hlimit⟩
  have hrange : InRange tier w b := by
    rw [hb]
    exact inRange_run hlimited henabled hlimit before hnew
  refine ⟨hrange, ?_⟩
  intro start length hperiod
  have hlength : (0 : ℤ) ≤ length := Int.natCast_nonneg length
  constructor
  · intro hrecovers
    have hinterval : 0 < tier.recoveryIntervalMs := Int.mul_pos hrecovers.2 (by decide)
    have hrun : InRange tier w (during.foldl (next tier) b) ∧
        Runs.total (next tier) (netGranted tier) b during +
          rollingCredit tier w start length (during.foldl (next tier) b) ≤
        rollingCredit tier w start length b :=
      Runs.total_le_of_potential
        (fun s call hs hcall => ⟨inRange_next hlimited henabled hlimit call hs,
          rollingCredit_next hlimited henabled hlimit hrecovers hlength hs hcall⟩) hrange hperiod
    obtain ⟨hend, htotal⟩ := hrun
    have hcredit : rollingCredit tier w start length b ≤ recoveringBound tier w length := by
      unfold rollingCredit
      split_ifs
      · exact min_le_right _ _
      · exact Int.le_refl _
    have hleft : 0 ≤ rollingCredit tier w start length (during.foldl (next tier) b) := by
      have hbound : 0 ≤ recoveringBound tier w length := by
        unfold recoveringBound
        have hsteps := Int.ediv_nonneg hlength (Int.le_of_lt hinterval)
        have hbytes := Int.mul_nonneg (Int.le_of_lt hrecovers.1) (Int.le_add_one hsteps)
        omega
      have hrecoverable : 0 ≤ recoverable tier w (start + length) (during.foldl (next tier) b) :=
        Int.add_nonneg hend.1 (Int.mul_nonneg (Int.le_of_lt hrecovers.1) (le_max_left _ _))
      unfold rollingCredit
      split_ifs
      · exact le_min hrecoverable hbound
      · exact hbound
    unfold recoveringBound at hcredit
    omega
  · intro hfixed hshort
    have hrun : InRange tier w (during.foldl (next tier) b) ∧
        Runs.total (next tier) (netGranted tier) b during +
          fixedCredit tier w (start + length) (during.foldl (next tier) b) ≤
        fixedCredit tier w (start + length) b :=
      Runs.total_le_of_potential
        (fun s call hs hcall => ⟨inRange_next hlimited henabled hlimit call hs,
          fixedCredit_next hlimited henabled hfixed hshort hs hcall⟩) hrange hperiod
    obtain ⟨hend, htotal⟩ := hrun
    have hcredit : fixedCredit tier w (start + length) b ≤ 2 * tier.limit w := by
      have hhigh := hrange.2
      unfold fixedCredit
      split_ifs
      · omega
      · omega
      · omega
    have hleft : 0 ≤ fixedCredit tier w (start + length) (during.foldl (next tier) b) := by
      have hlow := hend.1
      unfold fixedCredit
      split_ifs
      · omega
      · omega
      · omega
    omega

def smallTier : EffectiveTier := ⟨10, 0, 0, 2, 1, true, false, false, false⟩

def smallCalls : List Call :=
  [.checkAndDeductAtomic 5 10, .refundAtomic 900 4, .checkAndDeductAtomic 1500 6]

theorem smallTier_quota :
    Runs.total (next smallTier) (netGranted smallTier) .new smallCalls ≤
      smallTier.limit .hour + smallTier.recoveryAmountBytes *
        ((1500 : ℕ) / smallTier.recoveryIntervalMs + 1) :=
  ((quota_enforced smallTier .hour rfl rfl (by decide) [] smallCalls .new rfl).2 0 1500
    (by unfold smallCalls; decide)).1 (by decide)

def openTier : EffectiveTier := ⟨0, 0, 0, 1, 1, true, true, true, true⟩

/-- A tier without limits grants what is asked. -/
theorem openTier_exceeds :
    openTier.Recovers ∧ openTier.enabled .hour = true ∧
      ¬Runs.total (next openTier) (netGranted openTier) .new [.checkAndDeductAtomic 0 5] ≤
        openTier.limit .hour + openTier.recoveryAmountBytes *
          ((0 : ℕ) / openTier.recoveryIntervalMs + 1) := by
  decide

end RenoP.Traffic
