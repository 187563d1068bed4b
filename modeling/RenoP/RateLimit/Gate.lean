import Mathlib.Data.Rat.Floor
import RenoP.Lib.GoMap
import RenoP.Lib.TokenBucket

/-!
# Admission gates

A `Gate` of `internal/utils/ratelimit/gate.go` with exact token buckets over the rationals. Times
and durations are nanoseconds without bound, from the zero time on. Every call holds the lock of
the gate.
-/

namespace RenoP.RateLimit

abbrev Limiter := TokenBucket ℚ

structure Entry where
  limiter : Limiter
  seen : ℤ

def second : ℤ := 1000000000

def millisecond : ℤ := 1000000

def minute : ℤ := 60 * second

def seconds (t : ℤ) : ℚ := t / second

structure Gate (Key : Type) where
  entries : GoMap Key Entry
  overflow : Limiter
  limit : ℚ
  burst : ℤ
  capacity : ℤ
  idle : ℤ
  pruneAt : ℤ
  limit_pos : 0 < limit
  burst_pos : 1 ≤ burst
  capacity_pos : 1 ≤ capacity
  /-- an idle entry is full again -/
  refills : (burst : ℚ) ≤ limit * seconds idle

theorem seconds_mono {s t : ℤ} (h : s ≤ t) : seconds s ≤ seconds t := by
  unfold seconds
  exact div_le_div_of_nonneg_right (by exact_mod_cast h) (by decide)

theorem seconds_sub (s t : ℤ) : seconds (t - s) = seconds t - seconds s := by
  unfold seconds
  push_cast
  rw [sub_div]

theorem idle_refills {limit : ℚ} (burst : ℤ) (hlimit : 0 < limit) :
    (burst : ℚ) ≤ limit * seconds (max (5 * minute) ⌈(burst : ℚ) / limit * second⌉) := by
  have hsecond : (0 : ℚ) < second := by decide
  have hceil : (burst : ℚ) / limit * second ≤
      (max (5 * minute) ⌈(burst : ℚ) / limit * second⌉ : ℤ) :=
    (Int.le_ceil _).trans (by exact_mod_cast le_max_right _ _)
  have hdiv := (le_div_iff₀ hsecond).mpr hceil
  have hmul := mul_le_mul_of_nonneg_left hdiv hlimit.le
  rwa [mul_div_cancel₀ _ hlimit.ne'] at hmul

section

variable {Key : Type} [DecidableEq Key]

/-- `New`, which panics on a limit, burst or capacity that is not positive. -/
def new (Key : Type) (limit : ℚ) (burst capacity : ℤ) : Option (Gate Key) :=
  if h : limit ≤ 0 ∨ burst < 1 ∨ capacity < 1 then none
  else some {
    entries := ∅
    overflow := TokenBucket.full burst
    limit := limit
    burst := burst
    capacity := capacity
    idle := max (5 * minute) ⌈(burst : ℚ) / limit * second⌉
    pruneAt := 0
    limit_pos := lt_of_not_ge fun hlimit => h (.inl hlimit)
    burst_pos := not_lt.mp fun hburst => h (.inr (.inl hburst))
    capacity_pos := not_lt.mp fun hcapacity => h (.inr (.inr hcapacity))
    refills := idle_refills burst (lt_of_not_ge fun hlimit => h (.inl hlimit)) }

namespace Gate

variable (g : Gate Key)

def prune (now : ℤ) : Gate Key :=
  if g.pruneAt ≤ now then
    { g with
      entries := g.entries.deleteWhere fun _ entry => decide (g.idle ≤ now - entry.seen)
      pruneAt := now + minute }
  else g

/-- `AllowN(now, 1)` of a limiter of the gate. -/
def allowN (limiter : Limiter) (now : ℤ) : Bool × Limiter :=
  limiter.take g.limit g.burst (seconds now)

def delay (allowed : Bool × Limiter) (now : ℤ) : ℤ :=
  if allowed.1 then 0
  else max millisecond
    ⌈(1 - allowed.2.level g.limit g.burst (seconds now)) / g.limit * second⌉

def serve (limiter : Limiter) (key : Key) (now : ℤ) : ℤ × Gate Key :=
  let allowed := g.allowN limiter now
  (g.delay allowed now, { g with entries := g.entries.store key ⟨allowed.2, now⟩ })

def allowAt (key : Key) (now : ℤ) : ℤ × Gate Key :=
  let g := g.prune now
  match g.entries.load key with
  | some current => g.serve current.limiter key now
  | none =>
    if (g.entries.size : ℤ) < g.capacity then g.serve (TokenBucket.full g.burst) key now
    else
      let allowed := g.allowN g.overflow now
      (g.delay allowed now, { g with overflow := allowed.2 })

def keepAt (key : Key) (now : ℤ) : ℤ × Gate Key :=
  match g.entries.load key with
  | some current => g.serve current.limiter key now
  | none => g.serve (TokenBucket.full g.burst) key now

def Refuses (key : Key) (now : ℤ) : Prop :=
  (g.prune now).entries.load key = none ∧
    (g.prune now).capacity ≤ ((g.prune now).entries.size : ℤ)

def bucket (key : Key) : Limiter :=
  match g.entries.load key with
  | some current => current.limiter
  | none => TokenBucket.full g.burst

end Gate

variable {g g' : Gate Key} {key key' : Key} {t now : ℤ}

def Gate.Agree (g : Gate Key) (t : ℤ) (b b' : Limiter) : Prop :=
  TokenBucket.Agree g.limit g.burst (seconds t) b b'

omit [DecidableEq Key] in
theorem allowN_congr (hlimit : g'.limit = g.limit) (hburst : g'.burst = g.burst) :
    g'.allowN = g.allowN := by
  unfold Gate.allowN
  rw [hlimit, hburst]

omit [DecidableEq Key] in
theorem delay_congr (hlimit : g'.limit = g.limit) (hburst : g'.burst = g.burst) :
    g'.delay = g.delay := by
  unfold Gate.delay
  rw [hlimit, hburst]

theorem serve_answer (limiter : Limiter) :
    (g.serve limiter key now).1 = g.delay (g.allowN limiter now) now := rfl

theorem bucket_serve (limiter : Limiter) :
    (g.serve limiter key now).2.bucket key' =
      if key' = key then (g.allowN limiter now).2 else g.bucket key' := by
  unfold Gate.serve Gate.bucket
  simp only [GoMap.load_store]
  split_ifs
  · rfl
  · rfl

theorem keepAt_eq : g.keepAt key now = g.serve (g.bucket key) key now := by
  unfold Gate.keepAt Gate.bucket
  cases g.entries.load key with
  | none => rfl
  | some entry => rfl

omit [DecidableEq Key] in
theorem prune_limits (g : Gate Key) (now : ℤ) : (g.prune now).limit = g.limit ∧
    (g.prune now).burst = g.burst ∧ (g.prune now).capacity = g.capacity := by
  unfold Gate.prune
  split_ifs
  · exact ⟨rfl, rfl, rfl⟩
  · exact ⟨rfl, rfl, rfl⟩

omit [DecidableEq Key] in
theorem size_prune (g : Gate Key) (now : ℤ) : (g.prune now).entries.size ≤ g.entries.size := by
  unfold Gate.prune
  split_ifs
  · exact List.length_filter_le _ _
  · exact Nat.le_refl _

def Sound (t : ℤ) (g : Gate Key) : Prop :=
  ∀ key entry, g.entries.load key = some entry →
    entry.seen ≤ t ∧ entry.limiter.Settled (seconds entry.seen)

theorem load_prune (hnow : g.pruneAt ≤ now) (key : Key) : (g.prune now).entries.load key =
    (g.entries.load key).filter fun entry => !decide (g.idle ≤ now - entry.seen) := by
  rw [Gate.prune, if_pos hnow, GoMap.load_deleteWhere]

theorem prune_cases (now : ℤ) {entry : Entry} (hload : g.entries.load key = some entry) :
    (g.prune now).entries.load key = some entry ∨
      ((g.prune now).entries.load key = none ∧ g.idle ≤ now - entry.seen) := by
  by_cases hnow : g.pruneAt ≤ now
  · rw [load_prune hnow, hload]
    by_cases hidle : g.idle ≤ now - entry.seen
    · right
      rw [Option.filter_some, decide_eq_true hidle]
      exact ⟨rfl, hidle⟩
    · left
      rw [Option.filter_some, decide_eq_false hidle]
      rfl
  · left
    rw [Gate.prune, if_neg hnow]
    exact hload

theorem prune_none (hload : g.entries.load key = none) :
    (g.prune now).entries.load key = none := by
  by_cases hnow : g.pruneAt ≤ now
  · rw [load_prune hnow, hload]
    rfl
  · rw [Gate.prune, if_neg hnow]
    exact hload

theorem load_of_prune {entry : Entry} (h : (g.prune now).entries.load key = some entry) :
    g.entries.load key = some entry := by
  cases hload : g.entries.load key with
  | none =>
    rw [prune_none hload] at h
    cases h
  | some entry' =>
    rcases prune_cases now hload with hsame | ⟨hnone, -⟩
    · rw [← hsame, h]
    · rw [hnone] at h
      cases h

theorem sound_prune (h : Sound t g) : Sound t (g.prune now) :=
  fun key entry hload => h key entry (load_of_prune hload)

theorem bucket_prune (h : Sound t g) (ht : t ≤ now) (key : Key) :
    g.Agree now ((g.prune now).bucket key) (g.bucket key) := by
  have hburst : (g.prune now).burst = g.burst := (prune_limits g now).2.1
  unfold Gate.bucket
  cases hload : g.entries.load key with
  | none =>
    rw [prune_none hload, hburst]
    exact TokenBucket.Agree.refl
  | some entry =>
    obtain ⟨hseen, hsettled⟩ := h key entry hload
    rcases prune_cases now hload with hsame | ⟨hnone, hidle⟩
    · rw [hsame]
      exact TokenBucket.Agree.refl
    · rw [hnone, hburst]
      refine (TokenBucket.agree_full g.limit_pos.le ?_).symm
      refine TokenBucket.level_refilled g.limit_pos.le hsettled
        (seconds_mono (hseen.trans ht)) (g.refills.trans ?_)
      rw [← seconds_sub]
      exact mul_le_mul_of_nonneg_left (seconds_mono hidle) g.limit_pos.le

end

end RenoP.RateLimit
