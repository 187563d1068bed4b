import RenoP.RateLimit.Gate

/-!
# Runs of an admission gate

The answers of a gate against those of one that never deletes an entry, and what it admits.
-/

namespace RenoP.RateLimit

open TokenBucket (level)

variable {Key : Type} [DecidableEq Key]

namespace Gate

def run (g : Gate Key) (calls : List (Key × ℤ)) : Gate Key :=
  calls.foldl (fun g c => (g.allowAt c.1 c.2).2) g

def answers (g : Gate Key) : List (Key × ℤ) → List ℤ
  | [] => []
  | c :: cs => (g.allowAt c.1 c.2).1 :: (g.allowAt c.1 c.2).2.answers cs

def keptAnswers (g : Gate Key) : List (Key × ℤ) → List ℤ
  | [] => []
  | c :: cs => (g.keepAt c.1 c.2).1 :: (g.keepAt c.1 c.2).2.keptAnswers cs

def NeverRefuses (g : Gate Key) : List (Key × ℤ) → Prop
  | [] => True
  | c :: cs => ¬g.Refuses c.1 c.2 ∧ (g.allowAt c.1 c.2).2.NeverRefuses cs

instance (g : Gate Key) (key : Key) (now : ℤ) : Decidable (g.Refuses key now) := instDecidableAnd

instance decidableNeverRefuses (g : Gate Key) :
    ∀ calls : List (Key × ℤ), Decidable (g.NeverRefuses calls)
  | [] => isTrue trivial
  | c :: cs => @instDecidableAnd _ _ inferInstance
      (decidableNeverRefuses (g.allowAt c.1 c.2).2 cs)

def admissions (key : Key) (g : Gate Key) : List (Key × ℤ) → ℕ
  | [] => 0
  | c :: cs => (if c.1 = key ∧ ¬g.Refuses c.1 c.2 ∧ (g.allowAt c.1 c.2).1 = 0 then 1 else 0) +
      (g.allowAt c.1 c.2).2.admissions key cs

end Gate

variable {g k : Gate Key} {key key' : Key} {t u now : ℤ}

theorem allowAt_cases (g : Gate Key) (key : Key) (now : ℤ) :
    (¬g.Refuses key now ∧ g.allowAt key now =
      (g.prune now).serve ((g.prune now).bucket key) key now) ∨
      (g.Refuses key now ∧
        (g.allowAt key now).2.entries = (g.prune now).entries ∧
        (g.allowAt key now).2.limit = g.limit ∧ (g.allowAt key now).2.burst = g.burst ∧
        (g.allowAt key now).2.capacity = g.capacity) := by
  have hlimits := prune_limits g now
  cases hload : (g.prune now).entries.load key with
  | some current =>
    left
    refine ⟨fun h => ?_, ?_⟩
    · rw [h.1] at hload
      cases hload
    · simp only [Gate.allowAt, Gate.bucket, hload]
  | none =>
    by_cases hroom : ((g.prune now).entries.size : ℤ) < (g.prune now).capacity
    · left
      refine ⟨fun h => absurd hroom (Int.not_lt.mpr h.2), ?_⟩
      simp only [Gate.allowAt, Gate.bucket, hload, if_pos hroom]
    · right
      refine ⟨⟨hload, Int.not_lt.mp hroom⟩, ?_⟩
      simp only [Gate.allowAt, hload, if_neg hroom]
      exact ⟨trivial, hlimits⟩

omit [DecidableEq Key] in
theorem delay_eq_zero (g : Gate Key) (allowed : Bool × Limiter) (now : ℤ) :
    g.delay allowed now = 0 ↔ allowed.1 = true := by
  unfold Gate.delay
  split_ifs with h
  · exact ⟨fun _ => h, fun _ => rfl⟩
  · refine iff_of_false (fun hzero => ?_) h
    have hle : millisecond ≤ 0 := hzero ▸ le_max_left millisecond _
    exact absurd hle (by decide)

theorem settled_bucket (h : Sound t g) (ht : t ≤ now) (key : Key) :
    (g.allowN (g.bucket key) now).2.Settled (seconds now) := by
  unfold Gate.allowN Gate.bucket
  cases hload : g.entries.load key with
  | none =>
    have hburst : (1 : ℚ) ≤ g.burst := by exact_mod_cast g.burst_pos
    simp only [TokenBucket.take_full g.limit_pos.le hburst]
    exact ⟨sub_nonneg.mpr hburst, le_rfl⟩
  | some entry =>
    obtain ⟨hseen, hsettled⟩ := h key entry hload
    exact TokenBucket.settled_take hsettled (seconds_mono (hseen.trans ht))

theorem sound_allowAt (h : Sound t g) (ht : t ≤ now) (key : Key) :
    Sound now (g.allowAt key now).2 := by
  have hprune : Sound t (g.prune now) := sound_prune h
  intro key' entry hload
  rcases allowAt_cases g key now with ⟨-, hcall⟩ | ⟨-, hentries, -⟩
  · rw [hcall, Gate.serve, GoMap.load_store] at hload
    split_ifs at hload with hkey
    · cases hload
      exact ⟨le_rfl, settled_bucket hprune ht key⟩
    · obtain ⟨hseen, hsettled⟩ := hprune key' entry hload
      exact ⟨hseen.trans ht, hsettled⟩
  · rw [hentries] at hload
    obtain ⟨hseen, hsettled⟩ := hprune key' entry hload
    exact ⟨hseen.trans ht, hsettled⟩

theorem limits_allowAt (g : Gate Key) (key : Key) (now : ℤ) :
    (g.allowAt key now).2.limit = g.limit ∧ (g.allowAt key now).2.burst = g.burst := by
  obtain ⟨hlimit, hburst, -⟩ := prune_limits g now
  rcases allowAt_cases g key now with ⟨-, hcall⟩ | ⟨-, -, hlimit', hburst', -⟩
  · rw [hcall]
    exact ⟨hlimit, hburst⟩
  · exact ⟨hlimit', hburst'⟩

theorem size_allowAt (key : Key) (now : ℤ) (h : (g.entries.size : ℤ) ≤ g.capacity) :
    ((g.allowAt key now).2.entries.size : ℤ) ≤ (g.allowAt key now).2.capacity ∧
      (g.allowAt key now).2.capacity = g.capacity := by
  obtain ⟨-, -, hcapacity⟩ := prune_limits g now
  have hprune : ((g.prune now).entries.size : ℤ) ≤ (g.prune now).capacity := by
    have hsize := size_prune g now
    rw [hcapacity]
    omega
  rcases allowAt_cases g key now with ⟨hroom, hcall⟩ | ⟨-, hentries, -, -, hsame⟩
  · rw [hcall]
    refine ⟨?_, hcapacity⟩
    unfold Gate.Refuses at hroom
    rw [Gate.serve, GoMap.size_store]
    dsimp only
    cases hload : (g.prune now).entries.load key with
    | some current =>
      rw [(GoMap.has_eq_true ..).mpr ⟨current, hload⟩, if_pos rfl]
      omega
    | none =>
      rw [(GoMap.has_eq_false ..).mpr hload, if_neg Bool.false_ne_true]
      have hless := Int.not_le.mp fun hfull => hroom ⟨hload, hfull⟩
      omega
  · rw [hentries, hsame, ← hcapacity]
    exact ⟨hprune, rfl⟩

theorem size_run (calls : List (Key × ℤ)) (h : (g.entries.size : ℤ) ≤ g.capacity) :
    ((g.run calls).entries.size : ℤ) ≤ g.capacity := by
  induction calls generalizing g with
  | nil => exact h
  | cons c cs ih =>
    obtain ⟨hsize, hcapacity⟩ := size_allowAt c.1 c.2 h
    rw [← hcapacity]
    exact ih hsize

def Simulates (t : ℤ) (g k : Gate Key) : Prop :=
  k.limit = g.limit ∧ k.burst = g.burst ∧ ∀ key, g.Agree t (g.bucket key) (k.bucket key)

theorem simulates_call (hsound : Sound t g) (h : Simulates t g k) (ht : t ≤ now)
    (hroom : ¬g.Refuses key now) :
    (g.allowAt key now).1 = (k.keepAt key now).1 ∧
      Simulates now (g.allowAt key now).2 (k.keepAt key now).2 := by
  obtain ⟨hlimit, hburst, hagree⟩ := h
  obtain ⟨hlimit', hburst', -⟩ := prune_limits g now
  rcases allowAt_cases g key now with ⟨-, hcall⟩ | ⟨hrefuses, -⟩
  · have hbuckets : ∀ key, TokenBucket.Agree g.limit g.burst (seconds now)
        ((g.prune now).bucket key) (k.bucket key) := fun key =>
      (bucket_prune hsound ht key).trans ((hagree key).later (seconds_mono ht))
    obtain ⟨hallowed, hafter⟩ := TokenBucket.agree_take (hbuckets key)
    rw [hcall, keepAt_eq]
    refine ⟨?_, hlimit.trans hlimit'.symm, hburst.trans hburst'.symm, ?_⟩
    · rw [serve_answer, serve_answer, allowN_congr hlimit hburst, allowN_congr hlimit' hburst', delay_congr hlimit hburst,
        delay_congr hlimit' hburst']
      unfold Gate.delay Gate.allowN
      rw [hallowed, hafter _ le_rfl]
    · intro key'
      rw [bucket_serve, bucket_serve, allowN_congr hlimit hburst, allowN_congr hlimit' hburst']
      show TokenBucket.Agree (g.prune now).limit (g.prune now).burst _ _ _
      rw [hlimit', hburst']
      split_ifs
      · exact hafter
      · exact hbuckets key'
  · exact absurd hrefuses hroom

theorem answers_eq {calls : List (Key × ℤ)} (hsound : Sound t g) (h : Simulates t g k)
    (ht : ∀ c ∈ calls, t ≤ c.2) (hordered : calls.Pairwise fun c d => c.2 ≤ d.2)
    (hroom : g.NeverRefuses calls) : g.answers calls = k.keptAnswers calls := by
  induction calls generalizing g k t with
  | nil => rfl
  | cons c cs ih =>
    obtain ⟨hrefuses, hrest⟩ := hroom
    obtain ⟨hlater, hordered⟩ := List.pairwise_cons.mp hordered
    have hc := ht c (List.mem_cons_self ..)
    obtain ⟨hanswer, hafter⟩ := simulates_call hsound h hc hrefuses
    unfold Gate.answers Gate.keptAnswers
    rw [hanswer, ih (sound_allowAt hsound hc c.1) hafter hlater hordered hrest]

def credit (g : Gate Key) (key : Key) (t : ℤ) : ℚ :=
  (g.bucket key).level g.limit g.burst (seconds t)

theorem credit_nonneg (h : Sound t g) (key : Key) (u : ℤ) : 0 ≤ credit g key u := by
  have hburst : (0 : ℚ) ≤ g.burst := by exact_mod_cast Int.le_trans Int.one_nonneg g.burst_pos
  refine TokenBucket.level_nonneg g.limit_pos.le hburst ?_
  unfold Gate.bucket
  cases hload : g.entries.load key with
  | none => exact hburst
  | some entry => exact (h key entry hload).2.1

theorem credit_allowAt (hsound : Sound t g) (ht : t ≤ now) (key key' : Key) :
    credit (g.allowAt key' now).2 key now +
      (if key' = key ∧ ¬g.Refuses key' now ∧ (g.allowAt key' now).1 = 0 then 1 else 0) =
      credit g key now := by
  obtain ⟨hlimit, hburst, -⟩ := prune_limits g now
  obtain ⟨hlimit', hburst'⟩ := limits_allowAt g key' now
  have hpruned : ∀ key, ((g.prune now).bucket key).level g.limit g.burst (seconds now) =
      credit g key now := fun key => bucket_prune hsound ht key _ le_rfl
  unfold credit at hpruned ⊢
  rw [hlimit', hburst', ← hpruned]
  rcases allowAt_cases g key' now with ⟨hroom, hcall⟩ | ⟨hrefuses, hentries, -⟩
  · rw [hcall, serve_answer, bucket_serve, allowN_congr hlimit hburst]
    simp only [delay_eq_zero]
    by_cases hkey : key = key'
    · subst hkey
      have htake := @TokenBucket.level_take ℚ _ _ g.limit g.burst (seconds now)
        ((g.prune now).bucket key) _
      simpa [hroom, Gate.allowN] using htake
    · rw [if_neg hkey, if_neg fun h => hkey h.1.symm, add_zero]
  · have hbucket : (g.allowAt key' now).2.bucket key = (g.prune now).bucket key := by
      unfold Gate.bucket
      rw [hentries, hburst', hburst]
    rw [hbucket, if_neg fun h => h.2.1 hrefuses, add_zero]

theorem credit_growth (g : Gate Key) (key : Key) (h : t ≤ u) :
    credit g key u ≤ credit g key t + g.limit * seconds (u - t) := by
  rw [seconds_sub]
  exact TokenBucket.level_growth g.limit_pos.le (seconds_mono h)

theorem admissions_le (key : Key) {calls : List (Key × ℤ)} (hsound : Sound t g) (hu : t ≤ u)
    (hcalls : ∀ c ∈ calls, t ≤ c.2 ∧ c.2 ≤ u) (hordered : calls.Pairwise fun c d => c.2 ≤ d.2) :
    (g.admissions key calls : ℚ) ≤ credit g key t + g.limit * seconds (u - t) := by
  induction calls generalizing g t with
  | nil =>
    have hlater := credit_nonneg hsound key u
    have hgrowth := credit_growth g key hu
    simp only [Gate.admissions, Nat.cast_zero]
    linarith
  | cons c cs ih =>
    obtain ⟨hlater, hordered⟩ := List.pairwise_cons.mp hordered
    obtain ⟨hc, hcu⟩ := hcalls c (List.mem_cons_self ..)
    have hrest := ih (sound_allowAt hsound hc c.1) hcu
      (fun d hd => ⟨hlater d hd, (hcalls d (List.mem_cons_of_mem c hd)).2⟩) hordered
    have hcall := credit_allowAt hsound hc key c.1
    have hgrowth := credit_growth g key hc
    rw [(limits_allowAt g c.1 c.2).1] at hrest
    rw [seconds_sub, mul_sub] at hrest hgrowth ⊢
    unfold Gate.admissions
    push_cast
    linarith

theorem sound_run {calls : List (Key × ℤ)} (hsound : Sound t g) (hu : t ≤ u)
    (hcalls : ∀ c ∈ calls, t ≤ c.2 ∧ c.2 ≤ u) (hordered : calls.Pairwise fun c d => c.2 ≤ d.2) :
    Sound u (g.run calls) := by
  induction calls generalizing g t with
  | nil => exact fun key entry hload => ((hsound key entry hload).imp_left (·.trans hu))
  | cons c cs ih =>
    obtain ⟨hlater, hordered⟩ := List.pairwise_cons.mp hordered
    obtain ⟨hc, hcu⟩ := hcalls c (List.mem_cons_self ..)
    exact ih (sound_allowAt hsound hc c.1) hcu
      (fun d hd => ⟨hlater d hd, (hcalls d (List.mem_cons_of_mem c hd)).2⟩) hordered

theorem limits_run (g : Gate Key) (calls : List (Key × ℤ)) :
    (g.run calls).limit = g.limit ∧ (g.run calls).burst = g.burst := by
  induction calls generalizing g with
  | nil => exact ⟨rfl, rfl⟩
  | cons c cs ih =>
    obtain ⟨hlimit, hburst⟩ := limits_allowAt g c.1 c.2
    obtain ⟨hrest, hrest'⟩ := ih (g.allowAt c.1 c.2).2
    exact ⟨hrest.trans hlimit, hrest'.trans hburst⟩

section

variable {limit : ℚ} {burst capacity : ℤ} (hnew : new Key limit burst capacity = some g)

include hnew

omit [DecidableEq Key] in
theorem new_gate : g.entries = ∅ ∧ g.limit = limit ∧ g.burst = burst ∧ g.capacity = capacity := by
  unfold new at hnew
  split_ifs at hnew
  cases hnew
  exact ⟨rfl, rfl, rfl, rfl⟩

theorem new_sound (t : ℤ) : Sound t g := by
  intro key entry hload
  rw [(new_gate hnew).1, GoMap.load_empty] at hload
  cases hload

/-- The answers of a gate are those of one that never deletes an entry while it finds room for
every key, it keeps no more entries than its capacity, and a key is not admitted more often in a
period than its burst and the refill of the period allow. -/
theorem gate_pruning {calls : List (Key × ℤ)}
    (hordered : calls.Pairwise fun c d => c.2 ≤ d.2) :
    (g.NeverRefuses calls → g.answers calls = g.keptAnswers calls) ∧
    ((g.run calls).entries.size : ℤ) ≤ capacity ∧
    ∀ before during, calls = before ++ during → ∀ s e key, s ≤ e →
      (∀ c ∈ during, s ≤ c.2 ∧ c.2 ≤ e) →
      ((g.run before).admissions key during : ℚ) ≤ burst + limit * seconds (e - s) := by
  obtain ⟨hempty, hlimit, hburst, hcapacity⟩ := new_gate hnew
  refine ⟨?_, ?_, ?_⟩
  · intro hroom
    cases calls with
    | nil => rfl
    | cons c cs =>
      have hlater := (List.pairwise_cons.mp hordered).1
      refine answers_eq (new_sound hnew c.2) ⟨rfl, rfl, fun key => TokenBucket.Agree.refl⟩ ?_
        hordered hroom
      intro d hd
      rcases List.mem_cons.mp hd with rfl | hd
      · exact le_rfl
      · exact hlater d hd
  · rw [← hcapacity]
    refine size_run calls ?_
    rw [hempty]
    exact Int.le_trans Int.one_nonneg g.capacity_pos
  · rintro before during rfl s e key hse hduring
    obtain ⟨hbefore, hafter, hacross⟩ := List.pairwise_append.mp hordered
    obtain ⟨hlimits, hbursts⟩ := limits_run g before
    have hperiod : 0 ≤ limit * seconds (e - s) := by
      have hzero := seconds_mono (Int.sub_nonneg.mpr hse)
      rw [← hlimit]
      exact mul_nonneg g.limit_pos.le (by simpa [seconds] using hzero)
    cases during with
    | nil =>
      have hpos : (0 : ℚ) ≤ burst := by
        rw [← hburst]
        exact_mod_cast Int.le_trans Int.one_nonneg g.burst_pos
      simp only [Gate.admissions, Nat.cast_zero]
      linarith
    | cons c cs =>
      obtain ⟨hsc, hce⟩ := hduring c (List.mem_cons_self ..)
      have hsound : Sound c.2 (g.run before) := by
        cases before with
        | nil => exact new_sound hnew c.2
        | cons b bs =>
          have hb := (List.pairwise_cons.mp hbefore).1
          refine sound_run (new_sound hnew b.2)
            (hacross b (List.mem_cons_self ..) c (List.mem_cons_self ..)) ?_ hbefore
          intro d hd
          refine ⟨?_, hacross d hd c (List.mem_cons_self ..)⟩
          rcases List.mem_cons.mp hd with rfl | hd
          · exact le_rfl
          · exact hb d hd
      have hle := admissions_le key hsound hce (fun d hd => ⟨?_, (hduring d hd).2⟩) hafter
      · have hcredit : credit (g.run before) key c.2 ≤ (g.run before).burst := TokenBucket.level_le
        have hshort := mul_le_mul_of_nonneg_left (seconds_mono (Int.sub_le_sub_left hsc e))
          g.limit_pos.le
        rw [hlimits] at hle
        rw [hbursts, hburst] at hcredit
        rw [hlimit] at hle hshort
        linarith
      · rcases List.mem_cons.mp hd with rfl | hd
        · exact le_rfl
        · exact (List.pairwise_cons.mp hafter).1 d hd

end

theorem smallGate_isSome : (new ℕ 1 1 2).isSome = true := by
  simp [new]

def smallGate : Gate ℕ := (new ℕ 1 1 2).get smallGate_isSome

def smallCalls : List (ℕ × ℤ) := [(1, 0), (2, second), (2, second), (1, 361 * second)]

theorem gate_pruning_small :
    smallGate.answers smallCalls = smallGate.keptAnswers smallCalls ∧
    ((smallGate.run smallCalls).entries.size : ℤ) ≤ 2 ∧
    (smallGate.admissions 2 smallCalls : ℚ) ≤ 1 + 1 * seconds (400 * second - 0) := by
  have hall := gate_pruning (Option.some_get smallGate_isSome).symm
    (show smallCalls.Pairwise fun c d => c.2 ≤ d.2 by decide)
  refine ⟨hall.1 (by decide +kernel), hall.2.1, ?_⟩
  exact_mod_cast hall.2.2 [] smallCalls rfl 0 (400 * second) 2 (by decide) (by decide)

end RenoP.RateLimit
