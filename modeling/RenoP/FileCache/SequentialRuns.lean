import RenoP.FileCache.AccountingRuns
import RenoP.FileCache.Sequential

/-!
# Runs of calls one after another

Each call on the file cache returns within the budgets, and what the order of a shard has beside
its entries.
-/

namespace RenoP.FileCache

variable {limits : Limits} {o : GoMap.RangeOrder Key FileCacheEntry} {protect key : Key}
  {cache cache' : Cache} {i : Fin fileCacheShardCount} {evicted : Bool}

def Limits.fits (limits : Limits) (key : Key) (value : List UInt8) : Prop :=
  value.length ≤ limits.maxBytes ∧ key.length ≤ limits.maxMetadata - fileCacheEntryMetadata

structure Cache.Sound (limits : Limits) (cache : Cache) : Prop extends cache.Counted where
  within : ∀ c, cache.counter c ≤ limits.of c

theorem Cache.Sound.delete (h : cache.Sound limits) (key : Key) :
    (cache.delete limits key).Sound limits := by
  refine ⟨h.toCounted.delete key, fun c => ?_⟩
  unfold Cache.delete
  split_ifs with hoff
  · exact h.within c
  · have hadds := total_nonpos (delete_nonpos (cache.shards (shardOf key)) key) c
    have hwithin := h.within c
    rw [counter_hold]
    omega

theorem load_set (s : Shard) (key : Key) (entry : FileCacheEntry) :
    (s.set key entry).1.entries.load key = some entry := by
  unfold Shard.set
  split <;> exact GoMap.load_store_self s.entries key entry

theorem Cache.Sound.set (h : cache.Sound limits) (key : Key) (value : List UInt8)
    (o : GoMap.RangeOrder Key FileCacheEntry) :
    ∃ cache', cache.set limits key value o = some cache' ∧ cache'.Sound limits ∧
      (0 < limits.maxBytes → limits.fits key value →
        (cache'.shards (shardOf key)).entries.load key = some ⟨value, value.length⟩) := by
  unfold Cache.set
  split_ifs with hoff hlarge
  · exact ⟨cache, rfl, h, fun hon => absurd hoff (Int.not_le.mpr hon)⟩
  · refine ⟨cache.delete limits key, rfl, h.delete key, fun _ hfits => ?_⟩
    have hvalue := hfits.1
    have hkey := hfits.2
    omega
  · rw [not_or, Int.not_lt, Int.not_lt] at hlarge
    have hstored := h.toCounted.store key ⟨value, value.length⟩ (cache.sets (shardOf key) + 1)
    have hload : ((cache.hold (shardOf key) ((cache.shards (shardOf key)).set key
        ⟨value, value.length⟩) (cache.sets (shardOf key) + 1)).shards (shardOf key)).entries.load
          key = some ⟨value, value.length⟩ := by
      rw [shards_hold, if_pos rfl]
      exact load_set _ key _
    generalize cache.hold (shardOf key) _ _ = stored at hstored hload
    dsimp only
    split_ifs with hover
    · have hfits : ∀ c, weight c key ⟨value, value.length⟩ ≤ limits.of c := by
        intro c
        cases c with
        | used => exact hlarge.1
        | metadata => exact Int.add_le_of_le_sub_right hlarge.2
      obtain ⟨cache', htrim, hwithin⟩ := trim_ends (o := o) hstored hload hfits (Nat.le_refl _)
      have hload' := trim_keeps (P := fun x => (x.shards (shardOf key)).entries.load key =
        some ⟨value, value.length⟩) (fun hold ht => (load_trimShard ht _).trans hold) hload htrim
      exact ⟨cache', htrim, ⟨trim_keeps Cache.Counted.trimShard hstored htrim, hwithin⟩,
        fun _ _ => hload'⟩
    · exact ⟨stored, rfl, ⟨hstored, (overBudget_eq_false_iff _ _).mp (Bool.eq_false_iff.mpr hover)⟩,
        fun _ _ => hload⟩

theorem Cache.Sound.call (h : cache.Sound limits) (call : Call) :
    ∃ cache', cache.call limits call = some cache' ∧ cache'.Sound limits := by
  cases call with
  | set key value o =>
    obtain ⟨cache', hset, hsound, -⟩ := h.set key value o
    exact ⟨cache', hset, hsound⟩
  | delete key => exact ⟨_, rfl, h.delete key⟩

/-- A `Set` that adds a key finds at most one place of it in the order, which an earlier entry has
left. -/
def Cache.fewStale (limits : Limits) (cache : Cache) : Call → Prop
  | .set key value _ => limits.fits key value →
    (cache.shards (shardOf key)).entries.has key = false →
      (cache.shards (shardOf key)).order.count key ≤ 1
  | .delete _ => True

def Cache.Short (cache : Cache) : Prop := ∀ i, (cache.shards i).Short

theorem Cache.Short.hold (h : cache.Short) {held : Shard × List Add} (hheld : held.1.Short)
    (i : Fin fileCacheShardCount) (sets : ℕ) : (cache.hold i held sets).Short := by
  intro j
  rw [shards_hold]
  split_ifs
  · exact hheld
  · exact h j

theorem Cache.Short.delete (h : cache.Short) (key : Key) : (cache.delete limits key).Short := by
  unfold Cache.delete
  split_ifs
  · exact h
  · exact h.hold ((h _).delete key) _ _

theorem Cache.Short.trimShard (h : cache.Short)
    (ht : cache.trimShard o protect i = some (cache', evicted)) : cache'.Short := by
  obtain ⟨shard, adds, hevict, rfl⟩ := trimShard_cases ht
  exact h.hold ((h i).evictOne hevict) _ _

theorem Cache.Short.call (h : cache.Short) {call : Call} (hfew : cache.fewStale limits call)
    (hcall : cache.call limits call = some cache') : cache'.Short := by
  cases call with
  | set key value o =>
    change cache.set limits key value o = some cache' at hcall
    unfold Cache.set at hcall
    split_ifs at hcall with hoff hlarge
    · cases hcall
      exact h
    · cases hcall
      exact h.delete key
    · rw [not_or, Int.not_lt, Int.not_lt] at hlarge
      have hstored := h.hold ((h _).set ⟨value, value.length⟩ (hfew hlarge)) (shardOf key)
        (cache.sets (shardOf key) + 1)
      dsimp only at hcall
      split_ifs at hcall
      · exact trim_keeps Cache.Short.trimShard hstored hcall
      · cases hcall
        exact hstored
  | delete key =>
    cases hcall
    exact h.delete key

/-- Every `Set` of a run that adds a key finds at most one stale place of it. -/
def FewStale (maxBytes : ℤ) (calls : List Call) : Prop :=
  Runs.Along (Call.next (newFileByteCache maxBytes))
    (fun cache call => ∀ c ∈ cache, c.fewStale (newFileByteCache maxBytes) call) (some .start) calls

theorem sound_start (maxBytes : ℤ) : Cache.start.Sound (newFileByteCache maxBytes) := by
  have hstored : ∀ c, Cache.start.stored c = 0 := fun c => Finset.sum_eq_zero fun i _ => rfl
  constructor
  · constructor
    · exact fun i k hk => nomatch hk
    · exact fun i k hk => nomatch hk
    · intro c
      rw [hstored]
      cases c <;> rfl
  · intro c
    have hlimit := limits_nonneg maxBytes c
    cases c <;> exact hlimit

def Returns (P : Cache → Prop) (cache : Option Cache) : Prop := ∃ c, cache = some c ∧ P c

theorem sound_run (maxBytes : ℤ) (calls : List Call) :
    Returns (Cache.Sound (newFileByteCache maxBytes)) (runCalls maxBytes calls) := by
  have hstep : ∀ cache call, Returns (Cache.Sound (newFileByteCache maxBytes)) cache → True →
      Returns (Cache.Sound (newFileByteCache maxBytes))
        (Call.next (newFileByteCache maxBytes) cache call) := by
    rintro _ call ⟨cache, rfl, hsound⟩ -
    exact hsound.call call
  exact Runs.Along.invariant hstep ⟨Cache.start, rfl, sound_start maxBytes⟩
    (Runs.along_of_forall fun _ _ => trivial)

theorem short_start : Cache.start.Short := fun _ => ⟨fun _ => Nat.zero_le 2, Nat.zero_le _⟩

theorem short_run {maxBytes : ℤ} {calls : List Call} (h : FewStale maxBytes calls) :
    Returns Cache.Short (runCalls maxBytes calls) := by
  have hstep : ∀ cache call,
      (Returns (fun c => c.Sound (newFileByteCache maxBytes) ∧ c.Short) cache) →
      (∀ c ∈ cache, c.fewStale (newFileByteCache maxBytes) call) →
      Returns (fun c => c.Sound (newFileByteCache maxBytes) ∧ c.Short)
        (Call.next (newFileByteCache maxBytes) cache call) := by
    rintro _ call ⟨cache, rfl, hsound, hshort⟩ hfew
    obtain ⟨cache', hcall, hsound'⟩ := hsound.call call
    exact ⟨cache', hcall, hsound', hshort.call (hfew cache rfl) hcall⟩
  obtain ⟨cache, hrun, -, hshort⟩ := Runs.Along.invariant hstep
    ⟨Cache.start, rfl, sound_start maxBytes, short_start⟩ h
  exact ⟨cache, hrun, hshort⟩

theorem fits_enabled {maxBytes : ℤ} {value : List UInt8}
    (h : (newFileByteCache maxBytes).fits key value) :
    0 < (newFileByteCache maxBytes).maxBytes := by
  have hkey := h.2
  unfold newFileByteCache at hkey ⊢
  split_ifs at hkey ⊢ with hoff
  · have hpos : (0 : ℤ) < fileCacheEntryMetadata := by decide
    dsimp only at hkey
    omega
  · exact Int.not_le.mp hoff

theorem get_set {maxBytes : ℤ} {before : List Call} {value : List UInt8}
    (hrun : runCalls maxBytes (before ++ [Call.set key value o]) = some cache)
    (hfits : (newFileByteCache maxBytes).fits key value) :
    cache.get (newFileByteCache maxBytes) key = some value := by
  have hon := fits_enabled hfits
  obtain ⟨cache₁, hbefore, hsound⟩ := sound_run maxBytes before
  obtain ⟨cache', hset, -, hload⟩ := hsound.set key value o
  unfold runCalls at hrun hbefore
  rw [List.foldl_append, hbefore] at hrun
  have hsame : some cache' = some cache := hset.symm.trans hrun
  rw [← Option.some.inj hsame]
  unfold Cache.get
  rw [if_neg (Int.not_le.mpr hon), hload hon hfits]
  rfl

/-- Calls one after another: each of them returns, and the order of a shard stays short where few
of its places are stale. -/
theorem sequential_calls (maxBytes : ℤ) (calls : List Call) :
    ∃ cache, runCalls maxBytes calls = some cache ∧
      (∀ c, cache.counter c = cache.stored c ∧
        cache.counter c ≤ (newFileByteCache maxBytes).of c) ∧
      (∀ before key value o, calls = before ++ [.set key value o] →
        (newFileByteCache maxBytes).fits key value →
          cache.get (newFileByteCache maxBytes) key = some value) ∧
      (∀ i k, (cache.shards i).entries.has k = true → k ∈ (cache.shards i).order) ∧
      (FewStale maxBytes calls → ∀ i, (cache.shards i).order.length ≤
        2 * (cache.shards i).entries.size + 33 + cache.sets i) := by
  obtain ⟨cache, hrun, hsound⟩ := sound_run maxBytes calls
  refine ⟨cache, hrun, fun c => ⟨hsound.counter c, hsound.within c⟩, ?_, hsound.ordered, ?_⟩
  · intro before key value o hcalls hfits
    rw [hcalls] at hrun
    exact get_set hrun hfits
  · intro hfew i
    obtain ⟨cache', hrun', hshort⟩ := short_run hfew
    rw [hrun] at hrun'
    have hlength := (hshort i).length
    rw [← Option.some.inj hrun'] at hlength
    omega

def surplusCalls : List Call :=
  [Call.set [0x11] [] .entries, .set [0x21] [] .entries, .set [0x31] [] .entries] ++
    (List.replicate 35 [Call.set [0x01] [] .entries, .delete [0x01]]).flatten ++
    [Call.set [0x01] [] .entries, .delete [0x11], .delete [0x21], .delete [0x31]]

/-- A key that is stored keeps all its stale places in the order. -/
theorem surplus_order : ∃ cache, runCalls 10000 surplusCalls = some cache ∧ ∃ i,
    2 * (cache.shards i).entries.size + 33 + cache.sets i < (cache.shards i).order.length := by
  have hlong : ((runCalls 10000 surplusCalls).any fun cache => decide (∃ i,
      2 * (cache.shards i).entries.size + 33 + cache.sets i < (cache.shards i).order.length)) =
        true := by
    decide +kernel
  obtain ⟨cache, hrun, hi⟩ := (Option.any_eq_true _ _).mp hlong
  exact ⟨cache, hrun, of_decide_eq_true hi⟩

end RenoP.FileCache
