import RenoP.FileCache.Accounting
import Mathlib.Algebra.Order.BigOperators.Group.Finset

/-!
# Calls on the file cache one after another

`Set`, `Delete` and `Get` of `internal/core/file_cache.go` without a remote, where no two calls
overlap.
-/

namespace RenoP.FileCache

structure Cache where
  shards : Fin fileCacheShardCount → Shard
  used : ℤ
  metadata : ℤ
  /-- the sets of each shard since its last delete or trim, which the program does not count -/
  sets : Fin fileCacheShardCount → ℕ

def Cache.start : Cache := ⟨fun _ => .empty, 0, 0, fun _ => 0⟩

def Cache.counter (cache : Cache) : Counter → ℤ
  | .used => cache.used
  | .metadata => cache.metadata

def Cache.hold (cache : Cache) (i : Fin fileCacheShardCount) (held : Shard × List Add)
    (sets : ℕ) : Cache where
  shards := Function.update cache.shards i held.1
  used := cache.used + total held.2 .used
  metadata := cache.metadata + total held.2 .metadata
  sets := Function.update cache.sets i sets

def Cache.overBudget (limits : Limits) (cache : Cache) : Bool :=
  cache.used > limits.maxBytes || cache.metadata > limits.maxMetadata

/-- The body of the inner loop of `trimToMax`, with whether an entry went; none where the loop of
`evictOneLocked` does not end. -/
def Cache.trimShard (cache : Cache) (o : GoMap.RangeOrder Key FileCacheEntry) (protect : Key)
    (i : Fin fileCacheShardCount) : Option (Cache × Bool) :=
  match (cache.shards i).evictOne o protect with
  | none => none
  | some (shard, adds, evicted) => some (cache.hold i (shard.compact, adds) 0, evicted)

/-- The inner loop of `trimToMax` over the shards that are left. It gives the progress, or no
progress where it returns from within. -/
def Cache.sweep (limits : Limits) (o : GoMap.RangeOrder Key FileCacheEntry) (protect : Key) :
    List (Fin fileCacheShardCount) → Cache → Bool → Option (Cache × Option Bool)
  | [], cache, progress => some (cache, some progress)
  | i :: rest, cache, progress =>
    if cache.overBudget limits then
      match cache.trimShard o protect i with
      | none => none
      | some (cache, evicted) => sweep limits o protect rest cache (progress || evicted)
    else some (cache, none)

/-- `trimToMax` for a number of turns of its outer loop; none where it has not returned. -/
def Cache.trimToMax (limits : Limits) (o : GoMap.RangeOrder Key FileCacheEntry) (protect : Key) :
    ℕ → Cache → Option Cache
  | 0, cache => if cache.overBudget limits then none else some cache
  | turns + 1, cache =>
    if cache.overBudget limits then
      match cache.sweep limits o protect (List.finRange fileCacheShardCount) false with
      | none => none
      | some (cache, some true) => trimToMax limits o protect turns cache
      | some (cache, _) => some cache
    else some cache

def Cache.size (cache : Cache) : ℕ := ∑ i, (cache.shards i).entries.size

def Cache.delete (limits : Limits) (cache : Cache) (key : Key) : Cache :=
  if limits.maxBytes ≤ 0 then cache
  else cache.hold (shardOf key) ((cache.shards (shardOf key)).delete key) 0

/-- `Set`, where `trimToMax` has a turn for each entry. -/
def Cache.set (limits : Limits) (cache : Cache) (key : Key) (value : List UInt8)
    (o : GoMap.RangeOrder Key FileCacheEntry) : Option Cache :=
  if limits.maxBytes ≤ 0 then some cache
  else if value.length > limits.maxBytes ∨
      key.length > limits.maxMetadata - fileCacheEntryMetadata then
    some (cache.delete limits key)
  else
    let cache := cache.hold (shardOf key) ((cache.shards (shardOf key)).set key
      ⟨value, value.length⟩) (cache.sets (shardOf key) + 1)
    if cache.overBudget limits then cache.trimToMax limits o key cache.size else some cache

def Cache.get (limits : Limits) (cache : Cache) (key : Key) : Option (List UInt8) :=
  if limits.maxBytes ≤ 0 then none
  else ((cache.shards (shardOf key)).entries.load key).map FileCacheEntry.data

inductive Call where
  | set (key : Key) (value : List UInt8) (o : GoMap.RangeOrder Key FileCacheEntry)
  | delete (key : Key)

def Cache.call (limits : Limits) (cache : Cache) : Call → Option Cache
  | .set key value o => cache.set limits key value o
  | .delete key => some (cache.delete limits key)

def Call.next (limits : Limits) (cache : Option Cache) (call : Call) : Option Cache :=
  cache.bind fun cache => cache.call limits call

def runCalls (maxBytes : ℤ) (calls : List Call) : Option Cache :=
  calls.foldl (Call.next (newFileByteCache maxBytes)) (some .start)

variable {limits : Limits} {o : GoMap.RangeOrder Key FileCacheEntry} {protect key : Key}
  {cache cache' : Cache} {i : Fin fileCacheShardCount} {evicted : Bool}

theorem popOrder_ne {entries : GoMap Key FileCacheEntry} {turns : ℕ} {order left : List Key}
    {k : Key} (h : popOrder protect entries turns order = some (left, some k)) : k ≠ protect := by
  induction turns generalizing order with
  | zero => cases order <;> cases h
  | succ turns ih =>
    cases order with
    | nil => cases h
    | cons k' order =>
      unfold popOrder at h
      split_ifs at h with hprotect hsmall hlive
      · cases h
      · exact ih h
      · cases h
        exact hprotect
      · exact ih h

theorem popOrder_subperm {entries : GoMap Key FileCacheEntry} {turns : ℕ} {order left : List Key}
    {found : Option Key} (h : popOrder protect entries turns order = some (left, found)) :
    left.Subperm order := by
  induction turns generalizing order with
  | zero =>
    cases order with
    | nil =>
      cases h
      exact List.Subperm.refl _
    | cons k order => cases h
  | succ turns ih =>
    cases order with
    | nil =>
      cases h
      exact List.Subperm.refl _
    | cons k order =>
      have hrotated : (order ++ [k]).Subperm (k :: order) :=
        (List.perm_append_singleton k order).subperm
      have htail : order.Subperm (k :: order) := (List.sublist_cons_self k order).subperm
      unfold popOrder at h
      split_ifs at h with hprotect hsmall hlive
      · cases h
        exact hrotated
      · exact (ih h).trans hrotated
      · cases h
        exact htail
      · exact (ih h).trans htail

theorem entries_evict {s : Shard} {k : Key} (h : s.entries.has k = true) (order : List Key) :
    (s.evict order k).1.entries = s.entries.delete k ∧ (s.evict order k).1.order = order ∧
      (s.evict order k).2.2 = true := by
  obtain ⟨v, hload⟩ := (GoMap.has_eq_true _ _).mp h
  unfold Shard.evict
  rw [hload]
  exact ⟨rfl, rfl, rfl⟩

theorem evictOne_cases {s s' : Shard} {adds : List Add}
    (h : s.evictOne o protect = some (s', adds, evicted)) :
    s'.order.Subperm s.order ∧
      ((evicted = true ∧ ∃ k, k ≠ protect ∧ s.entries.has k = true ∧
          s'.entries = s.entries.delete k) ∨
        (evicted = false ∧ s'.entries = s.entries ∧
          ∀ k, s.entries.has k = true → k = protect)) := by
  unfold Shard.evictOne at h
  split at h
  · cases h
  · rename_i order k hpop
    have hhas := popOrder_found hpop
    obtain ⟨hentries, horder, hevicted⟩ := entries_evict hhas order
    rw [Option.some.inj h] at hentries horder hevicted
    rw [show s'.order = order from horder]
    exact ⟨popOrder_subperm hpop, Or.inl ⟨hevicted, k, popOrder_ne hpop, hhas, hentries⟩⟩
  · rename_i order hpop
    split at h
    · rename_i k hfind
      have hhas := (o.mem_keys s.entries k).mp (List.mem_of_find?_eq_some hfind)
      have hne : k ≠ protect := by
        have hsome := List.find?_some hfind
        simpa using hsome
      obtain ⟨hentries, horder, hevicted⟩ := entries_evict hhas order
      rw [Option.some.inj h] at hentries horder hevicted
      rw [show s'.order = order from horder]
      exact ⟨popOrder_subperm hpop, Or.inl ⟨hevicted, k, hne, hhas, hentries⟩⟩
    · rename_i hfind
      cases h
      refine ⟨popOrder_subperm hpop, Or.inr ⟨rfl, rfl, ?_⟩⟩
      intro k hk
      have hsame := List.find?_eq_none.mp hfind k ((o.mem_keys s.entries k).mpr hk)
      simpa using hsame

/-- No key is in the order more than twice, and the order is not much longer than the entries. -/
structure Shard.Short (s : Shard) : Prop where
  twice : ∀ k, s.order.count k ≤ 2
  length : s.order.length ≤ 2 * s.entries.size + 32

theorem filter_length_le {s : Shard} (h : ∀ k, s.order.count k ≤ 2) :
    (s.order.filter fun k => s.entries.has k).length ≤ 2 * s.entries.size := by
  have hsubperm : (s.order.filter fun k => s.entries.has k).Subperm
      (s.entries.keys ++ s.entries.keys) := by
    rw [List.subperm_ext_iff]
    intro k hmem
    have hlive : s.entries.has k = true := (List.mem_filter.mp hmem).2
    have hone : s.entries.keys.count k = 1 :=
      List.count_eq_one_of_mem s.entries.nodupKeys ((GoMap.load_isSome s.entries k).mp hlive)
    rw [List.count_append, hone]
    exact Nat.le_trans (List.filter_sublist.count_le k) (h k)
  have hkeys : s.entries.keys.length = s.entries.size := List.length_map _
  have hle := hsubperm.length_le
  rw [List.length_append, hkeys] at hle
  omega

theorem Shard.short_compact {s : Shard} (h : ∀ k, s.order.count k ≤ 2) : s.compact.Short := by
  unfold Shard.compact
  split_ifs with hzero hshort
  · exact ⟨fun k => Nat.zero_le 2, Nat.zero_le _⟩
  · exact ⟨h, hshort⟩
  · have hle := filter_length_le h
    constructor
    · exact fun k => Nat.le_trans (List.filter_sublist.count_le k) (h k)
    · dsimp only
      omega

theorem Shard.Short.delete {s : Shard} (h : s.Short) (key : Key) : (s.delete key).1.Short := by
  unfold Shard.delete
  cases hload : s.entries.load key with
  | some old => exact Shard.short_compact h.twice
  | none => exact h

theorem Shard.Short.evictOne {s s' : Shard} {adds : List Add} (h : s.Short)
    (hevict : s.evictOne o protect = some (s', adds, evicted)) : s'.compact.Short := by
  obtain ⟨hsubperm, -⟩ := evictOne_cases hevict
  exact Shard.short_compact fun k => Nat.le_trans (hsubperm.count_le k) (h.twice k)

theorem Shard.Short.set {s : Shard} (h : s.Short) {key : Key} (entry : FileCacheEntry)
    (hfew : s.entries.has key = false → s.order.count key ≤ 1) : (s.set key entry).1.Short := by
  have hsize := GoMap.size_store s.entries key entry
  unfold Shard.set
  cases hload : s.entries.load key with
  | some old =>
    rw [(GoMap.has_eq_true _ _).mpr ⟨old, hload⟩, if_pos rfl] at hsize
    have hlength := h.length
    constructor
    · exact h.twice
    · dsimp only
      omega
  | none =>
    have habsent := (GoMap.has_eq_false _ _).mpr hload
    rw [habsent, if_neg Bool.false_ne_true] at hsize
    have hlength := h.length
    constructor
    · intro k
      rw [List.count_append]
      by_cases hk : k = key
      · have hcount := hfew habsent
        rw [hk, List.count_singleton_self]
        omega
      · rw [List.count_eq_zero_of_not_mem fun hmem => hk (List.mem_singleton.mp hmem)]
        exact h.twice k
    · rw [List.length_append, List.length_singleton]
      dsimp only
      omega

def Cache.stored (cache : Cache) (c : Counter) : ℤ := ∑ i, (cache.shards i).stored c

theorem shards_hold (cache : Cache) (i j : Fin fileCacheShardCount) (held : Shard × List Add)
    (sets : ℕ) :
    (cache.hold i held sets).shards j = if j = i then held.1 else cache.shards j :=
  Function.update_apply cache.shards i held.1 j

theorem counter_hold (cache : Cache) (i : Fin fileCacheShardCount) (held : Shard × List Add)
    (sets : ℕ) (c : Counter) :
    (cache.hold i held sets).counter c = cache.counter c + total held.2 c := by
  cases c <;> rfl

structure Cache.Counted (cache : Cache) : Prop where
  ordered : ∀ i, (cache.shards i).Ordered
  placed : ∀ i k, (cache.shards i).entries.has k = true → shardOf k = i
  counter : ∀ c, cache.counter c = cache.stored c

theorem Cache.Counted.hold (h : cache.Counted) {held : Shard × List Add} (sets : ℕ)
    (hordered : held.1.Ordered)
    (hplaced : ∀ k, held.1.entries.has k = true →
      shardOf k = i ∨ (cache.shards i).entries.has k = true)
    (hstored : ∀ c, held.1.stored c = (cache.shards i).stored c + total held.2 c) :
    (cache.hold i held sets).Counted := by
  constructor
  · intro j
    rw [shards_hold]
    split_ifs with hj
    · exact hordered
    · exact h.ordered j
  · intro j k hk
    rw [shards_hold] at hk
    split_ifs at hk with hj
    · rw [hj]
      rcases hplaced k hk with hi | hold
      · exact hi
      · exact h.placed i k hold
    · exact h.placed j k hk
  · intro c
    have hsum := sum_update cache.shards i held.1 fun shard => shard.stored c
    have hcounter := h.counter c
    rw [counter_hold, hcounter]
    unfold Cache.stored Cache.hold
    dsimp only at hsum ⊢
    rw [hstored c] at hsum
    omega

theorem Cache.Counted.delete (h : cache.Counted) (key : Key) :
    (cache.delete limits key).Counted := by
  unfold Cache.delete
  split_ifs with hoff
  · exact h
  · apply h.hold
    · exact (h.ordered _).delete key
    · intro k hk
      right
      unfold Shard.delete at hk
      split at hk
      · rw [entries_compact] at hk
        exact (has_delete hk).2
      · exact hk
    · exact stored_delete _ key

theorem Cache.Counted.store (h : cache.Counted) (key : Key) (entry : FileCacheEntry) (sets : ℕ) :
    (cache.hold (shardOf key) ((cache.shards (shardOf key)).set key entry) sets).Counted := by
  apply h.hold
  · exact (h.ordered _).set key entry
  · intro k hk
    unfold Shard.set at hk
    split at hk
    all_goals
      rcases has_store hk with rfl | hold
      · exact Or.inl rfl
      · exact Or.inr hold
  · exact stored_set _ key entry

theorem trimShard_cases (h : cache.trimShard o protect i = some (cache', evicted)) :
    ∃ shard adds, (cache.shards i).evictOne o protect = some (shard, adds, evicted) ∧
      cache' = cache.hold i (shard.compact, adds) 0 := by
  unfold Cache.trimShard at h
  split at h
  · cases h
  · rename_i shard adds evicted' hevict
    cases h
    exact ⟨shard, adds, hevict, rfl⟩

theorem trimShard_isSome (h : cache.Counted) (o : GoMap.RangeOrder Key FileCacheEntry)
    (protect : Key) (i : Fin fileCacheShardCount) :
    (cache.trimShard o protect i).isSome = true := by
  have hevict := evictOne_isSome (h.ordered i) o protect
  unfold Cache.trimShard
  split
  · rename_i hnone
    rw [hnone] at hevict
    cases hevict
  · rfl

theorem Cache.Counted.trimShard (h : cache.Counted)
    (ht : cache.trimShard o protect i = some (cache', evicted)) : cache'.Counted := by
  obtain ⟨shard, adds, hevict, rfl⟩ := trimShard_cases ht
  have hevicts := evictOne_evicts hevict
  apply h.hold
  · exact ((h.ordered i).evictOne hevict).compact
  · intro k hk
    right
    rw [entries_compact] at hk
    obtain ⟨e, hload⟩ := (GoMap.has_eq_true _ _).mp hk
    exact (GoMap.has_eq_true _ _).mpr ⟨e, hevicts.entries k e hload⟩
  · intro c
    rw [stored_compact]
    exact hevicts.stored c

theorem load_trimShard (ht : cache.trimShard o protect i = some (cache', evicted))
    (j : Fin fileCacheShardCount) :
    (cache'.shards j).entries.load protect = (cache.shards j).entries.load protect := by
  obtain ⟨shard, adds, hevict, rfl⟩ := trimShard_cases ht
  obtain ⟨-, ⟨-, k, hne, -, hentries⟩ | ⟨-, hentries, -⟩⟩ := evictOne_cases hevict
  all_goals
    rw [shards_hold]
    split_ifs with hj
  · rw [entries_compact, hentries, GoMap.load_delete_ne _ hne.symm, hj]
  · rfl
  · rw [entries_compact, hentries, hj]
  · rfl

theorem size_trimShard (ht : cache.trimShard o protect i = some (cache', evicted)) :
    cache'.size + evicted.toNat = cache.size := by
  obtain ⟨shard, adds, hevict, rfl⟩ := trimShard_cases ht
  have hsum := sum_update cache.shards i shard.compact fun shard => shard.entries.size
  have hcases := evictOne_cases hevict
  unfold Cache.size Cache.hold
  dsimp only at hsum ⊢
  rw [entries_compact] at hsum
  obtain ⟨-, ⟨rfl, k, -, hhas, hentries⟩ | ⟨rfl, hentries, -⟩⟩ := hcases
  · have hsize := GoMap.size_delete (cache.shards i).entries k
    rw [hhas, if_pos rfl, ← hentries] at hsize
    simp only [Bool.toNat_true]
    omega
  · rw [hentries] at hsum
    simp only [Bool.toNat_false]
    omega

theorem idle_trimShard (ht : cache.trimShard o protect i = some (cache', false)) :
    (∀ j, (cache'.shards j).entries = (cache.shards j).entries) ∧
      ∀ k, (cache.shards i).entries.has k = true → k = protect := by
  obtain ⟨shard, adds, hevict, rfl⟩ := trimShard_cases ht
  obtain ⟨-, ⟨hevicted, -⟩ | ⟨-, hentries, honly⟩⟩ := evictOne_cases hevict
  · cases hevicted
  · refine ⟨fun j => ?_, honly⟩
    rw [shards_hold]
    split_ifs with hj
    · rw [entries_compact, hentries, hj]
    · rfl

section

variable {P : Cache → Prop} {rest : List (Fin fileCacheShardCount)} {progress : Bool}
  {result : Option Bool}

theorem sweep_keeps
    (hP : ∀ {cache i cache' evicted}, P cache →
      cache.trimShard o protect i = some (cache', evicted) → P cache')
    (h : P cache) (hs : cache.sweep limits o protect rest progress = some (cache', result)) :
    P cache' := by
  induction rest generalizing cache progress with
  | nil =>
    cases hs
    exact h
  | cons i rest ih =>
    unfold Cache.sweep at hs
    split_ifs at hs with hover
    · split at hs
      · cases hs
      · rename_i cache₁ evicted htrim
        exact ih (hP h htrim) hs
    · cases hs
      exact h

theorem sweep_isSome (h : cache.Counted) :
    (cache.sweep limits o protect rest progress).isSome = true := by
  induction rest generalizing cache progress with
  | nil => rfl
  | cons i rest ih =>
    unfold Cache.sweep
    split_ifs with hover
    · have htrim := trimShard_isSome h o protect i
      split
      · rename_i hnone
        rw [hnone] at htrim
        cases htrim
      · rename_i cache₁ evicted hsome
        exact ih (h.trimShard hsome)
    · rfl

theorem sweep_returns (hs : cache.sweep limits o protect rest progress = some (cache', none)) :
    cache'.overBudget limits = false := by
  induction rest generalizing cache progress with
  | nil => cases hs
  | cons i rest ih =>
    unfold Cache.sweep at hs
    split_ifs at hs with hover
    · split at hs
      · cases hs
      · exact ih hs
    · cases hs
      exact Bool.eq_false_iff.mpr hover

theorem size_sweep (hs : cache.sweep limits o protect rest progress = some (cache', some true)) :
    progress = true ∨ cache'.size < cache.size := by
  induction rest generalizing cache progress with
  | nil =>
    cases hs
    exact Or.inl rfl
  | cons i rest ih =>
    unfold Cache.sweep at hs
    split_ifs at hs with hover
    · split at hs
      · cases hs
      · rename_i cache₁ evicted htrim
        have hsize := size_trimShard htrim
        have hle : cache'.size ≤ cache₁.size := by
          apply sweep_keeps (fun {cache i cache' evicted} hle ht => _) (Nat.le_refl _) hs
          intro cache i cache' evicted hle ht
          have hstep := size_trimShard ht
          exact Nat.le_trans (by omega) hle
        cases evicted with
        | true =>
          rw [Bool.toNat_true] at hsize
          right
          omega
        | false =>
          rw [Bool.or_false] at hs
          rcases ih hs with hprogress | hless
          · exact Or.inl hprogress
          · right
            omega
    · cases hs

theorem idle_sweep (hs : cache.sweep limits o protect rest progress = some (cache', some false)) :
    progress = false ∧ (∀ j, (cache'.shards j).entries = (cache.shards j).entries) ∧
      ∀ i ∈ rest, ∀ k, (cache.shards i).entries.has k = true → k = protect := by
  induction rest generalizing cache progress with
  | nil =>
    cases hs
    exact ⟨rfl, fun _ => rfl, nofun⟩
  | cons i rest ih =>
    unfold Cache.sweep at hs
    split_ifs at hs with hover
    · split at hs
      · cases hs
      · rename_i cache₁ evicted htrim
        obtain ⟨hprogress, hentries, honly⟩ := ih hs
        obtain ⟨rfl, rfl⟩ := Bool.or_eq_false_iff.mp hprogress
        obtain ⟨hentries₁, honly₁⟩ := idle_trimShard htrim
        refine ⟨rfl, fun j => (hentries j).trans (hentries₁ j), ?_⟩
        intro j hj
        rcases List.mem_cons.mp hj with rfl | hrest
        · exact honly₁
        · rw [← hentries₁ j]
          exact honly j hrest
    · cases hs

end

theorem overBudget_eq_false_iff (limits : Limits) (cache : Cache) :
    cache.overBudget limits = false ↔ ∀ c, cache.counter c ≤ limits.of c := by
  unfold Cache.overBudget
  rw [Bool.or_eq_false_iff, decide_eq_false_iff_not, decide_eq_false_iff_not, Int.not_lt,
    Int.not_lt]
  constructor
  · intro h c
    cases c with
    | used => exact h.1
    | metadata => exact h.2
  · exact fun h => ⟨h .used, h .metadata⟩

theorem trim_keeps {P : Cache → Prop}
    (hP : ∀ {cache i cache' evicted}, P cache →
      cache.trimShard o protect i = some (cache', evicted) → P cache')
    {turns : ℕ} (h : P cache) (ht : cache.trimToMax limits o protect turns = some cache') :
    P cache' := by
  induction turns generalizing cache with
  | zero =>
    unfold Cache.trimToMax at ht
    split_ifs at ht
    cases ht
    exact h
  | succ turns ih =>
    unfold Cache.trimToMax at ht
    split_ifs at ht with hover
    · split at ht
      · cases ht
      · rename_i hsweep
        exact ih (sweep_keeps hP h hsweep) ht
      · rename_i hsweep
        cases ht
        exact sweep_keeps hP h hsweep
    · cases ht
      exact h

theorem stored_only (h : cache.Counted) {entry : FileCacheEntry}
    (hload : (cache.shards (shardOf protect)).entries.load protect = some entry)
    (honly : ∀ i k, (cache.shards i).entries.has k = true → k = protect) (c : Counter) :
    cache.stored c = weight c protect entry := by
  have hshard : ∀ i, (cache.shards i).stored c =
      GoMap.weight (weight c) (cache.shards i).entries protect := by
    intro i
    apply GoMap.sum_eq_weight
    intro k e hne hentry
    exact absurd (honly i k ((GoMap.has_eq_true _ _).mpr ⟨e, hentry⟩)) hne
  unfold Cache.stored
  rw [Finset.sum_eq_single (shardOf protect), hshard, GoMap.weight_of_load hload]
  · intro i _ hi
    rw [hshard]
    apply GoMap.weight_of_absent
    rw [← GoMap.has_eq_false, Bool.eq_false_iff]
    exact fun hhas => hi (h.placed i protect hhas).symm
  · exact fun hout => absurd (Finset.mem_univ _) hout

theorem size_pos {entry : FileCacheEntry}
    (hload : (cache.shards i).entries.load protect = some entry) : 0 < cache.size := by
  have hshard : 0 < (cache.shards i).entries.size := by
    rw [Nat.pos_iff_ne_zero]
    intro hzero
    have habsent := size_eq_zero hzero protect
    rw [(GoMap.has_eq_true _ _).mpr ⟨entry, hload⟩] at habsent
    cases habsent
  exact Nat.lt_of_lt_of_le hshard
    (Finset.single_le_sum (fun j _ => Nat.zero_le (cache.shards j).entries.size)
      (Finset.mem_univ i))

theorem trim_ends {turns : ℕ} (h : cache.Counted) {entry : FileCacheEntry}
    (hload : (cache.shards (shardOf protect)).entries.load protect = some entry)
    (hfits : ∀ c, weight c protect entry ≤ limits.of c) (hturns : cache.size ≤ turns) :
    ∃ cache', cache.trimToMax limits o protect turns = some cache' ∧
      ∀ c, cache'.counter c ≤ limits.of c := by
  induction turns generalizing cache with
  | zero =>
    have hpos := size_pos hload
    omega
  | succ turns ih =>
    unfold Cache.trimToMax
    by_cases hover : cache.overBudget limits = true
    · rw [if_pos hover]
      have hsome := @sweep_isSome limits o protect cache
        (List.finRange fileCacheShardCount) false h
      split
      · rename_i hnone
        rw [hnone] at hsome
        cases hsome
      · rename_i cache₁ hsweep
        have hload₁ := sweep_keeps (P := fun x =>
          (x.shards (shardOf protect)).entries.load protect = some entry)
          (fun hold ht => (load_trimShard ht _).trans hold) hload hsweep
        have hless : cache₁.size < cache.size := by
          rcases size_sweep hsweep with hprogress | hless
          · cases hprogress
          · exact hless
        exact ih (sweep_keeps Cache.Counted.trimShard h hsweep) hload₁ (by omega)
      · rename_i cache₁ progress hprogress hsweep
        refine ⟨cache₁, rfl, ?_⟩
        have hcounted := sweep_keeps Cache.Counted.trimShard h hsweep
        cases progress with
        | none => exact (overBudget_eq_false_iff _ _).mp (sweep_returns hsweep)
        | some progress =>
          cases progress with
          | true => exact absurd rfl hprogress
          | false =>
            obtain ⟨-, hentries, honly⟩ := idle_sweep hsweep
            intro c
            rw [hcounted.counter c, stored_only hcounted ((hentries _).symm ▸ hload)]
            · exact hfits c
            · intro i k hk
              rw [hentries i] at hk
              exact honly i (List.mem_finRange i) k hk
    · rw [if_neg hover]
      exact ⟨cache, rfl, (overBudget_eq_false_iff _ _).mp (Bool.eq_false_iff.mpr hover)⟩

end RenoP.FileCache
