import RenoP.Lib.GoMap

/-!
# Shards of the file cache

`internal/core/file_cache.go`, without a remote. Each function here is what one hold of the lock of
a shard does to it, with the additions to the counters in the order in which they are made.
-/

namespace RenoP.FileCache

abbrev Key := List UInt8

structure FileCacheEntry where
  data : List UInt8
  size : ℕ
  deriving DecidableEq

structure Shard where
  locked : Bool
  entries : GoMap Key FileCacheEntry
  order : List Key

def Shard.empty : Shard := ⟨false, ∅, []⟩

def fileCacheShardCount : ℕ := 16
def fileCacheEntryMetadata : ℤ := 256

def hashKey (key : Key) : UInt32 :=
  key.foldl (fun h b => (h ^^^ b.toUInt32) * 16777619) 2166136261

theorem shard_lt (h : UInt32) : (h &&& 15).toNat < fileCacheShardCount := by
  rw [UInt32.toNat_and]
  exact Nat.lt_of_le_of_lt Nat.and_le_right (by decide)

def shardOf (key : Key) : Fin fileCacheShardCount := ⟨(hashKey key &&& 15).toNat, shard_lt _⟩

inductive Counter where
  | used
  | metadata
  deriving DecidableEq

def weight : Counter → Key → FileCacheEntry → ℤ
  | .used, _, entry => entry.size
  | .metadata, key, _ => key.length + fileCacheEntryMetadata

abbrev Add := Counter × ℤ

def total (adds : List Add) (c : Counter) : ℤ :=
  (adds.map fun add => if add.1 = c then add.2 else 0).sum

def removal (key : Key) (entry : FileCacheEntry) : List Add :=
  [(.used, -weight .used key entry), (.metadata, -weight .metadata key entry)]

def Shard.set (s : Shard) (key : Key) (entry : FileCacheEntry) : Shard × List Add :=
  match s.entries.load key with
  | some old =>
    let delta : ℤ := entry.size - old.size
    ({ s with entries := s.entries.store key entry }, if delta = 0 then [] else [(.used, delta)])
  | none =>
    let delta : ℤ := entry.size
    ({ s with entries := s.entries.store key entry, order := s.order ++ [key] },
      (.metadata, weight .metadata key entry) :: if delta = 0 then [] else [(.used, delta)])

/-- `compactOrderLocked`, capacities apart -/
def Shard.compact (s : Shard) : Shard :=
  if s.entries.size = 0 then { s with order := [] }
  else if s.order.length ≤ 2 * s.entries.size + 32 then s
  else { s with order := s.order.filter fun k => s.entries.has k }

def Shard.delete (s : Shard) (key : Key) : Shard × List Add :=
  match s.entries.load key with
  | some old => (Shard.compact { s with entries := s.entries.delete key }, removal key old)
  | none => (s, [])

/-- The loop of `evictOneLocked` over the order: what is left of the order, and the key to evict.
A turn for each key of the order reaches all of them; the loop has no end where only the protected
key is left then. -/
def popOrder (protect : Key) (entries : GoMap Key FileCacheEntry) :
    ℕ → List Key → Option (List Key × Option Key)
  | _, [] => some ([], none)
  | 0, _ :: _ => none
  | fuel + 1, k :: order =>
    if k = protect then
      if entries.size ≤ 1 then some (order ++ [k], none)
      else popOrder protect entries fuel (order ++ [k])
    else if entries.has k then some (order, some k)
    else popOrder protect entries fuel order

def Shard.evict (s : Shard) (order : List Key) (k : Key) : Shard × List Add × Bool :=
  match s.entries.load k with
  | some v => ({ s with order := order, entries := s.entries.delete k }, removal k v, true)
  | none => ({ s with order := order }, [], false)

/-- `evictOneLocked`; none where it does not end. The range over the entries has the order `o`. -/
def Shard.evictOne (o : GoMap.RangeOrder Key FileCacheEntry) (protect : Key) (s : Shard) :
    Option (Shard × List Add × Bool) :=
  match popOrder protect s.entries s.order.length s.order with
  | none => none
  | some (order, some k) => some (s.evict order k)
  | some (order, none) =>
    match (o.keys s.entries).find? fun k => k != protect with
    | some k => some (s.evict order k)
    | none => some ({ s with order := order }, [], false)

def Shard.clear (s : Shard) : Shard := { s with entries := ∅, order := [] }

def Shard.stored (s : Shard) (c : Counter) : ℤ := GoMap.sum (weight c) s.entries

@[simp] theorem total_nil (c : Counter) : total [] c = 0 := rfl

theorem total_cons (add : Add) (adds : List Add) (c : Counter) :
    total (add :: adds) c = (if add.1 = c then add.2 else 0) + total adds c := by
  unfold total
  rw [List.map_cons, List.sum_cons]

theorem weight_nonneg (c : Counter) (key : Key) (entry : FileCacheEntry) :
    0 ≤ weight c key entry := by
  cases c with
  | used => exact Int.natCast_nonneg _
  | metadata => exact Int.add_nonneg (Int.natCast_nonneg _) (by decide)

theorem total_removal (key : Key) (entry : FileCacheEntry) (c : Counter) :
    total (removal key entry) c = -weight c key entry := by
  cases c <;> simp [removal, total]

theorem removal_nonpos (key : Key) (entry : FileCacheEntry) :
    ∀ add ∈ removal key entry, add.2 ≤ 0 := by
  have hused := weight_nonneg .used key entry
  have hmetadata := weight_nonneg .metadata key entry
  intro add hadd
  rcases List.mem_cons.mp hadd with rfl | hrest
  · exact Int.neg_nonpos_of_nonneg hused
  · rw [List.mem_singleton.mp hrest]
    exact Int.neg_nonpos_of_nonneg hmetadata

theorem stored_set (s : Shard) (key : Key) (entry : FileCacheEntry) (c : Counter) :
    (s.set key entry).1.stored c = s.stored c + total (s.set key entry).2 c := by
  have hdelta : ∀ delta : ℤ, total (if delta = 0 then [] else [(.used, delta)]) c =
      if c = .used then delta else 0 := by
    intro delta
    by_cases hzero : delta = 0
    · rw [if_pos hzero, hzero, ite_self]
      rfl
    · rw [if_neg hzero, total_cons, total_nil, add_zero]
      exact if_congr eq_comm rfl rfl
  unfold Shard.set Shard.stored
  cases hload : s.entries.load key with
  | some old =>
    dsimp only
    rw [GoMap.sum_store, GoMap.weight_of_load hload, hdelta]
    cases c with
    | used =>
      simp only [weight, if_true]
      omega
    | metadata => simp [weight]
  | none =>
    dsimp only
    rw [GoMap.sum_store, GoMap.weight_of_absent hload, total_cons, hdelta]
    cases c with
    | used => simp [weight]
    | metadata => simp

theorem entries_compact (s : Shard) : s.compact.entries = s.entries := by
  unfold Shard.compact
  split_ifs <;> rfl

theorem stored_compact (s : Shard) (c : Counter) : s.compact.stored c = s.stored c := by
  unfold Shard.stored
  rw [entries_compact]

theorem stored_delete (s : Shard) (key : Key) (c : Counter) :
    (s.delete key).1.stored c = s.stored c + total (s.delete key).2 c := by
  unfold Shard.delete
  cases hload : s.entries.load key with
  | some old =>
    dsimp only
    rw [stored_compact, total_removal]
    unfold Shard.stored
    rw [GoMap.sum_delete, GoMap.weight_of_load hload]
    omega
  | none => simp

theorem delete_nonpos (s : Shard) (key : Key) : ∀ add ∈ (s.delete key).2, add.2 ≤ 0 := by
  unfold Shard.delete
  cases s.entries.load key with
  | some old => exact removal_nonpos key old
  | none => exact nofun

theorem popOrder_found {protect : Key} {entries : GoMap Key FileCacheEntry} {fuel : ℕ}
    {order left : List Key} {k : Key}
    (h : popOrder protect entries fuel order = some (left, some k)) : entries.has k = true := by
  induction fuel generalizing order with
  | zero => cases order <;> cases h
  | succ fuel ih =>
    cases order with
    | nil => cases h
    | cons k' order =>
      unfold popOrder at h
      split_ifs at h with _ _ hlive
      · cases h
      · exact ih h
      · cases h
        exact hlive
      · exact ih h

structure Evicts (s : Shard) (protect : Key) (s' : Shard) (adds : List Add) (evicted : Bool) :
    Prop where
  entries : ∀ k e, s'.entries.load k = some e → s.entries.load k = some e
  stored : ∀ c, s'.stored c = s.stored c + total adds c
  nonpos : ∀ add ∈ adds, add.2 ≤ 0
  protected_left : evicted = true ∨ ∀ k, s.entries.has k = true → k = protect

theorem evict_evicts {s : Shard} {k : Key} (h : s.entries.has k = true) (order : List Key)
    (protect : Key) :
    Evicts s protect (s.evict order k).1 (s.evict order k).2.1 (s.evict order k).2.2 := by
  obtain ⟨v, hload⟩ := (GoMap.has_eq_true _ _).mp h
  unfold Shard.evict
  rw [hload]
  constructor
  · intro k' e hentry
    dsimp only at hentry
    rw [GoMap.load_delete] at hentry
    split_ifs at hentry
    exact hentry
  · intro c
    dsimp only
    rw [total_removal]
    unfold Shard.stored
    rw [GoMap.sum_delete, GoMap.weight_of_load hload]
    omega
  · exact removal_nonpos k v
  · exact Or.inl rfl

theorem evictOne_evicts {o : GoMap.RangeOrder Key FileCacheEntry} {protect : Key} {s s' : Shard}
    {adds : List Add} {evicted : Bool} (h : s.evictOne o protect = some (s', adds, evicted)) :
    Evicts s protect s' adds evicted := by
  unfold Shard.evictOne at h
  split at h
  · cases h
  · rename_i order k hpop
    have hevicts := evict_evicts (popOrder_found hpop) order protect
    rw [Option.some.inj h] at hevicts
    exact hevicts
  · rename_i order hpop
    split at h
    · rename_i k hfind
      have hk := (o.mem_keys s.entries k).mp (List.mem_of_find?_eq_some hfind)
      have hevicts := evict_evicts hk order protect
      rw [Option.some.inj h] at hevicts
      exact hevicts
    · rename_i hfind
      cases h
      refine ⟨fun _ _ hentry => hentry, fun c => ?_, nofun, Or.inr ?_⟩
      · rw [total_nil, add_zero]
        rfl
      · intro k hk
        have hsame := List.find?_eq_none.mp hfind k ((o.mem_keys s.entries k).mpr hk)
        simpa using hsame

def Shard.Ordered (s : Shard) : Prop := ∀ k, s.entries.has k = true → k ∈ s.order

theorem has_store {m : GoMap Key FileCacheEntry} {key k : Key} {entry : FileCacheEntry}
    (h : (m.store key entry).has k = true) : k = key ∨ m.has k = true := by
  unfold GoMap.has at h ⊢
  rw [GoMap.load_store] at h
  split_ifs at h with heq
  · exact Or.inl heq
  · exact Or.inr h

theorem has_delete {m : GoMap Key FileCacheEntry} {key k : Key} (h : (m.delete key).has k = true) :
    k ≠ key ∧ m.has k = true := by
  unfold GoMap.has at h ⊢
  rw [GoMap.load_delete] at h
  split_ifs at h with heq
  · cases h
  · exact ⟨heq, h⟩

theorem Shard.Ordered.set {s : Shard} (h : s.Ordered) (key : Key) (entry : FileCacheEntry) :
    (s.set key entry).1.Ordered := by
  unfold Shard.set
  cases hload : s.entries.load key with
  | some old =>
    intro k hk
    rcases has_store hk with rfl | hmem
    · exact h k ((GoMap.has_eq_true _ _).mpr ⟨old, hload⟩)
    · exact h k hmem
  | none =>
    intro k hk
    rcases has_store hk with rfl | hmem
    · exact List.mem_append_right _ (List.mem_singleton.mpr rfl)
    · exact List.mem_append_left _ (h k hmem)

theorem size_eq_zero {m : GoMap Key FileCacheEntry} (h : m.size = 0) (k : Key) :
    m.has k = false := by
  rw [GoMap.has_eq_false, GoMap.load_eq_none]
  have hnil : m.entries = [] := List.length_eq_zero_iff.mp h
  unfold AList.keys
  rw [hnil]
  exact List.not_mem_nil

theorem Shard.Ordered.compact {s : Shard} (h : s.Ordered) : s.compact.Ordered := by
  intro k hk
  rw [entries_compact] at hk
  unfold Shard.compact
  split_ifs with hzero hshort
  · rw [size_eq_zero hzero k] at hk
    cases hk
  · exact h k hk
  · exact List.mem_filter.mpr ⟨h k hk, hk⟩

theorem Shard.Ordered.delete {s : Shard} (h : s.Ordered) (key : Key) : (s.delete key).1.Ordered := by
  unfold Shard.delete
  cases hload : s.entries.load key with
  | some old =>
    apply Shard.Ordered.compact
    intro k hk
    exact h k (has_delete hk).2
  | none => exact h

theorem popOrder_keeps {protect : Key} {entries : GoMap Key FileCacheEntry} {fuel : ℕ}
    {order left : List Key} {found : Option Key}
    (h : popOrder protect entries fuel order = some (left, found)) :
    ∀ k ∈ order, entries.has k = true → found = some k ∨ k ∈ left := by
  induction fuel generalizing order with
  | zero =>
    cases order with
    | nil => exact nofun
    | cons k order => cases h
  | succ fuel ih =>
    cases order with
    | nil => exact nofun
    | cons k order =>
      intro k' hmem hhas
      unfold popOrder at h
      split_ifs at h with hprotect hsmall hlive
      · cases h
        right
        rcases List.mem_cons.mp hmem with rfl | hrest
        · exact List.mem_append_right _ (List.mem_singleton.mpr rfl)
        · exact List.mem_append_left _ hrest
      · apply ih h k' _ hhas
        rcases List.mem_cons.mp hmem with rfl | hrest
        · exact List.mem_append_right _ (List.mem_singleton.mpr rfl)
        · exact List.mem_append_left _ hrest
      · cases h
        rcases List.mem_cons.mp hmem with rfl | hrest
        · exact Or.inl rfl
        · exact Or.inr hrest
      · apply ih h k' _ hhas
        rcases List.mem_cons.mp hmem with rfl | hrest
        · exact absurd hhas hlive
        · exact hrest

theorem Shard.Ordered.evict {s : Shard} {order : List Key} {k : Key}
    (h : ∀ k', s.entries.has k' = true → k' = k ∨ k' ∈ order) : (s.evict order k).1.Ordered := by
  unfold Shard.evict
  cases hload : s.entries.load k with
  | some v =>
    intro k' hk'
    obtain ⟨hne, hhas⟩ := has_delete hk'
    rcases h k' hhas with heq | hmem
    · exact absurd heq hne
    · exact hmem
  | none =>
    intro k' hk'
    rcases h k' hk' with heq | hmem
    · have hhas : s.entries.has k = true := heq ▸ hk'
      rw [(GoMap.has_eq_false _ _).mpr hload] at hhas
      cases hhas
    · exact hmem

theorem Shard.Ordered.evictOne {s : Shard} (h : s.Ordered)
    {o : GoMap.RangeOrder Key FileCacheEntry} {protect : Key} {result : Shard × List Add × Bool}
    (hevict : s.evictOne o protect = some result) : result.1.Ordered := by
  unfold Shard.evictOne at hevict
  split at hevict
  · cases hevict
  · rename_i order k hpop
    cases hevict
    apply Shard.Ordered.evict
    intro k' hk'
    rcases popOrder_keeps hpop k' (h k' hk') hk' with heq | hmem
    · exact Or.inl (Option.some.inj heq).symm
    · exact Or.inr hmem
  · rename_i order hpop
    have hkeep : ∀ k', s.entries.has k' = true → k' ∈ order := by
      intro k' hk'
      rcases popOrder_keeps hpop k' (h k' hk') hk' with heq | hmem
      · cases heq
      · exact hmem
    split at hevict
    · cases hevict
      exact Shard.Ordered.evict fun k' hk' => Or.inr (hkeep k' hk')
    · cases hevict
      exact hkeep

theorem popOrder_live {protect : Key} {entries : GoMap Key FileCacheEntry} {a b : List Key}
    (h : ∃ k ∈ a, k ≠ protect ∧ entries.has k = true) :
    (popOrder protect entries a.length (a ++ b)).isSome = true := by
  induction a generalizing b with
  | nil =>
    obtain ⟨k, hk, -⟩ := h
    cases hk
  | cons k a ih =>
    obtain ⟨k', hmem, hne, hhas⟩ := h
    rw [List.length_cons, List.cons_append]
    unfold popOrder
    split_ifs with hprotect hsmall hlive
    · rfl
    · rw [List.append_assoc]
      apply ih
      rcases List.mem_cons.mp hmem with heq | hrest
      · exact absurd (heq.trans hprotect) hne
      · exact ⟨k', hrest, hne, hhas⟩
    · rfl
    · apply ih
      rcases List.mem_cons.mp hmem with heq | hrest
      · exact absurd (heq ▸ hhas) hlive
      · exact ⟨k', hrest, hne, hhas⟩

theorem popOrder_small {protect : Key} {entries : GoMap Key FileCacheEntry} {order : List Key}
    (h : entries.size ≤ 1) : (popOrder protect entries order.length order).isSome = true := by
  induction order with
  | nil => rfl
  | cons k order ih =>
    rw [List.length_cons]
    unfold popOrder
    split_ifs
    · rfl
    · rfl
    · exact ih

theorem evictOne_isSome {s : Shard} (h : s.Ordered) (o : GoMap.RangeOrder Key FileCacheEntry)
    (protect : Key) : (s.evictOne o protect).isSome = true := by
  have hpop : (popOrder protect s.entries s.order.length s.order).isSome = true := by
    by_cases hother : ∃ k, k ≠ protect ∧ s.entries.has k = true
    · obtain ⟨k, hne, hhas⟩ := hother
      have hlive := @popOrder_live protect s.entries s.order [] ⟨k, h k hhas, hne, hhas⟩
      rw [List.append_nil] at hlive
      exact hlive
    · apply popOrder_small
      have hsubset : s.entries.keys ⊆ [protect] := by
        intro k hk
        by_contra hne
        rw [List.mem_singleton] at hne
        exact hother ⟨k, hne, (GoMap.load_isSome s.entries k).mpr hk⟩
      have hle := (List.subperm_of_subset s.entries.nodupKeys hsubset).length_le
      unfold AList.keys List.keys at hle
      rw [List.length_map] at hle
      exact hle
  unfold Shard.evictOne
  split
  · rename_i hnone
    rw [hnone] at hpop
    cases hpop
  · rfl
  · split <;> rfl

end RenoP.FileCache
