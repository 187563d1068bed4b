import Mathlib.Algebra.BigOperators.Ring.Finset
import RenoP.Cache.Sections

/-!
# Runs of cache calls

From a new cache no sequence of calls panics, and after each of them the slot table of every
shard and the read index describe the same items.
-/

namespace RenoP.Cache.TTL

variable {K V : Type} [DecidableEq K] {cfg : TTLConfig K} {c : TTLCache K V}

inductive CacheCall (K V : Type) where
  | set (key : K) (value : V) (ttl now : ℤ)
  | setIfGeneration (key : K) (value : V) (ttl : ℤ) (generation : ℕ) (now : ℤ)
  | get (key : K) (now : ℤ)
  | delete (key : K)
  | deleteFunc (predicate : K → V → Bool)
  | evictExpired (now : ℤ)
  | clear

def call (cfg : TTLConfig K) (c : TTLCache K V) : CacheCall K V → Option (TTLCache K V)
  | .set key value ttl now => (set cfg c key value ttl now).map Prod.snd
  | .setIfGeneration key value ttl generation now =>
    (setIfGeneration cfg c key value ttl generation now).map Prod.snd
  | .get key now => (get cfg c key now).map Prod.snd
  | .delete key => delete cfg c key
  | .deleteFunc predicate => deleteFunc c predicate
  | .evictExpired now => evictExpired c now
  | .clear => some (clear c)

def runCalls (cfg : TTLConfig K) (c : TTLCache K V) (calls : List (CacheCall K V)) :
    Option (TTLCache K V) :=
  calls.foldlM (call cfg) c

theorem setIfGeneration_ok (h : Slotted cfg c) (key : K) (value : V) (ttl : ℤ) (generation : ℕ)
    (now : ℤ) : ∃ stored c', setIfGeneration cfg c key value ttl generation now = some (stored, c') ∧
      Slotted cfg c' := by
  unfold setIfGeneration
  split_ifs
  · exact ⟨false, c, rfl, h⟩
  · have halloc : Slotted cfg (allocate cfg c key value ttl now).2 := h
    obtain ⟨c', hset, hsl, -, -⟩ :=
      setLocked_ok halloc (allocate cfg c key value ttl now).1 rfl
    refine ⟨true, c', ?_, hsl⟩
    show (setLocked cfg (allocate cfg c key value ttl now).2 (cfg.getShard key)
      (allocate cfg c key value ttl now).1).map _ = _
    rw [show cfg.getShard key = cfg.getShard (allocate cfg c key value ttl now).1.key from rfl,
      hset]
    rfl

theorem get_ok (h : Slotted cfg c) (key : K) (now : ℤ) :
    ∃ value c', get cfg c key now = some (value, c') ∧ Slotted cfg c' := by
  unfold get
  cases hc : c.items.load key with
  | none => exact ⟨none, c, rfl, h⟩
  | some item =>
    dsimp only
    split_ifs
    · obtain ⟨c', hr, hsl, -, -⟩ := removeExpired_ok h key item
      exact ⟨none, c', by rw [hr]; rfl, hsl⟩
    · exact ⟨some item.value, _, rfl, h⟩

theorem foldlM_slotted {f : TTLCache K V → Fin numShards → Option (TTLCache K V)}
    (hf : ∀ c i, Slotted cfg c → ∃ c', f c i = some c' ∧ Slotted cfg c')
    (shards : List (Fin numShards)) :
    ∀ {c : TTLCache K V}, Slotted cfg c → ∃ c', shards.foldlM f c = some c' ∧ Slotted cfg c' := by
  induction shards with
  | nil =>
    intro c h
    exact ⟨c, rfl, h⟩
  | cons i shards ih =>
    intro c h
    obtain ⟨c₁, hstep, h₁⟩ := hf c i h
    obtain ⟨c₂, hrun, h₂⟩ := ih h₁
    refine ⟨c₂, ?_, h₂⟩
    rw [List.foldlM_cons, hstep]
    exact hrun

theorem removeWhere_slotted (selected : CacheItem K V → Bool) (c : TTLCache K V)
    (i : Fin numShards) (h : Slotted cfg c) :
    ∃ c', removeWhere selected c i = some c' ∧ Slotted cfg c' := by
  obtain ⟨c', hr, hsl, -⟩ := removeWhere_ok h selected i
  exact ⟨c', hr, hsl⟩

theorem clear_slotted (h : Slotted cfg c) : Slotted cfg (clear c) := by
  have hfold (shards : List (Fin numShards)) :
      ∀ {c : TTLCache K V}, Slotted cfg c → Slotted cfg (shards.foldl clearLocked c) := by
    induction shards with
    | nil =>
      intro c h
      exact h
    | cons i shards ih =>
      intro c h
      exact ih (clearLocked_ok h i).1
  exact hfold _ h

theorem call_ok (h : Slotted cfg c) (op : CacheCall K V) :
    ∃ c', call cfg c op = some c' ∧ Slotted cfg c' := by
  cases op with
  | set key value ttl now =>
    obtain ⟨_, c', hset, hsl⟩ := setIfGeneration_ok h key value ttl c.generation now
    exact ⟨c', by rw [call, set, hset]; rfl, hsl⟩
  | setIfGeneration key value ttl generation now =>
    obtain ⟨_, c', hset, hsl⟩ := setIfGeneration_ok h key value ttl generation now
    exact ⟨c', by rw [call, hset]; rfl, hsl⟩
  | get key now =>
    obtain ⟨_, c', hget, hsl⟩ := get_ok h key now
    exact ⟨c', by rw [call, hget]; rfl, hsl⟩
  | delete key =>
    have hbump : Slotted cfg (bump c) := h
    obtain ⟨c', hdel, hsl, -⟩ := deleteLocked_ok hbump key
    exact ⟨c', hdel, hsl⟩
  | deleteFunc predicate =>
    have hbump : Slotted cfg (bump c) := h
    exact foldlM_slotted (fun c i => removeWhere_slotted _ c i) _ hbump
  | evictExpired now => exact foldlM_slotted (fun c i => removeWhere_slotted _ c i) _ h
  | clear => exact ⟨clear c, rfl, clear_slotted h⟩

theorem runCalls_ok (calls : List (CacheCall K V)) :
    ∀ {c : TTLCache K V}, Slotted cfg c → ∃ c', runCalls cfg c calls = some c' ∧ Slotted cfg c' := by
  induction calls with
  | nil =>
    intro c h
    exact ⟨c, rfl, h⟩
  | cons op calls ih =>
    intro c h
    obtain ⟨c₁, hcall, h₁⟩ := call_ok h op
    obtain ⟨c₂, hrun, h₂⟩ := ih h₁
    refine ⟨c₂, ?_, h₂⟩
    unfold runCalls
    rw [List.foldlM_cons, hcall]
    exact hrun

theorem get_items (h : Slotted cfg c) {key : K} {now : ℤ} {found : Option V} {c' : TTLCache K V}
    (hget : get cfg c key now = some (found, c')) :
    Slotted cfg c' ∧ Fewer c c' ∧ ∀ value, found = some value →
      ∃ item, c.items.load key = some item ∧ unixMilli now < item.expiredAt ∧ item.value = value := by
  unfold get at hget
  cases hload : c.items.load key with
  | none =>
    rw [hload] at hget
    cases hget
    exact ⟨h, fun _ _ ha => ha, nofun⟩
  | some item =>
    rw [hload] at hget
    dsimp only at hget
    split_ifs at hget with hexpired
    · obtain ⟨c₁, hremove, hslotted, -, hfewer⟩ := removeExpired_ok h key item
      rw [hremove] at hget
      cases hget
      exact ⟨hslotted, hfewer, nofun⟩
    · cases hget
      refine ⟨h, fun _ _ ha => ha, ?_⟩
      intro value hvalue
      cases hvalue
      exact ⟨item, rfl, Int.not_le.mp hexpired, rfl⟩

theorem set_items (h : Slotted cfg c) {key : K} {value : V} {ttl now : ℤ} {stored : Bool}
    {c' : TTLCache K V} (hset : set cfg c key value ttl now = some (stored, c')) :
    Slotted cfg c' ∧ ∀ k item, c'.items.load k = some item →
      c.items.load k = some item ∨ (k = key ∧ item.value = value) := by
  unfold set setIfGeneration at hset
  split_ifs at hset
  · cases hset
    exact ⟨h, fun _ _ ha => Or.inl ha⟩
  · have halloc : Slotted cfg (allocate cfg c key value ttl now).2 := h
    obtain ⟨c₁, hlocked, hslotted, -, hstored, hothers⟩ :=
      setLocked_ok halloc (allocate cfg c key value ttl now).1 rfl
    dsimp only at hset
    rw [show cfg.getShard key = cfg.getShard (allocate cfg c key value ttl now).1.key from rfl,
      hlocked] at hset
    cases hset
    refine ⟨hslotted, ?_⟩
    intro k item hitem
    by_cases hk : k = key
    · obtain ⟨slot, hslot⟩ := hstored
      right
      refine ⟨hk, ?_⟩
      rw [hk, show key = (allocate cfg c key value ttl now).1.key from rfl, hslot] at hitem
      cases hitem
      rfl
    · exact Or.inl (hothers k item hk hitem)

theorem clear_items (h : Slotted cfg c) (k : K) : (clear c).items.load k = none := by
  have hfold (shards : List (Fin numShards)) : ∀ {c : TTLCache K V}, Slotted cfg c →
      (cfg.getShard k ∈ shards ∨ c.items.load k = none) →
      (shards.foldl clearLocked c).items.load k = none := by
    induction shards with
    | nil =>
      intro c _ hk
      exact hk.resolve_left (List.not_mem_nil)
    | cons i shards ih =>
      intro c h hk
      obtain ⟨hslotted, -, hfewer, hcleared⟩ := clearLocked_ok h i
      apply ih hslotted
      rcases hk with hmem | hnone
      · rcases List.mem_cons.mp hmem with hi | hrest
        · exact Or.inr (hcleared k hi)
        · exact Or.inl hrest
      · right
        cases hload : (clearLocked c i).items.load k with
        | none => rfl
        | some item =>
          rw [hfewer k item hload] at hnone
          cases hnone
  have hbump : Slotted cfg (bump c) := h
  exact hfold _ hbump (Or.inl (List.mem_finRange _))

theorem evictExpired_items (h : Slotted cfg c) {now : ℤ} {c' : TTLCache K V}
    (hevict : evictExpired c now = some c') : Slotted cfg c' ∧ Fewer c c' := by
  have hfold (shards : List (Fin numShards)) : ∀ {c : TTLCache K V}, Slotted cfg c →
      shards.foldlM (evictExpiredLocked now) c = some c' → Slotted cfg c' ∧ Fewer c c' := by
    induction shards with
    | nil =>
      intro c h hrun
      cases hrun
      exact ⟨h, fun _ _ ha => ha⟩
    | cons i shards ih =>
      intro c h hrun
      obtain ⟨c₁, hstep, hslotted, -, hfewer, -⟩ :=
        removeWhere_ok (i := i) h (fun item => decide (item.expiredAt ≤ unixMilli now))
      rw [List.foldlM_cons, show evictExpiredLocked now c i = some c₁ from hstep] at hrun
      obtain ⟨hend, hrest⟩ := ih hslotted hrun
      exact ⟨hend, fun k a ha => hfewer k a (hrest k a ha)⟩
  exact hfold _ h hevict

def slotKeys (c : TTLCache K V) : List K :=
  (List.finRange numShards).flatMap fun i => (c.shards i).values.map (·.key)

theorem shardKeys_nodup {i : Fin numShards} (h : Slotted cfg c) :
    ((c.shards i).values.map (·.key)).Nodup := by
  have hmap : (c.shards i).values.map (·.key) =
      (c.shards i).slots.filterMap (Option.map (·.key)) := by
    rw [SlotTable.values, List.reduceOption, List.map_filterMap]
    rfl
  rw [hmap]
  apply List.pairwise_filterMap.mpr
  apply List.pairwise_iff_getElem.mpr
  intro m n hm hn hlt k hk k' hk' heq
  obtain ⟨a, ha, rfl⟩ := Option.map_eq_some_iff.mp hk
  obtain ⟨b, hb, rfl⟩ := Option.map_eq_some_iff.mp hk'
  have hma : (c.shards i).slots[m]? = some (some a) := List.getElem?_eq_some_iff.mpr ⟨hm, ha⟩
  have hnb : (c.shards i).slots[n]? = some (some b) := List.getElem?_eq_some_iff.mpr ⟨hn, hb⟩
  have := (h i).key_injective hma hnb heq
  omega

theorem slotKeys_nodup (h : Slotted cfg c) : (slotKeys c).Nodup := by
  apply List.nodup_flatMap.mpr
  constructor
  · intro i _
    exact shardKeys_nodup h
  · apply List.Nodup.pairwise_of_forall_ne (List.nodup_finRange numShards)
    intro i _ j _ hij k hi hj
    obtain ⟨a, ha, rfl⟩ := List.mem_map.mp hi
    obtain ⟨b, hb, hkey⟩ := List.mem_map.mp hj
    obtain ⟨m, hm⟩ := (SlotTable.mem_values _ a).mp ha
    obtain ⟨n, hn⟩ := (SlotTable.mem_values _ b).mp hb
    obtain ⟨-, hai, -⟩ := (h i).occupied m a hm
    obtain ⟨-, hbj, -⟩ := (h j).occupied n b hn
    rw [hkey] at hbj
    exact hij (hai.symm.trans hbj)

theorem mem_slotKeys (h : Slotted cfg c) (k : K) : k ∈ slotKeys c ↔ k ∈ c.items.keys := by
  rw [slotKeys, List.mem_flatMap, GoMap.mem_keys_iff]
  constructor
  · intro hk
    obtain ⟨i, -, hk⟩ := hk
    obtain ⟨a, ha, rfl⟩ := List.mem_map.mp hk
    obtain ⟨n, hn⟩ := (SlotTable.mem_values _ a).mp ha
    exact ⟨a, ((h i).occupied n a hn).2.2⟩
  · intro hk
    obtain ⟨a, ha⟩ := hk
    obtain ⟨hkey, hslot⟩ := (h (cfg.getShard k)).stored k a rfl ha
    exact ⟨cfg.getShard k, List.mem_finRange _,
      List.mem_map.mpr ⟨a, (SlotTable.mem_values _ a).mpr ⟨_, hslot⟩, hkey⟩⟩

theorem len_eq_size (h : Slotted cfg c) : len c = c.items.size := by
  have hperm : (slotKeys c).Perm c.items.keys :=
    (List.perm_ext_iff_of_nodup (slotKeys_nodup h) c.items.nodupKeys).mpr (mem_slotKeys h)
  have hsize : c.items.size = (slotKeys c).length := by
    rw [hperm.length_eq]
    exact (List.length_map _).symm
  rw [hsize, len, slotKeys, List.length_flatMap, Nat.cast_list_sum, List.map_map]
  congr 1
  apply List.map_congr_left
  intro i _
  have hval := (h i).wf.length_values
  have hle := (h i).wf.free_le
  show ((c.shards i).slots.length : ℤ) - (c.shards i).free.length =
    (((c.shards i).values.map (·.key)).length : ℤ)
  rw [List.length_map]
  omega

structure SlotInvariant (cfg : TTLConfig K) (c : TTLCache K V) (i : Fin numShards) : Prop where
  bounded : (c.shards i).slots.length ≤ cfg.maxEntriesPerShard
  freeNodup : (c.shards i).free.Nodup
  free_iff : ∀ n : ℕ, n ∈ (c.shards i).free ↔ (c.shards i).slots[n]? = some none
  slot_eq : ∀ (n : ℕ) (a : CacheItem K V),
    (c.shards i).slots[n]? = some (some a) → a.slot = n
  keysDistinct : ∀ (m n : ℕ) (a b : CacheItem K V), (c.shards i).slots[m]? = some (some a) →
    (c.shards i).slots[n]? = some (some b) → a.key = b.key → m = n
  items_iff : ∀ (k : K) (a : CacheItem K V), cfg.getShard k = i →
    (c.items.load k = some a ↔ a.key = k ∧ some a ∈ (c.shards i).slots)
  slot_shard : ∀ a : CacheItem K V, some a ∈ (c.shards i).slots → cfg.getShard a.key = i
  hand_lt : (c.shards i).slots ≠ [] → (c.shards i).hand < (c.shards i).slots.length

theorem Slotted.invariant (h : Slotted cfg c) (i : Fin numShards) : SlotInvariant cfg c i where
  bounded := (h i).bounded
  freeNodup := (h i).wf.nodup
  free_iff := (h i).wf.free_iff
  slot_eq := fun n a ha => ((h i).occupied n a ha).1
  keysDistinct := fun _ _ _ _ ha hb hab => (h i).key_injective ha hb hab
  items_iff := by
    intro k a hk
    constructor
    · intro ha
      obtain ⟨hkey, hslot⟩ := (h i).stored k a hk ha
      exact ⟨hkey, List.mem_of_getElem? hslot⟩
    · intro ha
      obtain ⟨hkey, hmem⟩ := ha
      obtain ⟨n, hn⟩ := List.getElem?_of_mem hmem
      rw [← hkey]
      exact ((h i).occupied n a hn).2.2
  slot_shard := by
    intro a ha
    obtain ⟨n, hn⟩ := List.getElem?_of_mem ha
    exact ((h i).occupied n a hn).2.1
  hand_lt := by
    intro hne
    have hpos : 0 < (c.shards i).slots.length := List.length_pos_iff.mpr hne
    have := (h i).hand
    omega

theorem newTTLCache_slotted (cfg : TTLConfig K) : Slotted cfg (newTTLCache : TTLCache K V) :=
  fun _ => ShardOk.of_empty fun _ _ => rfl

/-- Every sequence of calls ends without a panic, with the slot tables in order and `Len` the
number of the stored keys. -/
theorem runCalls_slot_tables (cfg : TTLConfig K) (calls : List (CacheCall K V)) :
    ∃ c, runCalls cfg newTTLCache calls = some c ∧ (∀ i, SlotInvariant cfg c i) ∧
      len c = c.items.size := by
  obtain ⟨c, hrun, h⟩ := runCalls_ok calls (newTTLCache_slotted cfg)
  exact ⟨c, hrun, h.invariant, len_eq_size h⟩

end RenoP.Cache.TTL
