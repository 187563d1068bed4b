import RenoP.Cache.TTLCache

/-!
# The slot table and the read index

The items of the read index whose keys hash to a shard are the items in the slots of that shard,
each at its own slot.
-/

namespace RenoP.Cache.TTL

variable {K V : Type} [DecidableEq K] {cfg : TTLConfig K}

structure ShardOk (cfg : TTLConfig K) (items : GoMap K (CacheItem K V)) (i : Fin numShards)
    (t : SlotTable (CacheItem K V)) (hand : ℕ) : Prop where
  wf : t.Wf
  bounded : t.slots.length ≤ cfg.maxEntriesPerShard
  occupied : ∀ n a, t.slots[n]? = some (some a) →
    a.slot = n ∧ cfg.getShard a.key = i ∧ items.load a.key = some a
  stored : ∀ k a, cfg.getShard k = i → items.load k = some a →
    a.key = k ∧ t.slots[a.slot]? = some (some a)
  hand : hand = 0 ∨ hand < t.slots.length

def Slotted (cfg : TTLConfig K) (c : TTLCache K V) : Prop :=
  ∀ i, ShardOk cfg c.items i (c.shards i).toSlotTable (c.shards i).hand

section Table

variable {items : GoMap K (CacheItem K V)} {i : Fin numShards} {t : SlotTable (CacheItem K V)}
  {hand : ℕ}

theorem ShardOk.congr {items' : GoMap K (CacheItem K V)} (h : ShardOk cfg items i t hand)
    (hk : ∀ k, cfg.getShard k = i → items'.load k = items.load k) :
    ShardOk cfg items' i t hand where
  wf := h.wf
  bounded := h.bounded
  occupied := by
    intro n a ha
    obtain ⟨h1, h2, h3⟩ := h.occupied n a ha
    exact ⟨h1, h2, (hk a.key h2).trans h3⟩
  stored := by
    intro k a hi ha
    rw [hk k hi] at ha
    exact h.stored k a hi ha
  hand := h.hand

theorem ShardOk.of_empty (hk : ∀ k, cfg.getShard k = i → items.load k = none) :
    ShardOk cfg items i SlotTable.empty 0 where
  wf := SlotTable.empty_wf
  bounded := Nat.zero_le _
  occupied := by
    intro n a ha
    cases ha
  stored := by
    intro k a hi ha
    rw [hk k hi] at ha
    cases ha
  hand := Or.inl rfl

theorem ShardOk.key_injective (h : ShardOk cfg items i t hand) {m n : ℕ} {a b : CacheItem K V}
    (ha : t.slots[m]? = some (some a)) (hb : t.slots[n]? = some (some b)) (hab : a.key = b.key) :
    m = n := by
  obtain ⟨hm, -, hla⟩ := h.occupied m a ha
  obtain ⟨hn, -, hlb⟩ := h.occupied n b hb
  rw [hab, hlb] at hla
  cases hla
  omega

theorem ShardOk.full (h : ShardOk cfg items i t hand) (hfree : t.free = []) {n : ℕ}
    (hn : n < t.slots.length) : ∃ a, t.slots[n]? = some (some a) := by
  cases hs : t.slots[n]? with
  | none =>
    have := List.getElem?_eq_none_iff.mp hs
    omega
  | some x =>
    cases x with
    | none =>
      have hmem := (h.wf.free_iff n).mpr hs
      rw [hfree] at hmem
      cases hmem
    | some a => exact ⟨a, rfl⟩

theorem ShardOk.release (h : ShardOk cfg items i t hand) {entry : CacheItem K V}
    (he : t.slots[entry.slot]? = some (some entry)) :
    ShardOk cfg (items.delete entry.key) i (t.release entry.slot) hand where
  wf := h.wf.release he
  bounded := by
    show (t.slots.set entry.slot none).length ≤ _
    rw [List.length_set]
    exact h.bounded
  occupied := by
    intro n a ha
    obtain ⟨-, -, hload⟩ := h.occupied entry.slot entry he
    rw [SlotTable.slots_release] at ha
    by_cases hn : entry.slot = n
    · rw [if_pos hn] at ha
      split_ifs at ha
      cases ha
    · rw [if_neg hn] at ha
      obtain ⟨h1, h2, h3⟩ := h.occupied n a ha
      have hne : a.key ≠ entry.key := by
        intro hkey
        rw [hkey, hload] at h3
        cases h3
        exact hn h1
      rw [GoMap.load_delete_ne _ hne]
      exact ⟨h1, h2, h3⟩
  stored := by
    intro k a hk ha
    rw [GoMap.load_delete] at ha
    split_ifs at ha with hkey
    obtain ⟨h1, h2⟩ := h.stored k a hk ha
    refine ⟨h1, ?_⟩
    rw [SlotTable.slots_release, if_neg]
    · exact h2
    · intro hslot
      rw [← hslot, he] at h2
      cases h2
      exact hkey h1.symm
  hand := by
    show hand = 0 ∨ hand < (t.slots.set entry.slot none).length
    rw [List.length_set]
    exact h.hand

/-- A slot that an item of `key` may be written to: whatever else the index holds stands in
another slot. -/
structure Vacant (cfg : TTLConfig K) (items : GoMap K (CacheItem K V)) (i : Fin numShards)
    (t : SlotTable (CacheItem K V)) (hand slot : ℕ) (key : K) : Prop where
  lt : slot < t.slots.length
  wf : ∀ a, (t.put slot a).Wf
  bounded : t.slots.length ≤ cfg.maxEntriesPerShard
  occupied : ∀ n a, n ≠ slot → t.slots[n]? = some (some a) →
    a.slot = n ∧ cfg.getShard a.key = i ∧ items.load a.key = some a ∧ a.key ≠ key
  stored : ∀ k a, k ≠ key → cfg.getShard k = i → items.load k = some a →
    a.key = k ∧ t.slots[a.slot]? = some (some a) ∧ a.slot ≠ slot
  hand : hand = 0 ∨ hand < t.slots.length

theorem Vacant.put (entry : CacheItem K V)
    (h : Vacant cfg items i t hand entry.slot entry.key) (hi : cfg.getShard entry.key = i) :
    ShardOk cfg (items.store entry.key entry) i (t.put entry.slot entry) hand where
  wf := h.wf entry
  bounded := by
    show (t.slots.set entry.slot (some entry)).length ≤ _
    rw [List.length_set]
    exact h.bounded
  occupied := by
    intro n a ha
    rw [SlotTable.slots_put, if_pos h.lt] at ha
    by_cases hn : entry.slot = n
    · rw [if_pos hn] at ha
      cases ha
      exact ⟨hn, hi, GoMap.load_store_self _ _ _⟩
    · rw [if_neg hn] at ha
      obtain ⟨h1, h2, h3, h4⟩ := h.occupied n a (Ne.symm hn) ha
      rw [GoMap.load_store_ne _ _ h4]
      exact ⟨h1, h2, h3⟩
  stored := by
    intro k a hk ha
    rw [GoMap.load_store] at ha
    rw [SlotTable.slots_put, if_pos h.lt]
    split_ifs at ha with hkey
    · cases ha
      rw [if_pos rfl]
      exact ⟨hkey.symm, rfl⟩
    · obtain ⟨h1, h2, h3⟩ := h.stored k a hkey hk ha
      rw [if_neg (Ne.symm h3)]
      exact ⟨h1, h2⟩
  hand := by
    show hand = 0 ∨ hand < (t.slots.set entry.slot (some entry)).length
    rw [List.length_set]
    exact h.hand

theorem ShardOk.vacant_current (h : ShardOk cfg items i t hand) {key : K} {current : CacheItem K V}
    (hi : cfg.getShard key = i) (hc : items.load key = some current) :
    Vacant cfg items i t hand current.slot key := by
  obtain ⟨hkey, hslot⟩ := h.stored key current hi hc
  exact {
    lt := (List.getElem?_eq_some_iff.mp hslot).1
    wf := fun a => h.wf.put hslot
    bounded := h.bounded
    occupied := by
      intro n a hn ha
      obtain ⟨h1, h2, h3⟩ := h.occupied n a ha
      refine ⟨h1, h2, h3, ?_⟩
      intro hak
      rw [hak, hc] at h3
      cases h3
      exact hn h1.symm
    stored := by
      intro k a hk hki ha
      obtain ⟨h1, h2⟩ := h.stored k a hki ha
      refine ⟨h1, h2, ?_⟩
      intro hs
      rw [hs, hslot] at h2
      cases h2
      exact hk (h1.symm.trans hkey)
    hand := h.hand }

theorem ShardOk.vacant_free (h : ShardOk cfg items i t hand) {key : K} {slot : ℕ} {free : List ℕ}
    (hfree : t.free = slot :: free) (hc : items.load key = none) :
    Vacant cfg items i { t with free := free } hand slot key := by
  have hnil : t.slots[slot]? = some none := by
    rw [← h.wf.free_iff, hfree]
    exact List.mem_cons_self ..
  exact {
    lt := (List.getElem?_eq_some_iff.mp hnil).1
    wf := by
      intro a
      apply SlotTable.Wf.take
      rw [← hfree]
      exact h.wf
    bounded := h.bounded
    occupied := by
      intro n a _ ha
      obtain ⟨h1, h2, h3⟩ := h.occupied n a ha
      refine ⟨h1, h2, h3, ?_⟩
      intro hak
      rw [hak, hc] at h3
      cases h3
    stored := by
      intro k a _ hki ha
      obtain ⟨h1, h2⟩ := h.stored k a hki ha
      refine ⟨h1, h2, ?_⟩
      intro hs
      rw [hs, hnil] at h2
      cases h2
    hand := h.hand }

theorem ShardOk.vacant_grow (h : ShardOk cfg items i t hand) {key : K}
    (hlt : t.slots.length < cfg.maxEntriesPerShard) (hc : items.load key = none) :
    Vacant cfg items i { t with slots := t.slots ++ [none] } hand t.slots.length key := by
  have hlen : (t.slots ++ [none]).length = t.slots.length + 1 := by simp
  have hold {n : ℕ} (hn : n ≠ t.slots.length) : (t.slots ++ [none])[n]? = t.slots[n]? := by
    by_cases hl : n < t.slots.length
    · exact List.getElem?_append_left hl
    · rw [List.getElem?_eq_none (by omega), List.getElem?_eq_none (by omega)]
  exact {
    lt := by
      show t.slots.length < (t.slots ++ [none]).length
      omega
    wf := fun a => h.wf.grow a
    bounded := by
      show (t.slots ++ [none]).length ≤ _
      omega
    occupied := by
      intro n a hn ha
      replace ha : (t.slots ++ [none])[n]? = some (some a) := ha
      rw [hold hn] at ha
      obtain ⟨h1, h2, h3⟩ := h.occupied n a ha
      refine ⟨h1, h2, h3, ?_⟩
      intro hak
      rw [hak, hc] at h3
      cases h3
    stored := by
      intro k a _ hki ha
      obtain ⟨h1, h2⟩ := h.stored k a hki ha
      have hne : a.slot ≠ t.slots.length := by
        have := (List.getElem?_eq_some_iff.mp h2).1
        omega
      refine ⟨h1, ?_, hne⟩
      show (t.slots ++ [none])[a.slot]? = some (some a)
      rw [hold hne]
      exact h2
    hand := by
      show hand = 0 ∨ hand < (t.slots ++ [none]).length
      have := h.hand
      omega }

theorem ShardOk.vacant_evicted (h : ShardOk cfg items i t hand) {key : K}
    {previous : CacheItem K V} {hand' : ℕ} (hp : t.slots[previous.slot]? = some (some previous))
    (hc : items.load key = none) (hhand : hand' < t.slots.length) :
    Vacant cfg (items.delete previous.key) i t hand' previous.slot key := by
  obtain ⟨-, -, hload⟩ := h.occupied previous.slot previous hp
  exact {
    lt := (List.getElem?_eq_some_iff.mp hp).1
    wf := fun a => h.wf.put hp
    bounded := h.bounded
    occupied := by
      intro n a hn ha
      obtain ⟨h1, h2, h3⟩ := h.occupied n a ha
      have hne : a.key ≠ previous.key := by
        intro hkey
        rw [hkey, hload] at h3
        cases h3
        exact hn h1.symm
      rw [GoMap.load_delete_ne _ hne]
      refine ⟨h1, h2, h3, ?_⟩
      intro hak
      rw [hak, hc] at h3
      cases h3
    stored := by
      intro k a _ hki ha
      rw [GoMap.load_delete] at ha
      split_ifs at ha with hkp
      obtain ⟨h1, h2⟩ := h.stored k a hki ha
      refine ⟨h1, h2, ?_⟩
      intro hs
      rw [hs, hp] at h2
      cases h2
      exact hkp h1.symm
    hand := Or.inr hhand }

omit [DecidableEq K] in
theorem candidateAt_eq_some {slots : List (Option (CacheItem K V))} {n : ℕ} {a : CacheItem K V} :
    candidateAt slots n = some a ↔ slots[n]? = some (some a) := by
  unfold candidateAt
  rw [Option.join_eq_some_iff]

structure SampleOk (slots : List (Option (CacheItem K V))) (s : Sample K V) : Prop where
  hand : s.hand < slots.length
  previous : ∀ p, s.previous = some p → some p ∈ slots

theorem sampleStep_ok {slots : List (Option (CacheItem K V))} {s : Sample K V}
    (hfull : ∀ n, n < slots.length → ∃ a, slots[n]? = some (some a)) (h : SampleOk slots s) :
    ∃ s', sampleStep slots s = some s' ∧ SampleOk slots s' := by
  obtain ⟨candidate, hcand⟩ := hfull s.hand h.hand
  have hmem : some candidate ∈ slots := List.mem_of_getElem? hcand
  have hhand : (s.hand + 1) % slots.length < slots.length := Nat.mod_lt _ (by have := h.hand; omega)
  unfold sampleStep
  rw [candidateAt_eq_some.mpr hcand]
  dsimp only
  split_ifs
  · exact ⟨_, rfl, hhand, h.previous⟩
  · cases hp : s.previous with
    | none =>
      refine ⟨_, rfl, hhand, ?_⟩
      intro p hp'
      cases hp'
      exact hmem
    | some previous =>
      dsimp only
      split_ifs
      · refine ⟨_, rfl, hhand, ?_⟩
        intro p hp'
        cases hp'
        exact hmem
      · refine ⟨_, rfl, hhand, ?_⟩
        intro p hp'
        exact h.previous p (hp.trans hp')

theorem sampleLoop_ok {slots : List (Option (CacheItem K V))}
    (hfull : ∀ n, n < slots.length → ∃ a, slots[n]? = some (some a)) (turns : ℕ) :
    ∀ {s : Sample K V}, SampleOk slots s →
      ∃ s', sampleLoop slots turns s = some s' ∧ SampleOk slots s' := by
  induction turns with
  | zero =>
    intro s h
    exact ⟨s, rfl, h⟩
  | succ n ih =>
    intro s h
    obtain ⟨s₁, hstep, h₁⟩ := sampleStep_ok hfull h
    obtain ⟨s₂, hloop, h₂⟩ := ih h₁
    refine ⟨s₂, ?_, h₂⟩
    rw [sampleLoop, hstep]
    exact hloop

theorem evictionVictim_ok {c : TTLCache K V} {shard : CacheShard K V}
    (h : ShardOk cfg c.items i shard.toSlotTable shard.hand) (hfree : shard.free = [])
    (hpos : 0 < shard.slots.length) :
    ∃ previous hand accessed, evictionVictim c shard = some (previous, hand, accessed) ∧
      shard.slots[previous.slot]? = some (some previous) ∧ hand < shard.slots.length := by
  have hfull : ∀ n, n < shard.slots.length → ∃ a, shard.slots[n]? = some (some a) :=
    fun n hn => h.full hfree hn
  have hstart : SampleOk shard.slots ⟨shard.hand, c.accessed, none⟩ := by
    constructor
    · have := h.hand
      show shard.hand < shard.slots.length
      omega
    · intro p hp
      cases hp
  obtain ⟨s, hloop, hs⟩ :=
    sampleLoop_ok hfull (min evictionSampleSize shard.slots.length) hstart
  have hslot {p : CacheItem K V} (hp : some p ∈ shard.slots) :
      shard.slots[p.slot]? = some (some p) := by
    obtain ⟨n, hn⟩ := List.getElem?_of_mem hp
    obtain ⟨hpn, -, -⟩ := h.occupied n p hn
    rw [hpn]
    exact hn
  unfold evictionVictim
  dsimp only
  rw [hloop]
  cases hp : s.previous with
  | some previous =>
    simp only [hp]
    exact ⟨previous, s.hand, s.accessed, rfl, hslot (hs.previous previous hp), hs.hand⟩
  | none =>
    obtain ⟨candidate, hcand⟩ := hfull s.hand hs.hand
    simp only [hp, candidateAt_eq_some.mpr hcand]
    exact ⟨candidate, _, s.accessed, rfl, hslot (List.mem_of_getElem? hcand),
      Nat.mod_lt _ hpos⟩

end Table

end RenoP.Cache.TTL
