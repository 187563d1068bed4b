import RenoP.Cache.Slots

/-!
# Sections and calls of the cache

Every section that runs under a shard lock ends without a panic, keeps the slot table of every shard
and says what it did to the read index.
-/

namespace RenoP.Cache.TTL

variable {K V : Type} [DecidableEq K] {cfg : TTLConfig K} {c : TTLCache K V} {i : Fin numShards}

structure Keeps (c c' : TTLCache K V) : Prop where
  generation : c'.generation = c.generation
  inFlight : ∀ j, (c'.shards j).inFlight = (c.shards j).inFlight

def Fewer (c c' : TTLCache K V) : Prop :=
  ∀ k a, c'.items.load k = some a → c.items.load k = some a

omit [DecidableEq K] in
theorem Keeps.refl (c : TTLCache K V) : Keeps c c := ⟨rfl, fun _ => rfl⟩

omit [DecidableEq K] in
theorem Keeps.trans {c c' c'' : TTLCache K V} (h : Keeps c c') (h' : Keeps c' c'') :
    Keeps c c'' :=
  ⟨h'.generation.trans h.generation, fun j => (h'.inFlight j).trans (h.inFlight j)⟩

omit [DecidableEq K] in
theorem keeps_setShard {c' : TTLCache K V} {shard : CacheShard K V}
    (hs : c'.shards = Function.update c.shards i shard)
    (hf : shard.inFlight = (c.shards i).inFlight) (hg : c'.generation = c.generation) :
    Keeps c c' where
  generation := hg
  inFlight := by
    intro j
    rw [hs]
    by_cases hj : j = i
    · subst hj
      rw [Function.update_self]
      exact hf
    · rw [Function.update_of_ne hj]

theorem Slotted.write {c' : TTLCache K V} {shard : CacheShard K V}
    (h : ∀ j, j ≠ i → ShardOk cfg c.items j (c.shards j).toSlotTable (c.shards j).hand)
    (hs : c'.shards = Function.update c.shards i shard)
    (hk : ∀ k, cfg.getShard k ≠ i → c'.items.load k = c.items.load k)
    (hi : ShardOk cfg c'.items i shard.toSlotTable shard.hand) : Slotted cfg c' := by
  intro j
  rw [hs]
  by_cases hj : j = i
  · subst hj
    rw [Function.update_self]
    exact hi
  · rw [Function.update_of_ne hj]
    apply (h j hj).congr
    intro k hkj
    apply hk
    rw [hkj]
    exact hj

theorem removeLocked_ok (h : Slotted cfg c) {entry : CacheItem K V}
    (he : (c.shards i).slots[entry.slot]? = some (some entry)) :
    ∃ c', removeLocked c i entry = some c' ∧ Slotted cfg c' ∧ Keeps c c' ∧
      c'.items = c.items.delete entry.key ∧
      (c'.shards i).slots = (c.shards i).slots.set entry.slot none := by
  have hlt : entry.slot < (c.shards i).slots.length := (List.getElem?_eq_some_iff.mp he).1
  obtain ⟨-, hshard, -⟩ := (h i).occupied entry.slot entry he
  refine ⟨_, if_pos hlt, ?_, keeps_setShard rfl rfl rfl, rfl, ?_⟩
  · apply Slotted.write (fun j _ => h j) rfl
    · intro k hk
      apply GoMap.load_delete_ne
      intro hkey
      rw [hkey] at hk
      exact hk hshard
    · exact (h i).release he
  · show (Function.update c.shards i _ i).slots = _
    rw [Function.update_self]
    rfl

theorem publish_ok {entry : CacheItem K V} {slot : ℕ}
    (h : ∀ j, j ≠ i → ShardOk cfg c.items j (c.shards j).toSlotTable (c.shards j).hand)
    (hv : Vacant cfg c.items i (c.shards i).toSlotTable (c.shards i).hand slot entry.key)
    (hi : cfg.getShard entry.key = i) :
    ∃ c', publish c i { entry with slot := slot } = some c' ∧ Slotted cfg c' ∧ Keeps c c' ∧
      c'.items = c.items.store entry.key { entry with slot := slot } := by
  have hput : ShardOk cfg (c.items.store entry.key { entry with slot := slot }) i
      ((c.shards i).put slot { entry with slot := slot }) (c.shards i).hand :=
    Vacant.put { entry with slot := slot } hv hi
  refine ⟨_, if_pos hv.lt, ?_, keeps_setShard rfl rfl rfl, rfl⟩
  apply Slotted.write h rfl
  · intro k hk
    apply GoMap.load_store_ne
    intro hkey
    rw [hkey] at hk
    exact hk hi
  · exact hput

theorem Slotted.others {c' : TTLCache K V} {shard : CacheShard K V} (h : Slotted cfg c)
    (hs : c'.shards = Function.update c.shards i shard)
    (hk : ∀ k, cfg.getShard k ≠ i → c'.items.load k = c.items.load k) (j : Fin numShards)
    (hj : j ≠ i) : ShardOk cfg c'.items j (c'.shards j).toSlotTable (c'.shards j).hand := by
  rw [hs, Function.update_of_ne hj]
  apply (h j).congr
  intro k hkj
  apply hk
  rw [hkj]
  exact hj

def Stored (c : TTLCache K V) (entry : CacheItem K V) (c' : TTLCache K V) : Prop :=
  (∃ slot, c'.items.load entry.key = some { entry with slot := slot }) ∧
    ∀ k a, k ≠ entry.key → c'.items.load k = some a → c.items.load k = some a

theorem stored_of_store {c₁ c' : TTLCache K V} {entry : CacheItem K V} {slot : ℕ}
    (hf : Fewer c c₁) (hs : c'.items = c₁.items.store entry.key { entry with slot := slot }) :
    Stored c entry c' := by
  constructor
  · refine ⟨slot, ?_⟩
    rw [hs]
    exact GoMap.load_store_self _ _ _
  · intro k a hk ha
    rw [hs, GoMap.load_store_ne _ _ hk] at ha
    exact hf k a ha

theorem setLocked_ok (h : Slotted cfg c) (entry : CacheItem K V)
    (hi : cfg.getShard entry.key = i) :
    ∃ c', setLocked cfg c i entry = some c' ∧ Slotted cfg c' ∧ Keeps c c' ∧
      Stored c entry c' := by
  unfold setLocked
  dsimp only
  cases hc : c.items.load entry.key with
  | some current =>
    have hv := (h i).vacant_current hi hc
    obtain ⟨c', hp, hsl, hkeep, hitems⟩ :=
      publish_ok (c := c) (i := i) (fun j _ => h j) hv hi
    exact ⟨c', hp, hsl, hkeep, stored_of_store (fun _ _ ha => ha) hitems⟩
  | none =>
    dsimp only
    cases hfree : (c.shards i).free with
    | cons slot free =>
      dsimp only
      generalize hc₁ : c.setShard i { c.shards i with free := free } = c₁
      have hs₁ : c₁.shards = Function.update c.shards i { c.shards i with free := free } := by
        rw [← hc₁]
        rfl
      have hitems₁ : c₁.items = c.items := by
        rw [← hc₁]
        rfl
      have hv : Vacant cfg c₁.items i (c₁.shards i).toSlotTable (c₁.shards i).hand slot
          entry.key := by
        rw [hs₁, Function.update_self, hitems₁]
        exact (h i).vacant_free hfree hc
      obtain ⟨c', hp, hsl, hkeep, hitems⟩ :=
        publish_ok (h.others hs₁ fun k _ => by rw [hitems₁]) hv hi
      have hkeep₁ : Keeps c c₁ := keeps_setShard hs₁ rfl (by rw [← hc₁]; rfl)
      refine ⟨c', hp, hsl, hkeep₁.trans hkeep, stored_of_store ?_ hitems⟩
      intro k a ha
      rwa [hitems₁] at ha
    | nil =>
      dsimp only
      split_ifs with hlt
      · generalize hc₁ : c.setShard i
          { c.shards i with slots := (c.shards i).slots ++ [none], free := [] } = c₁
        have hs₁ : c₁.shards = Function.update c.shards i
            { c.shards i with slots := (c.shards i).slots ++ [none], free := [] } := by
          rw [← hc₁]
          rfl
        have hitems₁ : c₁.items = c.items := by
          rw [← hc₁]
          rfl
        have hv : Vacant cfg c₁.items i (c₁.shards i).toSlotTable (c₁.shards i).hand
            (c.shards i).slots.length entry.key := by
          have hgrow := (h i).vacant_grow hlt hc
          rw [hfree] at hgrow
          rw [hs₁, Function.update_self, hitems₁]
          exact hgrow
        obtain ⟨c', hp, hsl, hkeep, hitems⟩ :=
          publish_ok (h.others hs₁ fun k _ => by rw [hitems₁]) hv hi
        have hkeep₁ : Keeps c c₁ := keeps_setShard hs₁ rfl (by rw [← hc₁]; rfl)
        refine ⟨c', hp, hsl, hkeep₁.trans hkeep, stored_of_store ?_ hitems⟩
        intro k a ha
        rwa [hitems₁] at ha
      · have hpos : 0 < (c.shards i).slots.length := by
          have := cfg.maxEntries_pos
          omega
        obtain ⟨previous, hand, accessed, hvictim, hslot, hhand⟩ :=
          evictionVictim_ok (h i) hfree hpos
        obtain ⟨-, hshard, -⟩ := (h i).occupied previous.slot previous hslot
        simp only [hvictim]
        generalize hc₁ : ({ c.setShard i { c.shards i with hand := hand } with
          accessed := accessed, items := c.items.delete previous.key } : TTLCache K V) = c₁
        have hs₁ : c₁.shards = Function.update c.shards i { c.shards i with hand := hand } := by
          rw [← hc₁]
          rfl
        have hitems₁ : c₁.items = c.items.delete previous.key := by rw [← hc₁]
        have hv : Vacant cfg c₁.items i (c₁.shards i).toSlotTable (c₁.shards i).hand previous.slot
            entry.key := by
          rw [hs₁, Function.update_self, hitems₁]
          exact (h i).vacant_evicted hslot hc hhand
        have hother : ∀ k, cfg.getShard k ≠ i → c₁.items.load k = c.items.load k := by
          intro k hk
          rw [hitems₁]
          apply GoMap.load_delete_ne
          intro hkey
          rw [hkey] at hk
          exact hk hshard
        obtain ⟨c', hp, hsl, hkeep, hitems⟩ :=
          publish_ok (h.others hs₁ hother) hv hi
        have hkeep₁ : Keeps c c₁ := keeps_setShard hs₁ rfl (by rw [← hc₁]; rfl)
        refine ⟨c', hp, hsl, hkeep₁.trans hkeep, stored_of_store ?_ hitems⟩
        intro k a ha
        rw [hitems₁, GoMap.load_delete] at ha
        split_ifs at ha
        exact ha

theorem removeLocked_indexed (h : Slotted cfg c) {key : K} {item : CacheItem K V}
    (hc : c.items.load key = some item) :
    ∃ c', removeLocked c (cfg.getShard key) item = some c' ∧ Slotted cfg c' ∧ Keeps c c' ∧
      c'.items = c.items.delete key := by
  obtain ⟨hkey, hslot⟩ := (h (cfg.getShard key)).stored key item rfl hc
  obtain ⟨c', hr, hsl, hkeep, hitems, -⟩ := removeLocked_ok h hslot
  rw [hkey] at hitems
  exact ⟨c', hr, hsl, hkeep, hitems⟩

theorem fewer_delete {c' : TTLCache K V} {key : K} (h : c'.items = c.items.delete key) :
    Fewer c c' := by
  intro k a ha
  rw [h, GoMap.load_delete] at ha
  split_ifs at ha
  exact ha

theorem removeExpired_ok (h : Slotted cfg c) (key : K) (item : CacheItem K V) :
    ∃ c', removeExpired cfg c key item = some c' ∧ Slotted cfg c' ∧ Keeps c c' ∧ Fewer c c' := by
  unfold removeExpired
  cases hc : c.items.load key with
  | none => exact ⟨c, rfl, h, Keeps.refl c, fun _ _ ha => ha⟩
  | some current =>
    dsimp only
    split_ifs
    · obtain ⟨c', hr, hsl, hkeep, hitems⟩ := removeLocked_indexed h hc
      exact ⟨c', hr, hsl, hkeep, fewer_delete hitems⟩
    · exact ⟨c, rfl, h, Keeps.refl c, fun _ _ ha => ha⟩

theorem deleteLocked_ok (h : Slotted cfg c) (key : K) :
    ∃ c', deleteLocked cfg c key = some c' ∧ Slotted cfg c' ∧ Keeps c c' ∧ Fewer c c' ∧
      c'.items.load key = none := by
  unfold deleteLocked
  cases hc : c.items.load key with
  | none => exact ⟨c, rfl, h, Keeps.refl c, fun _ _ ha => ha, hc⟩
  | some item =>
    obtain ⟨c', hr, hsl, hkeep, hitems⟩ := removeLocked_indexed h hc
    refine ⟨c', hr, hsl, hkeep, fewer_delete hitems, ?_⟩
    rw [hitems]
    exact GoMap.load_delete_self _ _

theorem sweep_ok (h : Slotted cfg c) (selected : CacheItem K V → Bool) (n : ℕ) :
    ∃ c', (List.range n).foldlM (removeIf selected i) c = some c' ∧ Slotted cfg c' ∧
      Keeps c c' ∧ Fewer c c' ∧ (c'.shards i).slots.length = (c.shards i).slots.length ∧
      ∀ m, m < n → ∀ a, (c'.shards i).slots[m]? = some (some a) → selected a = false := by
  induction n with
  | zero => exact ⟨c, rfl, h, Keeps.refl c, fun _ _ ha => ha, rfl, fun m hm => by omega⟩
  | succ n ih =>
    obtain ⟨c₁, hrun, hsl, hkeep, hfew, hlen, hclean⟩ := ih
    have hstep : (List.range (n + 1)).foldlM (removeIf selected i) c = removeIf selected i c₁ n := by
      rw [List.range_succ, List.foldlM_append, hrun]
      show (List.foldlM (removeIf selected i) c₁ [n]) = _
      rw [List.foldlM_cons]
      cases removeIf selected i c₁ n <;> rfl
    rw [hstep]
    unfold removeIf
    -- whatever the turn does not remove stands as it was
    have hkept (hn : ∀ a, (c₁.shards i).slots[n]? = some (some a) → selected a = false) (m : ℕ)
        (hm : m < n + 1) (a : CacheItem K V) (ha : (c₁.shards i).slots[m]? = some (some a)) :
        selected a = false := by
      by_cases hmn : m < n
      · exact hclean m hmn a ha
      · have : m = n := by omega
        subst this
        exact hn a ha
    cases hcand : candidateAt (c₁.shards i).slots n with
    | none =>
      refine ⟨c₁, rfl, hsl, hkeep, hfew, hlen, hkept ?_⟩
      intro a ha
      rw [candidateAt_eq_some.mpr ha] at hcand
      cases hcand
    | some item =>
      dsimp only
      have hitem := candidateAt_eq_some.mp hcand
      split_ifs with hsel
      · obtain ⟨hslot, -, -⟩ := (hsl i).occupied n item hitem
        rw [← hslot] at hitem
        obtain ⟨c', hr, hsl', hkeep', hitems, hslots⟩ := removeLocked_ok hsl hitem
        refine ⟨c', hr, hsl', hkeep.trans hkeep', ?_, ?_, ?_⟩
        · intro k a ha
          exact hfew k a (fewer_delete hitems k a ha)
        · rw [hslots, List.length_set]
          exact hlen
        · intro m hm a ha
          rw [hslots, List.getElem?_set] at ha
          by_cases hmn : item.slot = m
          · rw [if_pos hmn] at ha
            split_ifs at ha
            cases ha
          · rw [if_neg hmn] at ha
            exact hclean m (by omega) a ha
      · refine ⟨c₁, rfl, hsl, hkeep, hfew, hlen, hkept ?_⟩
        intro a ha
        rw [hitem] at ha
        cases ha
        exact Bool.eq_false_iff.mpr hsel

theorem removeWhere_ok (h : Slotted cfg c) (selected : CacheItem K V → Bool) (i : Fin numShards) :
    ∃ c', removeWhere selected c i = some c' ∧ Slotted cfg c' ∧ Keeps c c' ∧ Fewer c c' ∧
      ∀ k a, cfg.getShard k = i → c'.items.load k = some a → selected a = false := by
  obtain ⟨c', hrun, hsl, hkeep, hfew, hlen, hclean⟩ :=
    sweep_ok (i := i) h selected (c.shards i).slots.length
  refine ⟨c', hrun, hsl, hkeep, hfew, ?_⟩
  intro k a hk ha
  obtain ⟨-, hslot⟩ := (hsl i).stored k a hk ha
  have hlt := (List.getElem?_eq_some_iff.mp hslot).1
  exact hclean a.slot (by omega) a hslot

theorem load_deleteAll (l : List (CacheItem K V)) (k : K) :
    ∀ items : GoMap K (CacheItem K V),
      (l.foldl (fun items item => items.delete item.key) items).load k =
        if k ∈ l.map (·.key) then none else items.load k := by
  induction l with
  | nil =>
    intro items
    rfl
  | cons a l ih =>
    intro items
    rw [List.foldl_cons, ih, GoMap.load_delete, List.map_cons]
    by_cases hl : k ∈ l.map (·.key)
    · rw [if_pos hl, if_pos (List.mem_cons_of_mem _ hl)]
    · rw [if_neg hl]
      by_cases hk : k = a.key
      · rw [if_pos hk, if_pos (by rw [hk]; exact List.mem_cons_self ..)]
      · rw [if_neg hk, if_neg]
        intro hmem
        rcases List.mem_cons.mp hmem with h | h
        · exact hk h
        · exact hl h

theorem clearLocked_ok (h : Slotted cfg c) (i : Fin numShards) :
    Slotted cfg (clearLocked c i) ∧ Keeps c (clearLocked c i) ∧ Fewer c (clearLocked c i) ∧
      ∀ k, cfg.getShard k = i → (clearLocked c i).items.load k = none := by
  have hload (k : K) : (clearLocked c i).items.load k =
      if k ∈ (c.shards i).values.map (·.key) then none else c.items.load k :=
    load_deleteAll _ k _
  have hother (k : K) (hk : cfg.getShard k ≠ i) :
      (clearLocked c i).items.load k = c.items.load k := by
    rw [hload, if_neg]
    intro hmem
    obtain ⟨a, ha, hak⟩ := List.mem_map.mp hmem
    obtain ⟨n, hn⟩ := (SlotTable.mem_values _ a).mp ha
    obtain ⟨-, hshard, -⟩ := (h i).occupied n a hn
    rw [hak] at hshard
    exact hk hshard
  have hnone (k : K) (hk : cfg.getShard k = i) : (clearLocked c i).items.load k = none := by
    rw [hload]
    split_ifs with hmem
    · rfl
    · cases hc : c.items.load k with
      | none => rfl
      | some a =>
        obtain ⟨hkey, hslot⟩ := (h i).stored k a hk hc
        exact absurd (List.mem_map.mpr ⟨a, (SlotTable.mem_values _ a).mpr ⟨_, hslot⟩, hkey⟩) hmem
  refine ⟨?_, keeps_setShard rfl rfl rfl, ?_, hnone⟩
  · apply Slotted.write (fun j _ => h j) rfl hother
    exact ShardOk.of_empty hnone
  · intro k a ha
    by_cases hk : cfg.getShard k = i
    · rw [hnone k hk] at ha
      cases ha
    · rw [hother k hk] at ha
      exact ha

end RenoP.Cache.TTL
