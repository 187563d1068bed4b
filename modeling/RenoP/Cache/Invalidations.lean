import RenoP.Cache.CallRuns
import RenoP.Cache.Staleness

/-!
# Stores, invalidations and every run

The steps that publish an item or move the generation keep the invariant; with the local steps
before them, every reachable state has it.
-/

namespace RenoP.Cache.TTL

variable {K V : Type} [DecidableEq K] {cfg : TTLConfig K} {s s' : System K V} {t : ℕ}

/-- A step of `t` to `pc` that touches neither tokens, loads nor answers. -/
structure QuietStep (t : ℕ) (pc : Pc K V) (s s' : System K V) : Prop where
  grows : Grows s s'
  threads : s'.threads = Function.update s.threads t pc
  tokens : s'.tokens = s.tokens
  loads : s'.loads = s.loads
  nextLoad : s'.nextLoad = s.nextLoad
  inFlight : ∀ i, (s'.cache.shards i).inFlight = (s.cache.shards i).inFlight
  answers : s'.answers = s.answers

theorem QuietStep.inv (hi : Inv cfg s) {pc : Pc K V} (h : QuietStep t pc s s')
    (hslotted : Slotted cfg s'.cache) (hpc : PcOk s' pc)
    (hheld : ∀ u entry after, s'.threads u = .setHeld entry after →
      s'.held (cfg.getShard entry.key) = some u)
    (hfresh : ∀ k τ, Holds s' k τ → TokenOk s τ ∧ Fresh cfg s' k τ)
    (hbegan : ∀ g, 1 ≤ g → g ≤ s'.cache.generation → (s'.invalidations g).began < s'.clock)
    (hreturned : ∀ g q, (s'.invalidations g).returned = some q →
      1 ≤ g ∧ g ≤ s'.cache.generation ∧ (s'.invalidations g).pending = [] ∧ q < s'.clock) :
    Inv cfg s' where
  slotted := hslotted
  threads := threads_mono hi h.grows h.threads hpc
  held := hheld
  tokens := by
    intro τ hτ
    rw [h.tokens] at hτ
    exact (hi.tokens τ hτ).mono h.grows
  loads := by
    intro id hid
    rw [h.nextLoad] at hid
    rw [h.loads]
    exact (hi.loads id hid).mono h.grows
  inFlight := by
    intro i k id hload
    rw [h.inFlight] at hload
    rw [h.nextLoad]
    exact hi.inFlight i k id hload
  fresh := by
    intro k τ hh
    obtain ⟨htoken, hf⟩ := hfresh k τ hh
    exact ⟨htoken.mono h.grows, hf⟩
  began := hbegan
  returned := hreturned
  answers := by
    intro r hr
    rw [h.answers] at hr
    exact (hi.answers r hr).mono hi h.grows

theorem Inv.setLock (hi : Inv cfg s) {entry : CacheItem K (Stamped V)} {after : After K V}
    (ht : s.threads t = .setWait entry after) (hfree : s.held (cfg.getShard entry.key) = none)
    (hgen : s.cache.generation = entry.value.origin.generation) :
    Inv cfg ({ s with held := Function.update s.held (cfg.getShard entry.key) (some t) }.goto t
      (.setHeld entry after)) := by
  have hown : TokenOk s entry.value.origin ∧ after.Ok s entry.key := by
    have h := hi.threads t
    rw [ht] at h
    exact h
  have hg : Grows s ({ s with
      held := Function.update s.held (cfg.getShard entry.key) (some t) }.goto t
        (.setHeld entry after)) :=
    ⟨rfl, le_refl _, fun _ _ _ => ⟨rfl, rfl⟩, fun _ _ hq => Or.inl hq, le_refl _, fun _ _ => rfl⟩
  apply QuietStep.inv hi ⟨hg, rfl, rfl, rfl, rfl, fun _ => rfl, rfl⟩ hi.slotted
    ⟨hown.1.mono hg, After.Ok.mono hi hg hown.2⟩
  · intro u e a hu
    show Function.update s.held (cfg.getShard entry.key) (some t) (cfg.getShard e.key) = some u
    rcases setHeld_update hu with ⟨rfl, hpc⟩ | ⟨-, hold⟩
    · cases hpc
      exact Function.update_self ..
    · have hheld := hi.held u e a hold
      rw [Function.update_of_ne]
      · exact hheld
      · intro heq
        rw [heq, hfree] at hheld
        cases hheld
  · intro k τ hh
    rcases hh with hitem | ⟨u, e, a, hu, hk, hτ⟩
    · exact hi.fresh k τ (Or.inl hitem)
    · rcases setHeld_update hu with ⟨-, hpc⟩ | ⟨-, hold⟩
      · cases hpc
        rw [← hτ]
        refine ⟨hown.1, ?_⟩
        -- every invalidation so far moved the generation before this look at it
        intro g _ hle _ _
        replace hle : g ≤ s.cache.generation := hle
        omega
      · exact hi.fresh k τ (Or.inr ⟨u, e, a, hold, hk, hτ⟩)
  · intro g h1 hle
    exact Nat.lt_succ_of_lt (hi.began g h1 hle)
  · intro g q hq
    obtain ⟨h1, hle, hp, hlt⟩ := hi.returned g q hq
    exact ⟨h1, hle, hp, Nat.lt_succ_of_lt hlt⟩

theorem Inv.setStore (hi : Inv cfg s) {entry : CacheItem K (Stamped V)} {after : After K V}
    {c : TTLCache K (Stamped V)} (ht : s.threads t = .setHeld entry after)
    (hc : setLocked cfg s.cache (cfg.getShard entry.key) entry = some c) :
    Inv cfg ({ s with
      cache := c, held := Function.update s.held (cfg.getShard entry.key) none }.goto t
        (after.resume entry.key)) := by
  obtain ⟨c', hset, hsl, hkeep, ⟨slot, hstored⟩, hother⟩ := setLocked_ok hi.slotted _ rfl
  rw [hc] at hset
  cases hset
  have hown : TokenOk s entry.value.origin ∧ after.Ok s entry.key := by
    have h := hi.threads t
    rw [ht] at h
    exact h
  have hresume : ∀ e a, after.resume entry.key ≠ .setHeld e a := by
    intro e a h
    cases after <;> cases h
  have hg : Grows s ({ s with
      cache := c, held := Function.update s.held (cfg.getShard entry.key) none }.goto t
        (after.resume entry.key)) :=
    ⟨rfl, hkeep.generation.ge, fun _ _ _ => ⟨rfl, rfl⟩, fun _ _ hq => Or.inl hq, le_refl _,
      fun _ _ => rfl⟩
  have hgen : c.generation = s.cache.generation := hkeep.generation
  apply QuietStep.inv hi ⟨hg, rfl, rfl, rfl, rfl, hkeep.inFlight, rfl⟩ hsl
  · have hafter := After.Ok.mono hi hg hown.2
    cases after with
    | caller => trivial
    | load started id result => exact hafter
  · intro u e a hu
    show Function.update s.held (cfg.getShard entry.key) none (cfg.getShard e.key) = some u
    rcases setHeld_update hu with ⟨-, hpc⟩ | ⟨hut, hold⟩
    · exact absurd hpc (hresume e a)
    · have hheld := hi.held u e a hold
      rw [Function.update_of_ne]
      · exact hheld
      · intro heq
        rw [heq, hi.held t entry after ht] at hheld
        cases hheld
        exact hut rfl
  · intro k τ hh
    -- the new item was held by this caller before the step
    have hold : Holds s k τ := by
      rcases hh with ⟨item, hitem, hτ⟩ | ⟨u, e, a, hu, hk, hτ⟩
      · by_cases hk : k = entry.key
        · subst hk
          replace hitem : c.items.load entry.key = some item := hitem
          rw [hstored] at hitem
          cases hitem
          exact Or.inr ⟨t, entry, after, ht, rfl, hτ⟩
        · exact Or.inl ⟨item, hother k item hk hitem, hτ⟩
      · rcases setHeld_update hu with ⟨-, hpc⟩ | ⟨-, hold⟩
        · exact absurd hpc (hresume e a)
        · exact Or.inr ⟨u, e, a, hold, hk, hτ⟩
    obtain ⟨htoken, hfresh⟩ := hi.fresh k τ hold
    refine ⟨htoken, ?_⟩
    intro g h1 hle hcov hp
    replace hle : g ≤ c.generation := hle
    rw [hgen] at hle
    exact hfresh g h1 hle hcov hp
  · intro g h1 hle
    replace hle : g ≤ c.generation := hle
    rw [hgen] at hle
    exact Nat.lt_succ_of_lt (hi.began g h1 hle)
  · intro g q hq
    obtain ⟨h1, hle, hp, hlt⟩ := hi.returned g q hq
    refine ⟨h1, ?_, hp, Nat.lt_succ_of_lt hlt⟩
    show g ≤ c.generation
    rw [hgen]
    exact hle

omit [DecidableEq K] in
theorem Removal.covers_shard (removal : Removal K V) {k : K} (hk : removal.Covers k) :
    cfg.getShard k ∈ removal.shards cfg := by
  cases removal with
  | key k' =>
    have hkey : k = k' := hk
    rw [hkey]
    exact List.mem_singleton_self _
  | all => exact List.mem_finRange _
  | func predicate => exact List.mem_finRange _

theorem Removal.apply_ok {c c' : TTLCache K (Stamped V)} (hsl : Slotted cfg c)
    (removal : Removal K V) {i : Fin numShards} (hc : removal.apply cfg c i = some c') :
    Slotted cfg c' ∧ Keeps c c' ∧ Fewer c c' ∧
      ∀ k, removal.Covers k → cfg.getShard k = i → c'.items.load k = none := by
  cases removal with
  | key k' =>
    obtain ⟨c₁, hdel, h1, h2, h3, hnone⟩ := deleteLocked_ok hsl k'
    have hc' : deleteLocked cfg c k' = some c' := hc
    rw [hdel] at hc'
    cases hc'
    refine ⟨h1, h2, h3, ?_⟩
    intro k hk _
    have hkey : k = k' := hk
    rw [hkey]
    exact hnone
  | all =>
    have hc' : some (clearLocked c i) = some c' := hc
    cases hc'
    obtain ⟨h1, h2, h3, hnone⟩ := clearLocked_ok hsl i
    exact ⟨h1, h2, h3, fun k _ hi => hnone k hi⟩
  | func predicate =>
    obtain ⟨c₁, hrun, h1, h2, h3, hclean⟩ :=
      removeWhere_ok hsl (fun item => predicate item.key item.value.value) i
    have hc' : removeWhere (fun item => predicate item.key item.value.value) c i = some c' := hc
    rw [hrun] at hc'
    cases hc'
    refine ⟨h1, h2, h3, ?_⟩
    intro k hk hi
    cases hload : c'.items.load k with
    | none => rfl
    | some a =>
      have hfalse := hclean k a hi hload
      obtain ⟨hkey, -⟩ := (h1 (cfg.getShard k)).stored k a rfl hload
      have htrue : predicate k a.value.value = true := hk _
      rw [hkey] at hfalse
      rw [htrue] at hfalse
      cases hfalse

theorem Inv.callRemove (hi : Inv cfg s) (removal : Removal K V) :
    Inv cfg ({ s with
      cache := bump s.cache
      invalidations := Function.update s.invalidations (s.cache.generation + 1)
        ⟨removal, s.clock, removal.shards cfg, none⟩ }.goto t
          (.removing (s.cache.generation + 1))) := by
  have hold {g : ℕ} (hg : g ≤ s.cache.generation) :
      Function.update s.invalidations (s.cache.generation + 1)
        ⟨removal, s.clock, removal.shards cfg, none⟩ g = s.invalidations g :=
    Function.update_of_ne (by omega) ..
  have hnew : Function.update s.invalidations (s.cache.generation + 1)
      ⟨removal, s.clock, removal.shards cfg, none⟩ (s.cache.generation + 1) =
        ⟨removal, s.clock, removal.shards cfg, none⟩ :=
    Function.update_self ..
  have hret {g q : ℕ} (hq : (Function.update s.invalidations (s.cache.generation + 1)
      ⟨removal, s.clock, removal.shards cfg, none⟩ g).returned = some q) :
      (s.invalidations g).returned = some q := by
    by_cases hg : g = s.cache.generation + 1
    · rw [hg, hnew] at hq
      cases hq
    · rw [Function.update_of_ne hg] at hq
      exact hq
  have hgrows : Grows s ({ s with
      cache := bump s.cache
      invalidations := Function.update s.invalidations (s.cache.generation + 1)
        ⟨removal, s.clock, removal.shards cfg, none⟩ }.goto t
          (.removing (s.cache.generation + 1))) := {
    clock := rfl
    generation := Nat.le_succ _
    old := by
      intro g _ hg
      exact ⟨congrArg Invalidation.removal (hold hg), congrArg Invalidation.began (hold hg)⟩
    returned := fun g q hq => Or.inl (hret hq)
    nextLoad := le_refl _
    loads := fun _ _ => rfl }
  have hquiet : QuietStep t (.removing (s.cache.generation + 1)) s _ :=
    ⟨hgrows, rfl, rfl, rfl, rfl, fun _ => rfl, rfl⟩
  have hn : ∀ (entry : CacheItem K (Stamped V)) (after : After K V),
      Pc.removing (s.cache.generation + 1) ≠ .setHeld entry after := by
    intro entry after h
    cases h
  apply hquiet.inv hi hi.slotted ⟨Nat.succ_pos _, le_refl _⟩
  · exact hi.held_before hquiet.threads hn rfl
  · intro k τ hh
    have hholds : Holds s k τ := hh.before hquiet.threads hn fun _ _ ha => ha
    obtain ⟨htoken, hfresh⟩ := hi.fresh k τ hholds
    refine ⟨htoken, ?_⟩
    intro g h1 hle hcov hp
    by_cases hg : g = s.cache.generation + 1
    · subst hg
      replace hcov : (Function.update s.invalidations (s.cache.generation + 1)
        ⟨removal, s.clock, removal.shards cfg, none⟩ (s.cache.generation + 1)).removal.Covers k :=
          hcov
      replace hp : cfg.getShard k ∉ (Function.update s.invalidations (s.cache.generation + 1)
        ⟨removal, s.clock, removal.shards cfg, none⟩ (s.cache.generation + 1)).pending := hp
      rw [hnew] at hcov hp
      exact absurd (removal.covers_shard hcov) hp
    · replace hle : g ≤ s.cache.generation + 1 := hle
      have hgle : g ≤ s.cache.generation := by omega
      replace hcov : (Function.update s.invalidations (s.cache.generation + 1)
        ⟨removal, s.clock, removal.shards cfg, none⟩ g).removal.Covers k := hcov
      replace hp : cfg.getShard k ∉ (Function.update s.invalidations (s.cache.generation + 1)
        ⟨removal, s.clock, removal.shards cfg, none⟩ g).pending := hp
      rw [hold hgle] at hcov hp
      exact hfresh g h1 hgle hcov hp
  · intro g h1 hle
    by_cases hg : g = s.cache.generation + 1
    · rw [hg]
      exact (congrArg Invalidation.began hnew).trans_lt (Nat.lt_succ_self _)
    · replace hle : g ≤ s.cache.generation + 1 := hle
      have hgle : g ≤ s.cache.generation := by omega
      exact (congrArg Invalidation.began (hold hgle)).trans_lt
        (Nat.lt_succ_of_lt (hi.began g h1 hgle))
  · intro g q hq
    obtain ⟨h1, hle, hp, hlt⟩ := hi.returned g q (hret hq)
    exact ⟨h1, Nat.le_succ_of_le hle, (congrArg Invalidation.pending (hold hle)).trans hp,
      Nat.lt_succ_of_lt hlt⟩

theorem Inv.removeShard (hi : Inv cfg s) {id : ℕ} {i : Fin numShards} {rest : List (Fin numShards)}
    {c : TTLCache K (Stamped V)} (ht : s.threads t = .removing id)
    (hpending : (s.invalidations id).pending = i :: rest) (hfree : s.held i = none)
    (hc : (s.invalidations id).removal.apply cfg s.cache i = some c) :
    Inv cfg ({ s with
      cache := c
      invalidations := Function.update s.invalidations id
        { s.invalidations id with pending := rest } }.goto t (.removing id)) := by
  obtain ⟨hsl, hkeep, hfew, hnone⟩ := Removal.apply_ok hi.slotted _ hc
  have hgen : c.generation = s.cache.generation := hkeep.generation
  have hown : 1 ≤ id ∧ id ≤ s.cache.generation := by
    have h := hi.threads t
    rw [ht] at h
    exact h
  have hsame (g : ℕ) :
      (Function.update s.invalidations id { s.invalidations id with pending := rest } g).removal =
          (s.invalidations g).removal ∧
        (Function.update s.invalidations id { s.invalidations id with pending := rest } g).began =
          (s.invalidations g).began ∧
        (Function.update s.invalidations id { s.invalidations id with pending := rest } g).returned =
          (s.invalidations g).returned := by
    by_cases hg : g = id
    · rw [hg, Function.update_self]
      exact ⟨rfl, rfl, rfl⟩
    · rw [Function.update_of_ne hg]
      exact ⟨rfl, rfl, rfl⟩
  have hgrows : Grows s ({ s with
      cache := c
      invalidations := Function.update s.invalidations id
        { s.invalidations id with pending := rest } }.goto t (.removing id)) := {
    clock := rfl
    generation := hgen.ge
    old := fun g _ _ => ⟨(hsame g).1, (hsame g).2.1⟩
    returned := fun g q hq => Or.inl ((hsame g).2.2.symm.trans hq)
    nextLoad := le_refl _
    loads := fun _ _ => rfl }
  have hquiet : QuietStep t (.removing id) s _ :=
    ⟨hgrows, rfl, rfl, rfl, rfl, hkeep.inFlight, rfl⟩
  have hn : ∀ (entry : CacheItem K (Stamped V)) (after : After K V),
      Pc.removing id ≠ .setHeld entry after := by
    intro entry after h
    cases h
  apply hquiet.inv hi hsl
  · refine ⟨hown.1, ?_⟩
    show id ≤ c.generation
    omega
  · exact hi.held_before hquiet.threads hn rfl
  · intro k τ hh
    have hholds : Holds s k τ := hh.before hquiet.threads hn hfew
    obtain ⟨htoken, hfresh⟩ := hi.fresh k τ hholds
    refine ⟨htoken, ?_⟩
    intro g h1 hle hcov hp
    replace hle : g ≤ c.generation := hle
    rw [hgen] at hle
    replace hcov : (Function.update s.invalidations id
      { s.invalidations id with pending := rest } g).removal.Covers k := hcov
    rw [(hsame g).1] at hcov
    replace hp : cfg.getShard k ∉ (Function.update s.invalidations id
      { s.invalidations id with pending := rest } g).pending := hp
    by_cases hg : g = id
    · subst hg
      rw [Function.update_self] at hp
      by_cases hshard : cfg.getShard k = i
      · -- neither an item nor a holder of the lock is left in this shard
        exfalso
        rcases hh with ⟨item, hitem, -⟩ | ⟨u, e, a, hu, hk, -⟩
        · have hgone := hnone k hcov hshard
          replace hitem : c.items.load k = some item := hitem
          rw [hgone] at hitem
          cases hitem
        · rcases setHeld_update hu with ⟨-, hpc⟩ | ⟨-, hold⟩
          · cases hpc
          · have hheld := hi.held u e a hold
            rw [hk, hshard, hfree] at hheld
            cases hheld
      · apply hfresh g h1 hle hcov
        rw [hpending]
        intro hmem
        rcases List.mem_cons.mp hmem with h | h
        · exact hshard h
        · exact hp h
    · rw [Function.update_of_ne hg] at hp
      exact hfresh g h1 hle hcov hp
  · intro g h1 hle
    replace hle : g ≤ c.generation := hle
    rw [hgen] at hle
    exact (hsame g).2.1.trans_lt (Nat.lt_succ_of_lt (hi.began g h1 hle))
  · intro g q hq
    have hq' := (hsame g).2.2.symm.trans hq
    obtain ⟨h1, hle, hp, hlt⟩ := hi.returned g q hq'
    have hg : g ≠ id := by
      intro hg
      rw [hg, hpending] at hp
      cases hp
    have hsamePending := congrArg Invalidation.pending (Function.update_of_ne hg
      { s.invalidations id with pending := rest } s.invalidations)
    exact ⟨h1, hle.trans hgen.ge, hsamePending.trans hp, Nat.lt_succ_of_lt hlt⟩

theorem Inv.removed (hi : Inv cfg s) {id : ℕ} (ht : s.threads t = .removing id)
    (hpending : (s.invalidations id).pending = []) :
    Inv cfg ({ s with
      invalidations := Function.update s.invalidations id
        { s.invalidations id with returned := some s.clock } }.goto t .idle) := by
  have hown : 1 ≤ id ∧ id ≤ s.cache.generation := by
    have h := hi.threads t
    rw [ht] at h
    exact h
  have hsame (g : ℕ) :
      (Function.update s.invalidations id
          { s.invalidations id with returned := some s.clock } g).removal =
          (s.invalidations g).removal ∧
        (Function.update s.invalidations id
          { s.invalidations id with returned := some s.clock } g).began =
          (s.invalidations g).began ∧
        (Function.update s.invalidations id
          { s.invalidations id with returned := some s.clock } g).pending =
          (s.invalidations g).pending := by
    by_cases hg : g = id
    · rw [hg, Function.update_self]
      exact ⟨rfl, rfl, rfl⟩
    · rw [Function.update_of_ne hg]
      exact ⟨rfl, rfl, rfl⟩
  have hret {g q : ℕ} (hq : (Function.update s.invalidations id
      { s.invalidations id with returned := some s.clock } g).returned = some q) :
      (s.invalidations g).returned = some q ∨ (g = id ∧ q = s.clock) := by
    by_cases hg : g = id
    · rw [hg, Function.update_self] at hq
      cases hq
      exact Or.inr ⟨hg, rfl⟩
    · rw [Function.update_of_ne hg] at hq
      exact Or.inl hq
  have hgrows : Grows s ({ s with
      invalidations := Function.update s.invalidations id
        { s.invalidations id with returned := some s.clock } }.goto t .idle) := {
    clock := rfl
    generation := le_refl _
    old := fun g _ _ => ⟨(hsame g).1, (hsame g).2.1⟩
    returned := by
      intro g q hq
      rcases hret hq with h | h
      · exact Or.inl h
      · exact Or.inr h.2
    nextLoad := le_refl _
    loads := fun _ _ => rfl }
  have hquiet : QuietStep t .idle s _ := ⟨hgrows, rfl, rfl, rfl, rfl, fun _ => rfl, rfl⟩
  have hn : ∀ (entry : CacheItem K (Stamped V)) (after : After K V),
      Pc.idle ≠ .setHeld entry after := by
    intro entry after h
    cases h
  apply hquiet.inv hi hi.slotted trivial
  · exact hi.held_before hquiet.threads hn rfl
  · intro k τ hh
    have hholds : Holds s k τ := hh.before hquiet.threads hn fun _ _ ha => ha
    obtain ⟨htoken, hfresh⟩ := hi.fresh k τ hholds
    refine ⟨htoken, ?_⟩
    intro g h1 hle hcov hp
    replace hcov : (Function.update s.invalidations id
      { s.invalidations id with returned := some s.clock } g).removal.Covers k := hcov
    replace hp : cfg.getShard k ∉ (Function.update s.invalidations id
      { s.invalidations id with returned := some s.clock } g).pending := hp
    rw [(hsame g).1] at hcov
    rw [(hsame g).2.2] at hp
    exact hfresh g h1 hle hcov hp
  · intro g h1 hle
    exact (hsame g).2.1.trans_lt (Nat.lt_succ_of_lt (hi.began g h1 hle))
  · intro g q hq
    rcases hret hq with h | ⟨rfl, rfl⟩
    · obtain ⟨h1, hle, hp, hlt⟩ := hi.returned g q h
      exact ⟨h1, hle, (hsame g).2.2.trans hp, Nat.lt_succ_of_lt hlt⟩
    · exact ⟨hown.1, hown.2, (hsame g).2.2.trans hpending, Nat.lt_succ_self _⟩

omit [DecidableEq K] in
theorem grows_goto (s : System K V) (t : ℕ) (pc : Pc K V) : Grows s (s.goto t pc) :=
  ⟨rfl, le_refl _, fun _ _ _ => ⟨rfl, rfl⟩, fun _ _ hq => Or.inl hq, le_refl _, fun _ _ => rfl⟩

theorem Inv.goto_of (hi : Inv cfg s) {pc : Pc K V} (hn : ∀ entry after, pc ≠ .setHeld entry after)
    (hpc : PcOk s pc) : Inv cfg (s.goto t pc) :=
  hi.goto hn (hpc.mono hi (grows_goto s t pc))

omit [DecidableEq K] in
theorem resume_ne (key : K) (after : After K V) (entry : CacheItem K (Stamped V))
    (after' : After K V) : after.resume key ≠ .setHeld entry after' := by
  intro h
  cases after <;> cases h

omit [DecidableEq K] in
theorem resume_ok {key : K} {after : After K V} (h : after.Ok s key) :
    PcOk s (after.resume key) := by
  cases after with
  | caller => trivial
  | load started id result => exact h

omit [DecidableEq K] in
theorem missed_ne (cfg : TTLConfig K) (s : System K V) (key : K) (started : ℕ) (inLoad : Bool)
    (entry : CacheItem K (Stamped V)) (after : After K V) :
    s.missed cfg key started inLoad ≠ .setHeld entry after := by
  unfold System.missed
  split_ifs <;> intro h <;> cases h

theorem missed_ok (hi : Inv cfg s) {key : K} {started : ℕ} (inLoad : Bool)
    (hst : started < s.clock) : PcOk s (s.missed cfg key started inLoad) := by
  unfold System.missed
  split_ifs
  · trivial
  · exact ⟨hst, hi.tokenOk, hi.since_current rfl key started⟩
  · exact hst

theorem Step.inv (hi : Inv cfg s) (h : Step cfg t s s') : Inv cfg s' := by
  have hown := hi.threads t
  cases h with
  | generation h => exact hi.generation
  | callSet key value ttl token h htoken =>
    exact hi.goto_of (fun _ _ h => by cases h) ⟨hi.tokens token htoken, trivial⟩
  | setRefused h hgen =>
    rw [h] at hown
    exact hi.goto_of (resume_ne _ _) (resume_ok hown.2)
  | setAllocate now h hself hgen =>
    rw [h] at hown
    exact hi.shrink hi.slotted ⟨rfl, fun _ => rfl⟩ (fun _ _ ha => ha) (fun _ _ h => by cases h)
      hown
  | setOutdated h hfree hgen =>
    rw [h] at hown
    exact hi.goto_of (resume_ne _ _) (resume_ok hown.2)
  | setLock h hfree hgen => exact hi.setLock h hfree hgen
  | setStore h hc => exact hi.setStore h hc
  | callGet key inLoad h =>
    exact hi.goto (fun _ _ h => by cases h) (Nat.lt_succ_self _)
  | getGeneration h =>
    rw [h] at hown
    exact hi.goto_of (fun _ _ h => by cases h) hown
  | getMiss h hitem =>
    rw [h] at hown
    exact hi.goto_of (missed_ne cfg s _ _ _) (missed_ok hi _ hown)
  | getFound h hitem =>
    rw [h] at hown
    exact hi.goto_of (fun _ _ h => by cases h) (hi.indexed hitem hown)
  | getLate now h hnow =>
    rw [h] at hown
    exact hi.goto_of (fun _ _ h => by cases h) hown.1
  | getRemove h hfree hc =>
    rw [h] at hown
    obtain ⟨c, hr, hsl, hkeep, hfew⟩ := removeExpired_ok hi.slotted _ _
    rw [hc] at hr
    cases hr
    exact hi.shrink hsl hkeep hfew (missed_ne cfg s _ _ _) (missed_ok hi _ hown)
  | getInTime now h hnow =>
    rw [h] at hown
    exact hi.goto_of (fun _ _ h => by cases h) hown
  | getOutdated h hgen =>
    rw [h] at hown
    exact hi.goto_of (missed_ne cfg s _ _ _) (missed_ok hi _ hown.1)
  | getHit h hgen =>
    rw [h] at hown
    exact hi.answer _ hown _
  | directReturn result h =>
    rw [h] at hown
    exact hi.answer ⟨result.value, _⟩ hown s.cache.accessed
  | loopHit now h hfree hitem hnow =>
    rw [h] at hown
    exact hi.answer _ (hi.indexed hitem hown) _
  | loopJoin now h hfree hitem hload hgen =>
    rw [h] at hown
    exact hi.goto_of (fun _ _ h => by cases h)
      ⟨hown, hi.inFlight _ _ _ hload, hi.since_current hgen _ _⟩
  | loopFull now other load h hfree hitem hnone hfull hload =>
    rw [h] at hown
    exact hi.goto_of (fun _ _ h => by cases h) hown
  | loopLoad now h hfree hitem hload hroom =>
    rw [h] at hown
    exact hi.startLoad _ _ hown
  | joined h hdone =>
    rw [h] at hown
    exact hi.answer ⟨_, _⟩ (hi.load_itemOk hown) s.cache.accessed
  | retry h hdone =>
    rw [h] at hown
    exact hi.goto_of (fun _ _ h => by cases h) hown
  | loaded result h hok =>
    rw [h] at hown
    exact hi.goto_of (fun _ _ h => by cases h) ⟨(hi.load_itemOk hown).2.1, hown⟩
  | loadFailed result h hok =>
    rw [h] at hown
    exact hi.goto_of (fun _ _ h => by cases h) hown
  | finished h hfree =>
    rw [h] at hown
    exact hi.finishLoad _ hown _
  | callRemove removal h => exact hi.callRemove removal
  | removeShard h hpending hfree hc => exact hi.removeShard h hpending hfree hc
  | removed h hpending => exact hi.removed h hpending
  | evict now i h hfree hc =>
    obtain ⟨c, hr, hsl, hkeep, hfew, -⟩ := removeWhere_ok hi.slotted _ i
    have hc' := hr.symm.trans hc
    cases hc'
    exact hi.shrink hsl hkeep hfew (fun _ _ h => by cases h) trivial

theorem start_inv (cfg : TTLConfig K) : Inv cfg (System.start : System K V) where
  slotted := fun _ => ShardOk.of_empty fun _ _ => rfl
  threads := fun _ => trivial
  held := by
    intro u entry after hu
    cases hu
  tokens := fun τ hτ => absurd hτ List.not_mem_nil
  loads := fun id hid => absurd hid (Nat.not_lt_zero id)
  inFlight := by
    intro i k id hload
    cases hload
  fresh := by
    intro k τ hh
    rcases hh with ⟨item, hitem, -⟩ | ⟨u, entry, after, hu, -⟩
    · cases hitem
    · cases hu
  began := by
    intro g h1 hg
    replace hg : g ≤ 0 := hg
    omega
  returned := by
    intro g q hq
    cases hq
  answers := fun r hr => absurd hr List.not_mem_nil

theorem Reachable.inv (h : Reachable cfg s) : Inv cfg s := by
  induction h with
  | refl => exact start_inv cfg
  | tail _ hstep ih =>
    obtain ⟨t, ht⟩ := hstep
    exact ht.inv ih

def smallConfig : TTLConfig ℕ := ⟨1, 1, fun _ => ⟨0, by decide⟩, fun _ => true, le_refl _⟩

end RenoP.Cache.TTL
