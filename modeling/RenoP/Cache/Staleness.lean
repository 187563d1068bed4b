import RenoP.Cache.System

/-!
# No value outlives an invalidation

Every item in the read index carries a generation at least that of each invalidation that has been
through its shard.
-/

namespace RenoP.Cache.TTL

variable {K V : Type} [DecidableEq K] {cfg : TTLConfig K} {s s' : System K V} {t : ℕ}

def TokenOk (s : System K V) (τ : Token) : Prop :=
  τ.generation ≤ s.cache.generation ∧
    ∀ g, 1 ≤ g → g ≤ τ.generation → (s.invalidations g).began < τ.step

def Fresh (cfg : TTLConfig K) (s : System K V) (k : K) (τ : Token) : Prop :=
  ∀ g, 1 ≤ g → g ≤ s.cache.generation → (s.invalidations g).removal.Covers k →
    cfg.getShard k ∉ (s.invalidations g).pending → g ≤ τ.generation

def Since (s : System K V) (k : K) (started : ℕ) (τ : Token) : Prop :=
  ∀ g q, (s.invalidations g).returned = some q → q ≤ started →
    (s.invalidations g).removal.Covers k → g ≤ τ.generation

def ItemOk (s : System K V) (k : K) (started : ℕ) (τ : Token) : Prop :=
  started < s.clock ∧ TokenOk s τ ∧ Since s k started τ

def LoadOk (s : System K V) (k : K) (started id : ℕ) : Prop :=
  started < s.clock ∧ id < s.nextLoad ∧ Since s k started (s.loads id).token

def After.Ok (s : System K V) (k : K) : After K V → Prop
  | .caller => True
  | .load started id _ => LoadOk s k started id

def PcOk (s : System K V) : Pc K V → Prop
  | .idle => True
  | .set key value _ after => TokenOk s value.origin ∧ after.Ok s key
  | .setWait entry after => TokenOk s entry.value.origin ∧ after.Ok s entry.key
  | .setHeld entry after => TokenOk s entry.value.origin ∧ after.Ok s entry.key
  | .get _ started _ => started < s.clock
  | .getLookup _ started _ _ => started < s.clock
  | .getItem key started _ _ item => ItemOk s key started item.value.origin
  | .getExpired _ started _ _ => started < s.clock
  | .getRead key started _ _ item => ItemOk s key started item.value.origin
  | .direct key started token => ItemOk s key started token
  | .loop _ started => started < s.clock
  | .join key started id => LoadOk s key started id
  | .full _ started _ => started < s.clock
  | .loading key started id => LoadOk s key started id
  | .finish key started id _ => LoadOk s key started id
  | .removing id => 1 ≤ id ∧ id ≤ s.cache.generation

def AnswerOk (s : System K V) (r : Answer K V) : Prop :=
  r.started < s.clock ∧ ∀ g q, (s.invalidations g).returned = some q → q ≤ r.started →
    (s.invalidations g).removal.Covers r.key → (s.invalidations g).began < r.value.origin.step

def Holds (s : System K V) (k : K) (τ : Token) : Prop :=
  (∃ item, s.cache.items.load k = some item ∧ item.value.origin = τ) ∨
    ∃ t entry after, s.threads t = .setHeld entry after ∧ entry.key = k ∧ entry.value.origin = τ

structure Inv (cfg : TTLConfig K) (s : System K V) : Prop where
  slotted : Slotted cfg s.cache
  threads : ∀ t, PcOk s (s.threads t)
  held : ∀ t entry after, s.threads t = .setHeld entry after →
    s.held (cfg.getShard entry.key) = some t
  tokens : ∀ τ ∈ s.tokens, TokenOk s τ
  loads : ∀ id, id < s.nextLoad → TokenOk s (s.loads id).token
  inFlight : ∀ i k id, (s.cache.shards i).inFlight.load k = some id → id < s.nextLoad
  fresh : ∀ k τ, Holds s k τ → TokenOk s τ ∧ Fresh cfg s k τ
  began : ∀ g, 1 ≤ g → g ≤ s.cache.generation → (s.invalidations g).began < s.clock
  returned : ∀ g q, (s.invalidations g).returned = some q →
    1 ≤ g ∧ g ≤ s.cache.generation ∧ (s.invalidations g).pending = [] ∧ q < s.clock
  answers : ∀ r ∈ s.answers, AnswerOk s r

theorem Inv.since_current (h : Inv cfg s) {τ : Token} (hτ : τ.generation = s.cache.generation)
    (k : K) (started : ℕ) : Since s k started τ := by
  intro g q hq _ _
  obtain ⟨-, hg, -⟩ := h.returned g q hq
  omega

theorem Inv.tokenOk (h : Inv cfg s) : TokenOk s s.token :=
  ⟨le_refl _, fun g h1 hg => h.began g h1 hg⟩

theorem Inv.since_item (h : Inv cfg s) {k : K} {τ : Token} (hτ : Fresh cfg s k τ) (started : ℕ) :
    Since s k started τ := by
  intro g q hq _ hcov
  obtain ⟨h1, hg, hpending, -⟩ := h.returned g q hq
  apply hτ g h1 hg hcov
  rw [hpending]
  exact List.not_mem_nil

theorem Inv.answerOk (h : Inv cfg s) {k : K} {started : ℕ} {value : Stamped V}
    (hok : ItemOk s k started value.origin) : AnswerOk s ⟨k, started, value⟩ := by
  obtain ⟨hstart, htoken, hsince⟩ := hok
  refine ⟨hstart, ?_⟩
  intro g q hq hle hcov
  exact htoken.2 g (h.returned g q hq).1 (hsince g q hq hle hcov)

theorem Inv.indexed (h : Inv cfg s) {k : K} {item : CacheItem K (Stamped V)}
    (hitem : s.cache.items.load k = some item) {started : ℕ} (hst : started < s.clock) :
    ItemOk s k started item.value.origin := by
  obtain ⟨htoken, hfresh⟩ := h.fresh k item.value.origin (Or.inl ⟨item, hitem, rfl⟩)
  exact ⟨hst, htoken, h.since_item hfresh started⟩

theorem Inv.load_itemOk (h : Inv cfg s) {k : K} {started id : ℕ} (hl : LoadOk s k started id) :
    ItemOk s k started (s.loads id).token :=
  ⟨hl.1, h.loads id hl.2.1, hl.2.2⟩

structure Grows (s s' : System K V) : Prop where
  clock : s'.clock = s.clock + 1
  generation : s.cache.generation ≤ s'.cache.generation
  old : ∀ g, 1 ≤ g → g ≤ s.cache.generation →
    (s'.invalidations g).removal = (s.invalidations g).removal ∧
      (s'.invalidations g).began = (s.invalidations g).began
  returned : ∀ g q, (s'.invalidations g).returned = some q →
    (s.invalidations g).returned = some q ∨ q = s.clock
  nextLoad : s.nextLoad ≤ s'.nextLoad
  loads : ∀ id, id < s.nextLoad → (s'.loads id).token = (s.loads id).token

omit [DecidableEq K] in
theorem TokenOk.mono (hg : Grows s s') {τ : Token} (h : TokenOk s τ) : TokenOk s' τ := by
  refine ⟨h.1.trans hg.generation, ?_⟩
  intro g h1 hle
  rw [(hg.old g h1 (hle.trans h.1)).2]
  exact h.2 g h1 hle

theorem Since.mono (hi : Inv cfg s) (hg : Grows s s') {k : K} {started : ℕ} {τ : Token}
    (hst : started < s.clock) (h : Since s k started τ) : Since s' k started τ := by
  intro g q hq hle hcov
  rcases hg.returned g q hq with hold | hnew
  · obtain ⟨h1, hgen, -⟩ := hi.returned g q hold
    rw [(hg.old g h1 hgen).1] at hcov
    exact h g q hold hle hcov
  · omega

theorem ItemOk.mono (hi : Inv cfg s) (hg : Grows s s') {k : K} {started : ℕ} {τ : Token}
    (h : ItemOk s k started τ) : ItemOk s' k started τ :=
  ⟨by have := hg.clock; have := h.1; omega, h.2.1.mono hg, h.2.2.mono hi hg h.1⟩

theorem LoadOk.mono (hi : Inv cfg s) (hg : Grows s s') {k : K} {started id : ℕ}
    (h : LoadOk s k started id) : LoadOk s' k started id := by
  refine ⟨by have := hg.clock; have := h.1; omega, by have := hg.nextLoad; have := h.2.1; omega, ?_⟩
  rw [hg.loads id h.2.1]
  exact h.2.2.mono hi hg h.1

theorem After.Ok.mono (hi : Inv cfg s) (hg : Grows s s') {k : K} {after : After K V}
    (h : after.Ok s k) : after.Ok s' k := by
  cases after with
  | caller => trivial
  | load started id result => exact LoadOk.mono hi hg h

theorem PcOk.mono (hi : Inv cfg s) (hg : Grows s s') {pc : Pc K V} (h : PcOk s pc) :
    PcOk s' pc := by
  have hclock := hg.clock
  cases pc with
  | idle => trivial
  | set key value ttl after => exact ⟨h.1.mono hg, After.Ok.mono hi hg h.2⟩
  | setWait entry after => exact ⟨h.1.mono hg, After.Ok.mono hi hg h.2⟩
  | setHeld entry after => exact ⟨h.1.mono hg, After.Ok.mono hi hg h.2⟩
  | get key started inLoad => exact Nat.lt_of_lt_of_le h (by omega)
  | getLookup key started inLoad generation => exact Nat.lt_of_lt_of_le h (by omega)
  | getItem key started inLoad generation item => exact ItemOk.mono hi hg h
  | getExpired key started inLoad item => exact Nat.lt_of_lt_of_le h (by omega)
  | getRead key started inLoad generation item => exact ItemOk.mono hi hg h
  | direct key started token => exact ItemOk.mono hi hg h
  | loop key started => exact Nat.lt_of_lt_of_le h (by omega)
  | join key started id => exact LoadOk.mono hi hg h
  | full key started id => exact Nat.lt_of_lt_of_le h (by omega)
  | loading key started id => exact LoadOk.mono hi hg h
  | finish key started id result => exact LoadOk.mono hi hg h
  | removing id => exact ⟨h.1, h.2.trans hg.generation⟩

theorem AnswerOk.mono (hi : Inv cfg s) (hg : Grows s s') {r : Answer K V} (h : AnswerOk s r) :
    AnswerOk s' r := by
  have hclock := hg.clock
  have hst := h.1
  refine ⟨by omega, ?_⟩
  intro g q hq hle hcov
  rcases hg.returned g q hq with hold | hnew
  · obtain ⟨h1, hgen, -⟩ := hi.returned g q hold
    rw [(hg.old g h1 hgen).1] at hcov
    rw [(hg.old g h1 hgen).2]
    exact h.2 g q hold hle hcov
  · omega

theorem threads_mono (hi : Inv cfg s) (hg : Grows s s') {pc : Pc K V}
    (ht : s'.threads = Function.update s.threads t pc) (hpc : PcOk s' pc) (u : ℕ) :
    PcOk s' (s'.threads u) := by
  rw [ht]
  by_cases hu : u = t
  · rw [hu, Function.update_self]
    exact hpc
  · rw [Function.update_of_ne hu]
    exact (hi.threads u).mono hi hg

omit [DecidableEq K] in
theorem setHeld_update {threads : ℕ → Pc K V} {pc : Pc K V} {u : ℕ}
    {entry : CacheItem K (Stamped V)} {after : After K V}
    (hu : Function.update threads t pc u = .setHeld entry after) :
    (u = t ∧ pc = .setHeld entry after) ∨ (u ≠ t ∧ threads u = .setHeld entry after) := by
  by_cases hut : u = t
  · rw [hut, Function.update_self] at hu
    exact Or.inl ⟨hut, hu⟩
  · rw [Function.update_of_ne hut] at hu
    exact Or.inr ⟨hut, hu⟩

theorem Holds.before {pc : Pc K V} (ht : s'.threads = Function.update s.threads t pc)
    (hn : ∀ entry after, pc ≠ .setHeld entry after) (hfew : Fewer s.cache s'.cache) {k : K}
    {τ : Token} (hh : Holds s' k τ) : Holds s k τ := by
  rcases hh with ⟨item, hitem, hτ⟩ | ⟨u, entry, after, hu, hk, hτ⟩
  · exact Or.inl ⟨item, hfew k item hitem, hτ⟩
  · rw [ht] at hu
    rcases setHeld_update hu with ⟨-, hpc⟩ | ⟨-, hold⟩
    · exact absurd hpc (hn entry after)
    · exact Or.inr ⟨u, entry, after, hold, hk, hτ⟩

theorem Inv.held_before (hi : Inv cfg s) {pc : Pc K V}
    (ht : s'.threads = Function.update s.threads t pc)
    (hn : ∀ entry after, pc ≠ .setHeld entry after) (hheld : s'.held = s.held) (u : ℕ)
    (entry : CacheItem K (Stamped V)) (after : After K V)
    (hu : s'.threads u = .setHeld entry after) :
    s'.held (cfg.getShard entry.key) = some u := by
  rw [ht] at hu
  rw [hheld]
  rcases setHeld_update hu with ⟨-, hpc⟩ | ⟨-, hold⟩
  · exact absurd hpc (hn entry after)
  · exact hi.held u entry after hold

/-- A step of `t` to `pc` that moves no generation and publishes nothing. -/
structure LocalStep (cfg : TTLConfig K) (t : ℕ) (pc : Pc K V) (s s' : System K V) : Prop where
  threads : s'.threads = Function.update s.threads t pc
  clock : s'.clock = s.clock + 1
  invalidations : s'.invalidations = s.invalidations
  generation : s'.cache.generation = s.cache.generation
  fewer : Fewer s.cache s'.cache
  slotted : Slotted cfg s'.cache
  held : s'.held = s.held
  notHeld : ∀ entry after, pc ≠ .setHeld entry after
  nextLoad : s.nextLoad ≤ s'.nextLoad
  loads : ∀ id, id < s.nextLoad → (s'.loads id).token = (s.loads id).token
  newLoads : ∀ id, id < s'.nextLoad → id < s.nextLoad ∨ (s'.loads id).token = s.token
  inFlight : ∀ i k id, (s'.cache.shards i).inFlight.load k = some id → id < s'.nextLoad
  tokens : ∀ τ ∈ s'.tokens, τ ∈ s.tokens ∨ τ = s.token
  answers : ∀ r ∈ s'.answers, r ∈ s.answers ∨ AnswerOk s r
  pc : PcOk s' pc

theorem LocalStep.grows {pc : Pc K V} (h : LocalStep cfg t pc s s') : Grows s s' where
  clock := h.clock
  generation := h.generation.ge
  old := by
    intro g _ _
    rw [h.invalidations]
    exact ⟨rfl, rfl⟩
  returned := by
    intro g q hq
    rw [h.invalidations] at hq
    exact Or.inl hq
  nextLoad := h.nextLoad
  loads := h.loads

theorem LocalStep.inv (hi : Inv cfg s) {pc : Pc K V} (h : LocalStep cfg t pc s s') :
    Inv cfg s' where
  slotted := h.slotted
  threads := threads_mono hi h.grows h.threads h.pc
  held := hi.held_before h.threads h.notHeld h.held
  tokens := by
    intro τ hτ
    rcases h.tokens τ hτ with hold | hnew
    · exact (hi.tokens τ hold).mono h.grows
    · rw [hnew]
      exact hi.tokenOk.mono h.grows
  loads := by
    intro id hid
    rcases h.newLoads id hid with hold | hnew
    · rw [h.loads id hold]
      exact (hi.loads id hold).mono h.grows
    · rw [hnew]
      exact hi.tokenOk.mono h.grows
  inFlight := h.inFlight
  fresh := by
    intro k τ hh
    obtain ⟨htoken, hfresh⟩ := hi.fresh k τ (hh.before h.threads h.notHeld h.fewer)
    refine ⟨htoken.mono h.grows, ?_⟩
    unfold Fresh
    rw [h.invalidations, h.generation]
    exact hfresh
  began := by
    intro g h1 hg
    rw [h.generation] at hg
    rw [h.invalidations, h.clock]
    exact Nat.lt_succ_of_lt (hi.began g h1 hg)
  returned := by
    intro g q hq
    rw [h.invalidations] at hq
    obtain ⟨h1, hg, hp, hlt⟩ := hi.returned g q hq
    rw [h.invalidations, h.generation, h.clock]
    exact ⟨h1, hg, hp, Nat.lt_succ_of_lt hlt⟩
  answers := by
    intro r hr
    rcases h.answers r hr with hold | hnew
    · exact (hi.answers r hold).mono hi h.grows
    · exact hnew.mono hi h.grows

theorem Inv.goto (hi : Inv cfg s) {pc : Pc K V} (hn : ∀ entry after, pc ≠ .setHeld entry after)
    (hpc : PcOk (s.goto t pc) pc) : Inv cfg (s.goto t pc) := by
  have hstep : LocalStep cfg t pc s (s.goto t pc) := {
    threads := rfl
    clock := rfl
    invalidations := rfl
    generation := rfl
    fewer := fun _ _ ha => ha
    slotted := hi.slotted
    held := rfl
    notHeld := hn
    nextLoad := le_refl _
    loads := fun _ _ => rfl
    newLoads := fun _ hid => Or.inl hid
    inFlight := hi.inFlight
    tokens := fun _ hτ => Or.inl hτ
    answers := fun _ hr => Or.inl hr
    pc := hpc }
  exact hstep.inv hi

theorem Inv.answer (hi : Inv cfg s) {k : K} {started : ℕ} (value : Stamped V)
    (hok : ItemOk s k started value.origin) (accessed : ℕ → Bool) :
    Inv cfg (({ s with cache := { s.cache with accessed := accessed } }.answer k started value).goto
      t .idle) := by
  have hstep : LocalStep cfg t .idle s
      (({ s with cache := { s.cache with accessed := accessed } }.answer k started value).goto
        t .idle) := {
    threads := rfl
    clock := rfl
    invalidations := rfl
    generation := rfl
    fewer := fun _ _ ha => ha
    slotted := hi.slotted
    held := rfl
    notHeld := by
      intro entry after h
      cases h
    nextLoad := le_refl _
    loads := fun _ _ => rfl
    newLoads := fun _ hid => Or.inl hid
    inFlight := hi.inFlight
    tokens := fun _ hτ => Or.inl hτ
    answers := by
      intro r hr
      rcases List.mem_cons.mp hr with h | h
      · rw [h]
        exact Or.inr (hi.answerOk hok)
      · exact Or.inl h
    pc := trivial }
  exact hstep.inv hi

theorem Inv.shrink (hi : Inv cfg s) {c : TTLCache K (Stamped V)} {pc : Pc K V}
    (hsl : Slotted cfg c) (hkeep : Keeps s.cache c) (hfew : Fewer s.cache c)
    (hn : ∀ entry after, pc ≠ .setHeld entry after)
    (hpc : PcOk s pc) : Inv cfg ({ s with cache := c }.goto t pc) := by
  have hgrows : Grows s ({ s with cache := c }.goto t pc) :=
    ⟨rfl, hkeep.generation.ge, fun _ _ _ => ⟨rfl, rfl⟩, fun _ _ hq => Or.inl hq, le_refl _,
      fun _ _ => rfl⟩
  have hstep : LocalStep cfg t pc s ({ s with cache := c }.goto t pc) := {
    threads := rfl
    clock := rfl
    invalidations := rfl
    generation := hkeep.generation
    fewer := hfew
    slotted := hsl
    held := rfl
    notHeld := hn
    nextLoad := le_refl _
    loads := fun _ _ => rfl
    newLoads := fun _ hid => Or.inl hid
    inFlight := by
      intro i k id hload
      replace hload : (c.shards i).inFlight.load k = some id := hload
      rw [hkeep.inFlight] at hload
      exact hi.inFlight i k id hload
    tokens := fun _ hτ => Or.inl hτ
    answers := fun _ hr => Or.inl hr
    pc := hpc.mono hi hgrows }
  exact hstep.inv hi

omit [DecidableEq K] in
theorem inFlight_setInFlight (s : System K V) (i j : Fin numShards) (inFlight : GoMap K ℕ) :
    ((s.setInFlight i inFlight).cache.shards j).inFlight =
      if j = i then inFlight else (s.cache.shards j).inFlight := by
  show (Function.update s.cache.shards i _ j).inFlight = _
  by_cases hj : j = i
  · rw [hj, Function.update_self, if_pos rfl]
  · rw [Function.update_of_ne hj, if_neg hj]

theorem slotted_setInFlight (h : Slotted cfg s.cache) (i : Fin numShards) (inFlight : GoMap K ℕ) :
    Slotted cfg (s.setInFlight i inFlight).cache := by
  intro j
  show ShardOk cfg s.cache.items j (Function.update s.cache.shards i _ j).toSlotTable
    (Function.update s.cache.shards i _ j).hand
  by_cases hj : j = i
  · rw [hj, Function.update_self]
    exact h i
  · rw [Function.update_of_ne hj]
    exact h j

theorem Inv.startLoad (hi : Inv cfg s) (i : Fin numShards) (key : K) {started : ℕ}
    (hst : started < s.clock) :
    Inv cfg ((s.startLoad i key).goto t (.loading key started s.nextLoad)) := by
  have hstep : LocalStep cfg t (.loading key started s.nextLoad) s
      ((s.startLoad i key).goto t (.loading key started s.nextLoad)) := {
    threads := rfl
    clock := rfl
    invalidations := rfl
    generation := rfl
    fewer := fun _ _ ha => ha
    slotted := slotted_setInFlight hi.slotted i _
    held := rfl
    notHeld := by
      intro entry after h
      cases h
    nextLoad := Nat.le_succ _
    loads := by
      intro id hid
      show (Function.update s.loads s.nextLoad ⟨s.token, none⟩ id).token = _
      rw [Function.update_of_ne (Nat.ne_of_lt hid)]
    newLoads := by
      intro id hid
      replace hid : id < s.nextLoad + 1 := hid
      by_cases hnew : id = s.nextLoad
      · right
        show (Function.update s.loads s.nextLoad ⟨s.token, none⟩ id).token = _
        rw [hnew, Function.update_self]
      · left
        omega
    inFlight := by
      intro j k id hload
      show id < s.nextLoad + 1
      replace hload : ((s.setInFlight i ((s.cache.shards i).inFlight.store key s.nextLoad)).cache.shards
        j).inFlight.load k = some id := hload
      rw [inFlight_setInFlight] at hload
      split_ifs at hload
      · rw [GoMap.load_store] at hload
        split_ifs at hload
        · cases hload
          exact Nat.lt_succ_self _
        · exact Nat.lt_succ_of_lt (hi.inFlight i k id hload)
      · exact Nat.lt_succ_of_lt (hi.inFlight j k id hload)
    tokens := fun _ hτ => Or.inl hτ
    answers := fun _ hr => Or.inl hr
    pc := by
      refine ⟨Nat.lt_succ_of_lt hst, Nat.lt_succ_self _, ?_⟩
      show Since s key started (Function.update s.loads s.nextLoad ⟨s.token, none⟩ s.nextLoad).token
      rw [Function.update_self]
      exact hi.since_current rfl key started }
  exact hstep.inv hi

theorem Inv.finishLoad (hi : Inv cfg s) (i : Fin numShards) {key : K} {started id : ℕ}
    (hl : LoadOk s key started id) (result : LoadResult V) :
    Inv cfg (((s.finishLoad i key id result).answer key started
      ⟨result.value, (s.loads id).token⟩).goto t .idle) := by
  have htoken (n : ℕ) : (Function.update s.loads id ⟨(s.loads id).token, some result⟩ n).token =
      (s.loads n).token := by
    by_cases hn : n = id
    · rw [hn, Function.update_self]
    · rw [Function.update_of_ne hn]
  have hstep : LocalStep cfg t .idle s (((s.finishLoad i key id result).answer key started
      ⟨result.value, (s.loads id).token⟩).goto t .idle) := {
    threads := rfl
    clock := rfl
    invalidations := rfl
    generation := rfl
    fewer := fun _ _ ha => ha
    slotted := slotted_setInFlight hi.slotted i _
    held := rfl
    notHeld := by
      intro entry after h
      cases h
    nextLoad := le_refl _
    loads := fun n _ => htoken n
    newLoads := fun _ hid => Or.inl hid
    inFlight := by
      intro j k n hload
      replace hload : ((s.setInFlight i (if (s.cache.shards i).inFlight.load key = some id then
        (s.cache.shards i).inFlight.delete key else (s.cache.shards i).inFlight)).cache.shards
          j).inFlight.load k = some n := hload
      rw [inFlight_setInFlight] at hload
      split_ifs at hload
      · rw [GoMap.load_delete] at hload
        split_ifs at hload
        exact hi.inFlight i k n hload
      · exact hi.inFlight i k n hload
      · exact hi.inFlight j k n hload
    tokens := fun _ hτ => Or.inl hτ
    answers := by
      intro r hr
      rcases List.mem_cons.mp hr with h | h
      · rw [h]
        exact Or.inr (hi.answerOk (hi.load_itemOk hl))
      · exact Or.inl h
    pc := trivial }
  exact hstep.inv hi

theorem Inv.generation (hi : Inv cfg s) :
    Inv cfg ({ s with tokens := s.token :: s.tokens }.goto t .idle) := by
  have hstep : LocalStep cfg t .idle s ({ s with tokens := s.token :: s.tokens }.goto t .idle) := {
    threads := rfl
    clock := rfl
    invalidations := rfl
    generation := rfl
    fewer := fun _ _ ha => ha
    slotted := hi.slotted
    held := rfl
    notHeld := by
      intro entry after h
      cases h
    nextLoad := le_refl _
    loads := fun _ _ => rfl
    newLoads := fun _ hid => Or.inl hid
    inFlight := hi.inFlight
    tokens := by
      intro τ hτ
      rcases List.mem_cons.mp hτ with h | h
      · exact Or.inr h
      · exact Or.inl h
    answers := fun _ hr => Or.inl hr
    pc := trivial }
  exact hstep.inv hi

end RenoP.Cache.TTL
