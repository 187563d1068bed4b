import RenoP.FileCache.Accounting
import RenoP.Lib.Runs

/-!
# Runs of the file cache

The accounting over any interleaving. `Clear` is the exception: it stores 0 in the counters long
after it has emptied the first shard, which is right where nothing is counted then.
-/

namespace RenoP.FileCache

open GoMap (Moves)

variable {limits : Limits} {s : System} {thread : ℕ} {c : Counter}

theorem Accounted.wander (h : Accounted limits s) {m' : GoMap ℕ Pc} {new : Option Pc}
    (hm : Moves s.threads m' thread new)
    (hold : ∀ old, s.threads.load thread = some old → old.adds = [] ∧ ∀ c, old.clears c = false)
    (hnew : ∀ pc, new = some pc → pc.adds = [])
    (hwatch : ∀ c, limits.of c < s.stored c → ∀ old, s.threads.load thread = some old →
      old.watches s.shards c → (∃ pc, new = some pc ∧ pc.watches s.shards c) ∨
        ∃ t pc, t ≠ thread ∧ s.threads.load t = some pc ∧ pc.grows = true) :
    Accounted limits { s with threads := m' } := by
  apply @Accounted.move limits s { s with threads := m' } thread h new hm (fun _ => rfl)
    (fun _ => rfl) _ (fun pc hpc _ => by rw [hnew pc hpc]; exact nofun) hwatch
  intro c
  right
  have hzero : (s.threads.load thread).elim 0 (Pc.pending c) = 0 := by
    cases hload : s.threads.load thread with
    | none => rfl
    | some old => exact congrArg (total · c) (hold old hload).1
  have hzero' : new.elim 0 (Pc.pending c) = 0 := by
    cases new with
    | none => rfl
    | some pc => exact congrArg (total · c) (hnew pc rfl)
  constructor
  · rw [hzero, hzero']
    cases c <;> rfl
  · intro old hload hclears
    rw [(hold old hload).2 c] at hclears
    cases hclears

theorem Accounted.over (h : Accounted limits s) {old : Pc} {key : Key} {place : At}
    (hload : s.threads.load thread = some old)
    (hold : old.adds = [] ∧ ∀ c, old.clears c = false)
    (hplace : ∀ c, old.watches s.shards c → place.watches s.shards key) :
    Accounted limits (s.over thread key place) := by
  have hgoto : ∀ pc : Pc, pc.adds = [] →
      (∀ c, place.watches s.shards key → pc.watches s.shards c) →
      Accounted limits (s.goto thread pc) := by
    intro pc hadds hwatches
    apply h.wander (moves_goto s thread pc)
    · intro old' hold'
      rw [hload] at hold'
      cases hold'
      exact hold
    · intro pc' hpc'
      cases hpc'
      exact hadds
    · intro c _ old' hold' hwatch
      rw [hload] at hold'
      cases hold'
      exact Or.inl ⟨pc, rfl, hwatches c (hplace c hwatch)⟩
  cases place with
  | set => exact hgoto (.readUsed key .loop) rfl fun _ _ => trivial
  | loop =>
    apply hgoto (.readUsed key (.shard firstShard false)) rfl
    intro _ _
    exact Or.inr fun j hj => absurd hj (Nat.not_lt_zero _)
  | shard i progress => exact hgoto (.evict key i progress) rfl fun _ hwatch => hwatch

theorem Accounted.other_grower (h : Accounted limits s) {old : Pc}
    (hload : s.threads.load thread = some old) (hold : old.grows = false)
    (hless : s.counter c < s.stored c) :
    ∃ t pc, t ≠ thread ∧ s.threads.load t = some pc ∧ pc.grows = true := by
  obtain ⟨t, pc, hpc, hgrows⟩ := h.grower hless
  refine ⟨t, pc, ?_, hpc, hgrows⟩
  intro ht
  rw [ht, hload] at hpc
  cases hpc
  rw [hold] at hgrows
  cases hgrows

theorem Accounted.step_readUsed (h : Accounted limits s) {key : Key} {place : At}
    (o : GoMap.RangeOrder Key FileCacheEntry)
    (hload : s.threads.load thread = some (.readUsed key place)) :
    Accounted limits (s.step limits thread o (.readUsed key place)) := by
  unfold System.step
  dsimp only
  split_ifs with hover
  · exact h.over hload ⟨rfl, fun _ => rfl⟩ fun _ hwatch => hwatch
  · apply h.wander (moves_goto s thread (.readMetadata key place))
    · intro old hold
      rw [hload] at hold
      cases hold
      exact ⟨rfl, fun _ => rfl⟩
    · intro pc hpc
      cases hpc
      rfl
    · intro c hless old hold hwatch
      rw [hload] at hold
      cases hold
      cases c with
      | used =>
        right
        apply h.other_grower hload rfl
        have hle : s.used ≤ limits.maxBytes := Int.not_lt.mp hover
        exact Int.lt_of_le_of_lt hle hless
      | metadata => exact Or.inl ⟨_, rfl, rfl, hwatch⟩

theorem Accounted.step_readMetadata (h : Accounted limits s) {key : Key} {place : At}
    (o : GoMap.RangeOrder Key FileCacheEntry)
    (hload : s.threads.load thread = some (.readMetadata key place)) :
    Accounted limits (s.step limits thread o (.readMetadata key place)) := by
  unfold System.step
  dsimp only
  split_ifs with hover
  · exact h.over hload ⟨rfl, fun _ => rfl⟩ fun _ hwatch => hwatch.2
  · apply h.wander (moves_leave s thread)
    · intro old hold
      rw [hload] at hold
      cases hold
      exact ⟨rfl, fun _ => rfl⟩
    · exact nofun
    · intro c hless old hold hwatch
      rw [hload] at hold
      cases hold
      right
      apply h.other_grower hload rfl
      obtain ⟨rfl, -⟩ := hwatch
      have hle : s.metadata ≤ limits.maxMetadata := Int.not_lt.mp hover
      exact Int.lt_of_le_of_lt hle hless

theorem counter_add (s : System) (add : Add) (c : Counter) :
    (s.add add).counter c = s.counter c + if add.1 = c then add.2 else 0 := by
  obtain ⟨counter, amount⟩ := add
  cases counter <;> cases c <;> simp [System.add, System.counter]

theorem Accounted.step_add (h : Accounted limits s) {i : Fin fileCacheShardCount} {add : Add}
    {adds : List Add} {after : After} (o : GoMap.RangeOrder Key FileCacheEntry)
    (hload : s.threads.load thread = some (.count i (add :: adds) after)) :
    Accounted limits (s.step limits thread o (.count i (add :: adds) after)) := by
  have hshards : (s.add add).shards = s.shards := by
    unfold System.add
    split <;> rfl
  have hthreads : (s.add add).threads = s.threads := by
    unfold System.add
    split <;> rfl
  have hm : Moves s.threads ((s.add add).goto thread (.count i adds after)).threads thread
      (some (.count i adds after)) := by
    have hgoto := moves_goto (s.add add) thread (.count i adds after)
    rw [hthreads] at hgoto
    exact hgoto
  show Accounted limits ((s.add add).goto thread (.count i adds after))
  apply h.move hm
  · intro j
    show ((s.add add).shards j).entries = _
    rw [hshards]
  · intro j
    show ((s.add add).shards j).order = _
    rw [hshards]
  · intro c
    right
    constructor
    · rw [hload, Option.elim_some, Option.elim_some]
      show (s.add add).counter c + total adds c = s.counter c + total (add :: adds) c
      rw [counter_add, total_cons]
      omega
    · intro old hold hclears
      rw [hload] at hold
      cases hold
      cases c <;> cases hclears
  · intro pc hpc hgrows
    cases hpc
    intro add' hmem
    apply h.shrinks thread _ hload _ add' (List.mem_cons_of_mem add hmem)
    cases after with
    | set key => cases hgrows
    | delete | evict key j progress => rfl
  · intro c _ old hold hwatch
    rw [hload] at hold
    cases hold
    refine Or.inl ⟨_, rfl, ?_⟩
    cases after with
    | set key => trivial
    | delete | evict key j progress => exact hwatch

theorem nextShard_none {i : Fin fileCacheShardCount} (h : nextShard i = none) :
    i.val + 1 = fileCacheShardCount := by
  unfold nextShard at h
  split_ifs at h with hlt
  have hi := i.isLt
  omega

theorem nextShard_some {i j : Fin fileCacheShardCount} (h : nextShard i = some j) :
    j.val = i.val + 1 := by
  unfold nextShard at h
  split_ifs at h
  exact congrArg Fin.val (Option.some.inj h).symm

theorem Accounted.release (h : Accounted limits s) {i : Fin fileCacheShardCount} {after : After}
    {m' : GoMap ℕ Pc} {new : Option Pc} (hload : s.threads.load thread = some (.count i [] after))
    (hm : Moves s.threads m' thread new) (hnew : ∀ pc, new = some pc → pc.adds = [])
    (hwatch : ∀ c, limits.of c < s.stored c → (Pc.count i [] after).watches s.shards c →
      ∃ pc, new = some pc ∧ pc.watches s.shards c) :
    Accounted limits { s.put i { s.shards i with locked := false } with threads := m' } := by
  have hshards : ∀ j, ({ s.put i { s.shards i with locked := false } with threads := m' } :
      System).shards j = if j = i then { s.shards i with locked := false } else s.shards j :=
    fun j => shards_put s i j _
  apply h.move hm
  · intro j
    rw [hshards]
    split_ifs with hj
    · rw [hj]
    · rfl
  · intro j
    rw [hshards]
    split_ifs with hj
    · rw [hj]
    · rfl
  · intro c
    right
    have hzero : new.elim 0 (Pc.pending c) = 0 := by
      cases new with
      | none => rfl
      | some pc => exact congrArg (total · c) (hnew pc rfl)
    constructor
    · rw [hload, hzero]
      cases c <;> rfl
    · intro old hold hclears
      rw [hload] at hold
      cases hold
      cases c <;> cases hclears
  · intro pc hpc _
    rw [hnew pc hpc]
    exact nofun
  · intro c hless old hold hwatches
    rw [hload] at hold
    cases hold
    exact Or.inl (hwatch c hless hwatches)

theorem Accounted.step_release (h : Accounted limits s) (hlimits : ∀ c, 0 ≤ limits.of c)
    {i : Fin fileCacheShardCount} {after : After} (o : GoMap.RangeOrder Key FileCacheEntry)
    (hload : s.threads.load thread = some (.count i [] after)) :
    Accounted limits (s.step limits thread o (.count i [] after)) := by
  unfold System.step
  dsimp only
  cases after with
  | set key =>
    exact h.release hload (moves_goto s thread (.readUsed key .set))
      (fun pc hpc => by cases hpc; rfl) fun c _ _ => ⟨_, rfl, trivial⟩
  | delete => exact h.release hload (moves_leave s thread) nofun fun c _ hwatch => hwatch.elim
  | evict key j progress =>
    unfold System.resume
    dsimp only
    cases hnext : nextShard j with
    | some k =>
      refine h.release hload (moves_goto s thread (.readUsed key (.shard k progress)))
        (fun pc hpc => by cases hpc; rfl) ?_
      intro c _ hwatch
      refine ⟨_, rfl, ?_⟩
      show progress = true ∨ Cleared s.shards key k.val
      rw [nextShard_some hnext]
      exact hwatch
    | none =>
      have hlast := nextShard_none hnext
      cases progress with
      | true =>
        exact h.release hload (moves_goto s thread (.readUsed key .loop))
          (fun pc hpc => by cases hpc; rfl) fun c _ _ => ⟨_, rfl, trivial⟩
      | false =>
        refine h.release hload (moves_leave s thread) nofun ?_
        intro c hless hwatch
        have hcleared : Cleared s.shards key (j.val + 1) := hwatch.resolve_left Bool.false_ne_true
        rw [hlast] at hcleared
        have hfits := h.fits_cleared hlimits hcleared c
        omega

theorem Accounted.step_set (h : Accounted limits s) {key : Key} {value : List UInt8}
    (o : GoMap.RangeOrder Key FileCacheEntry)
    (hload : s.threads.load thread = some (.set key value)) :
    Accounted limits (s.step limits thread o (.set key value)) := by
  unfold System.step
  dsimp only
  split_ifs with hlarge hlocked
  · apply h.wander (moves_goto s thread (.delete key))
    · intro old hold
      rw [hload] at hold
      cases hold
      exact ⟨rfl, fun _ => rfl⟩
    · intro pc hpc
      cases hpc
      rfl
    · intro c _ old hold hwatch
      rw [hload] at hold
      cases hold
      exact hwatch.elim
  · exact h
  · rw [not_or, Int.not_lt, Int.not_lt] at hlarge
    refine h.hold hload ⟨rfl, fun _ => rfl⟩ ((h.ordered _).set _ _) (stored_set _ _ _) ?_
      (Or.inl ⟨key, rfl⟩)
    intro k e hentry
    have hcases : k = key ∧ e = ⟨value, value.length⟩ ∨
        (s.shards (shardOf key)).entries.load k = some e := by
      have hstore : ((s.shards (shardOf key)).set key ⟨value, value.length⟩).1.entries =
          (s.shards (shardOf key)).entries.store key ⟨value, value.length⟩ := by
        unfold Shard.set
        split <;> rfl
      rw [hstore, GoMap.load_store] at hentry
      split_ifs at hentry with hk
      · exact Or.inl ⟨hk, (Option.some.inj hentry).symm⟩
      · exact Or.inr hentry
    rcases hcases with ⟨rfl, rfl⟩ | hbefore
    · refine Or.inr ⟨rfl, fun c => ?_⟩
      cases c with
      | used => exact hlarge.1
      | metadata =>
        show (k.length : ℤ) + fileCacheEntryMetadata ≤ limits.maxMetadata
        omega
    · exact Or.inl hbefore

theorem Accounted.step_delete (h : Accounted limits s) {key : Key}
    (o : GoMap.RangeOrder Key FileCacheEntry)
    (hload : s.threads.load thread = some (.delete key)) :
    Accounted limits (s.step limits thread o (.delete key)) := by
  unfold System.step
  dsimp only
  split_ifs
  · exact h
  · have hless : ∀ k e, ((s.shards (shardOf key)).delete key).1.entries.load k = some e →
        (s.shards (shardOf key)).entries.load k = some e := by
      intro k e hentry
      unfold Shard.delete at hentry
      split at hentry
      · rw [entries_compact, GoMap.load_delete] at hentry
        split_ifs at hentry
        exact hentry
      · exact hentry
    refine h.hold hload ⟨rfl, fun _ => rfl⟩ ((h.ordered _).delete _) (stored_delete _ _)
      (fun k e hentry => Or.inl (hless k e hentry))
      (Or.inr ⟨?_, delete_nonpos _ key, fun _ hwatch => hwatch.elim⟩)
    intro k hk
    obtain ⟨e, hentry⟩ := (GoMap.has_eq_true _ _).mp hk
    exact (GoMap.has_eq_true _ _).mpr ⟨e, hless k e hentry⟩

theorem Accounted.step_evict (h : Accounted limits s) {key : Key} {i : Fin fileCacheShardCount}
    {progress : Bool} (o : GoMap.RangeOrder Key FileCacheEntry)
    (hload : s.threads.load thread = some (.evict key i progress)) :
    Accounted limits (s.step limits thread o (.evict key i progress)) := by
  unfold System.step
  dsimp only
  split_ifs
  · exact h
  split
  · exact h
  rename_i shard adds evicted hevict
  obtain ⟨hentries, hstored, hnonpos, hleft⟩ := evictOne_evicts hevict
  have hless : ∀ k e, shard.compact.entries.load k = some e →
      (s.shards i).entries.load k = some e := by
    intro k e hentry
    rw [entries_compact] at hentry
    exact hentries k e hentry
  have hkeys : ∀ k, shard.compact.entries.has k = true → (s.shards i).entries.has k = true := by
    intro k hk
    obtain ⟨e, hentry⟩ := (GoMap.has_eq_true _ _).mp hk
    exact (GoMap.has_eq_true _ _).mpr ⟨e, hless k e hentry⟩
  refine h.hold hload ⟨rfl, fun _ => rfl⟩ ((h.ordered i).evictOne hevict).compact ?_
    (fun k e hentry => Or.inl (hless k e hentry)) (Or.inr ⟨hkeys, hnonpos, ?_⟩)
  · intro c
    rw [stored_compact]
    exact hstored c
  · intro c hwatch
    show (progress || evicted) = true ∨ Cleared _ key (i.val + 1)
    rw [Bool.or_eq_true]
    rcases hwatch with hprogress | hcleared
    · exact Or.inl (Or.inl hprogress)
    · rcases hleft with hevicted | honly
      · exact Or.inl (Or.inr hevicted)
      · -- the shard has no entry but that of the key
        right
        intro j hj k hk
        rw [shards_put] at hk
        split_ifs at hk with heq
        · exact honly k (hkeys k hk)
        · have hne : j.val ≠ i.val := fun hval => heq (Fin.ext hval)
          exact hcleared j (by omega) k hk

theorem Accounted.step_clear (h : Accounted limits s) {i : Fin fileCacheShardCount}
    (o : GoMap.RangeOrder Key FileCacheEntry) (hload : s.threads.load thread = some (.clear i)) :
    Accounted limits (s.step limits thread o (.clear i)) := by
  unfold System.step
  dsimp only
  split_ifs
  · exact h
  · split
    · exact h.clear hload ⟨rfl, fun c => by cases c <;> rfl⟩
    · exact h.clear hload ⟨rfl, fun c => by cases c <;> rfl⟩

theorem Accounted.step_storeUsed (h : Accounted limits s)
    (o : GoMap.RangeOrder Key FileCacheEntry) (hload : s.threads.load thread = some .storeUsed)
    (hzero : s.counted .used = 0) : Accounted limits (s.step limits thread o .storeUsed) := by
  have hm : Moves s.threads ({ s with used := 0 }.goto thread .storeMetadata).threads thread
      (some .storeMetadata) := moves_goto _ thread _
  apply h.move hm (fun _ => rfl) fun _ => rfl
  · intro c
    cases c with
    | used =>
      left
      have hpending := pending_move hm .used
      rw [hload] at hpending
      show 0 = s.stored .used - System.pending _ .used
      rw [hpending]
      unfold System.counted at hzero
      show 0 = s.stored .used - (s.pending .used - 0 + 0)
      omega
    | metadata =>
      right
      rw [hload]
      exact ⟨rfl, fun _ _ _ => ⟨_, rfl, rfl⟩⟩
  · intro pc hpc _
    cases hpc
    exact nofun
  · intro c _ old hold hwatch
    rw [hload] at hold
    cases hold
    exact hwatch.elim

theorem Accounted.step_storeMetadata (h : Accounted limits s)
    (o : GoMap.RangeOrder Key FileCacheEntry) (hload : s.threads.load thread = some .storeMetadata)
    (hzero : s.counted .metadata = 0) :
    Accounted limits (s.step limits thread o .storeMetadata) := by
  have hm : Moves s.threads ({ s with metadata := 0 }.leave thread).threads thread none :=
    moves_leave _ thread
  apply h.move hm (fun _ => rfl) fun _ => rfl
  · intro c
    cases c with
    | used =>
      right
      rw [hload]
      refine ⟨rfl, fun old hold hclears => ?_⟩
      cases hold
      cases hclears
    | metadata =>
      left
      have hpending := pending_move hm .metadata
      rw [hload] at hpending
      show 0 = s.stored .metadata - System.pending _ .metadata
      rw [hpending]
      unfold System.counted at hzero
      show 0 = s.stored .metadata - (s.pending .metadata - 0 + 0)
      omega
  · exact nofun
  · intro c _ old hold hwatch
    rw [hload] at hold
    cases hold
    exact hwatch.elim

/-- Where `Clear` stores 0 in a counter, the entries stored by then count nothing. -/
def System.clearsNothing (s : System) : Action → Prop
  | .step thread _ => (s.threads.load thread = some .storeUsed → s.counted .used = 0) ∧
    (s.threads.load thread = some .storeMetadata → s.counted .metadata = 0)
  | _ => True

instance (s : System) (action : Action) : Decidable (s.clearsNothing action) := by
  cases action <;> unfold System.clearsNothing <;> infer_instance

theorem Accounted.call (h : Accounted limits s) (thread : ℕ) {pc : Pc} (hpc : pc.adds = []) :
    Accounted limits (s.call limits thread pc) := by
  unfold System.call
  split_ifs
  · exact h
  · split
    · rename_i hload
      apply h.wander (moves_goto s thread pc)
      · intro old hold
        rw [hload] at hold
        cases hold
      · intro pc' hpc'
        cases hpc'
        exact hpc
      · intro c _ old hold
        rw [hload] at hold
        cases hold
    · exact h

theorem Accounted.next (h : Accounted limits s) (hlimits : ∀ c, 0 ≤ limits.of c) (action : Action)
    (hclears : s.clearsNothing action) : Accounted limits (s.next limits action) := by
  unfold System.next
  cases action with
  | set thread key value => exact h.call thread rfl
  | delete thread key => exact h.call thread rfl
  | clear thread => exact h.call thread rfl
  | step thread o =>
    dsimp only
    split
    · exact h
    · rename_i pc hload
      cases pc with
      | set key value => exact h.step_set o hload
      | delete key => exact h.step_delete o hload
      | count i adds after =>
        cases adds with
        | nil => exact h.step_release hlimits o hload
        | cons add adds => exact h.step_add o hload
      | readUsed key place => exact h.step_readUsed o hload
      | readMetadata key place => exact h.step_readMetadata o hload
      | evict key i progress => exact h.step_evict o hload
      | clear i => exact h.step_clear o hload
      | storeUsed => exact h.step_storeUsed o hload (hclears.1 hload)
      | storeMetadata => exact h.step_storeMetadata o hload (hclears.2 hload)

theorem limits_nonneg (maxBytes : ℤ) (c : Counter) : 0 ≤ (newFileByteCache maxBytes).of c := by
  unfold newFileByteCache
  split_ifs with hzero
  · cases c <;> exact Int.le_refl 0
  · rw [Int.not_le] at hzero
    cases c with
    | used => exact Int.le_of_lt hzero
    | metadata => exact Int.le_trans (Int.le_of_lt hzero) (Int.le_max_left _ _)

theorem stored_start (c : Counter) : System.start.stored c = 0 := by
  apply Finset.sum_eq_zero
  intro i _
  rfl

theorem accounted_start (hlimits : ∀ c, 0 ≤ limits.of c) : Accounted limits .start := by
  have hcounter : ∀ c, System.start.counter c = System.start.counted c := by
    intro c
    unfold System.counted
    rw [stored_start]
    cases c <;> rfl
  constructor
  · exact fun i k hk => nomatch hk
  · exact fun i key e hload => nomatch hload
  · exact fun i key e hload => nomatch hload
  · exact fun t pc hload => nomatch hload
  · exact fun c => le_of_eq (hcounter c).symm
  · exact fun c _ => hcounter c
  · intro c hover
    rw [stored_start] at hover
    exact absurd (hlimits c) (Int.not_le.mpr hover)

theorem Accounted.of_idle (h : Accounted limits s) (hidle : s.idle) (c : Counter) :
    s.counter c = s.stored c ∧ s.counter c ≤ limits.of c := by
  have hpending : s.pending c = 0 := by
    apply List.sum_eq_zero
    intro x hx
    obtain ⟨⟨t, pc⟩, he, rfl⟩ := List.mem_map.mp hx
    have hload := (GoMap.mem_entries_iff s.threads t pc).mp he
    rw [hidle] at hload
    cases hload
  have hexact : s.counter c = s.counted c := by
    apply h.exact_counter c
    intro t pc hload
    rw [hidle] at hload
    cases hload
  unfold System.counted at hexact
  rw [hpending, sub_zero] at hexact
  refine ⟨hexact, ?_⟩
  rw [hexact]
  by_contra hover
  obtain ⟨t, pc, hload, -⟩ := h.watched c (Int.not_le.mp hover)
  rw [hidle] at hload
  cases hload

def run (maxBytes : ℤ) (actions : List Action) : System :=
  actions.foldl (System.next (newFileByteCache maxBytes)) .start

/-- In every run in which `Clear` stores 0 only where nothing is counted, the counters are right
and within their budgets whenever no call is in progress. -/
theorem counters_account (maxBytes : ℤ) (actions : List Action)
    (h : Runs.Along (System.next (newFileByteCache maxBytes)) System.clearsNothing .start actions)
    (hidle : (run maxBytes actions).idle) (c : Counter) :
    (run maxBytes actions).counter c = (run maxBytes actions).stored c ∧
      (run maxBytes actions).counter c ≤ (newFileByteCache maxBytes).of c := by
  have hlimits := limits_nonneg maxBytes
  have hrun : Accounted (newFileByteCache maxBytes) (run maxBytes actions) :=
    Runs.Along.invariant (fun s a hs ha => hs.next hlimits a ha) (accounted_start hlimits) h
  exact hrun.of_idle hidle c

theorem idle_of_keys (h : s.threads.keys = []) : s.idle := by
  intro t
  rw [GoMap.load_eq_none, h]
  exact List.not_mem_nil

def steps (thread n : ℕ) : List Action := List.replicate n (.step thread .entries)

def clearAfterSet : List Action :=
  .set 1 [97] [1] :: steps 1 6 ++ .clear 0 :: steps 0 18

theorem clearAfterSet_accounts :
    (run 4096 clearAfterSet).counter .used = (run 4096 clearAfterSet).stored .used ∧
      (run 4096 clearAfterSet).counter .used ≤ (newFileByteCache 4096).of .used :=
  counters_account 4096 clearAfterSet (by decide +kernel) (idle_of_keys (by decide +kernel)) .used

def setWithinClear : List Action :=
  .clear 0 :: steps 0 16 ++ .set 1 [97] [1] :: steps 1 6 ++ steps 0 2

theorem setWithinClear_uncounted :
    (run 4096 setWithinClear).idle ∧ (run 4096 setWithinClear).used = 0 ∧
      (run 4096 setWithinClear).stored .used = 1 := by
  refine ⟨idle_of_keys ?_, ?_, ?_⟩
  · decide +kernel
  · decide +kernel
  · decide +kernel

end RenoP.FileCache
