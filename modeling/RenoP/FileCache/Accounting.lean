import RenoP.FileCache.Calls

/-!
# Accounting of the file cache

What the counters say about the entries while calls are in progress.
-/

namespace RenoP.FileCache

open GoMap (Moves)

variable {limits : Limits} {s s' : System} {thread : ℕ} {c : Counter}

def Pc.grows : Pc → Bool
  | .count _ _ (.set _) => true
  | _ => false

def Pc.clears : Counter → Pc → Bool
  | _, .clear _ | _, .storeUsed | .metadata, .storeMetadata => true
  | _, _ => false

/-- The shards before `i` have no entry but that of the key. -/
def Cleared (shards : Fin fileCacheShardCount → Shard) (key : Key) (i : ℕ) : Prop :=
  ∀ j : Fin fileCacheShardCount, j.val < i → ∀ k, (shards j).entries.has k = true → k = key

def At.watches (shards : Fin fileCacheShardCount → Shard) (key : Key) : At → Prop
  | .set | .loop => True
  | .shard i progress => progress = true ∨ Cleared shards key i

def Pc.watches (shards : Fin fileCacheShardCount → Shard) (c : Counter) : Pc → Prop
  | .count _ _ (.set _) => True
  | .count _ _ (.evict key i progress) => progress = true ∨ Cleared shards key (i + 1)
  | .readUsed key place => place.watches shards key
  | .readMetadata key place => c = .metadata ∧ place.watches shards key
  | .evict key i progress => progress = true ∨ Cleared shards key i
  | _ => False

structure Accounted (limits : Limits) (s : System) : Prop where
  ordered : ∀ i, (s.shards i).Ordered
  placed : ∀ i key e, (s.shards i).entries.load key = some e → i = shardOf key
  fits : ∀ i key e, (s.shards i).entries.load key = some e → ∀ c, weight c key e ≤ limits.of c
  shrinks : ∀ t pc, s.threads.load t = some pc → pc.grows = false → ∀ add ∈ pc.adds, add.2 ≤ 0
  counted_le : ∀ c, s.counted c ≤ s.counter c
  exact_counter : ∀ c, (∀ t pc, s.threads.load t = some pc → pc.clears c = false) →
    s.counter c = s.counted c
  watched : ∀ c, limits.of c < s.stored c →
    ∃ t pc, s.threads.load t = some pc ∧ pc.watches s.shards c

theorem watches_of_grows {shards : Fin fileCacheShardCount → Shard} {pc : Pc}
    (h : pc.grows = true) (c : Counter) : pc.watches shards c := by
  cases pc with
  | count i adds after =>
    cases after with
    | set key => trivial
    | delete | evict key i progress => cases h
  | set _ _ | delete _ | readUsed _ _ | readMetadata _ _ | evict _ _ _ | clear _ | storeUsed
  | storeMetadata => cases h

theorem Cleared.mono {shards shards' : Fin fileCacheShardCount → Shard} {key : Key} {i : ℕ}
    (h : Cleared shards key i)
    (hless : ∀ j k, (shards' j).entries.has k = true → (shards j).entries.has k = true) :
    Cleared shards' key i :=
  fun j hj k hk => h j hj k (hless j k hk)

theorem Pc.watches.mono {shards shards' : Fin fileCacheShardCount → Shard} {pc : Pc}
    (h : pc.watches shards c)
    (hless : ∀ j k, (shards' j).entries.has k = true → (shards j).entries.has k = true) :
    pc.watches shards' c := by
  have hplace : ∀ {key : Key} {place : At}, place.watches shards key →
      place.watches shards' key := by
    intro key place hplace
    cases place with
    | set | loop => trivial
    | shard i progress => exact hplace.imp_right fun hclear => hclear.mono hless
  cases pc with
  | count i adds after =>
    cases after with
    | set key => trivial
    | delete => exact h
    | evict key i progress => exact Or.imp_right (fun hclear => Cleared.mono hclear hless) h
  | readUsed key place => exact hplace h
  | readMetadata key place => exact ⟨h.1, hplace h.2⟩
  | evict key i progress => exact Or.imp_right (fun hclear => Cleared.mono hclear hless) h
  | set _ _ | delete _ | clear _ | storeUsed | storeMetadata => exact h

theorem moves_goto (s : System) (thread : ℕ) (pc : Pc) :
    Moves s.threads (s.goto thread pc).threads thread (some pc) :=
  GoMap.moves_store s.threads thread pc

theorem moves_leave (s : System) (thread : ℕ) :
    Moves s.threads (s.leave thread).threads thread none :=
  GoMap.moves_delete s.threads thread

theorem shards_put (s : System) (i j : Fin fileCacheShardCount) (shard : Shard) :
    (s.put i shard).shards j = if j = i then shard else s.shards j :=
  Function.update_apply s.shards i shard j

theorem sum_update {M : Type} [AddCommMonoid M] (shards : Fin fileCacheShardCount → Shard)
    (i : Fin fileCacheShardCount) (shard : Shard) (f : Shard → M) :
    ∑ j, f (Function.update shards i shard j) + f (shards i) = ∑ j, f (shards j) + f shard := by
  have hrest : ∑ j ∈ Finset.univ.erase i, f (Function.update shards i shard j) =
      ∑ j ∈ Finset.univ.erase i, f (shards j) := by
    apply Finset.sum_congr rfl
    intro j hj
    rw [Function.update_of_ne (Finset.ne_of_mem_erase hj)]
  rw [← Finset.sum_erase_add _ _ (Finset.mem_univ i), Function.update_self, hrest,
    ← Finset.sum_erase_add _ _ (Finset.mem_univ i)]
  abel

theorem stored_put (s : System) (i : Fin fileCacheShardCount) (shard : Shard) (c : Counter) :
    (s.put i shard).stored c = s.stored c - (s.shards i).stored c + shard.stored c := by
  have hsum := sum_update s.shards i shard fun shard => shard.stored c
  unfold System.stored System.put
  dsimp only at hsum ⊢
  omega

theorem total_nonpos {adds : List Add} (h : ∀ add ∈ adds, add.2 ≤ 0) (c : Counter) :
    total adds c ≤ 0 := by
  induction adds with
  | nil => exact Int.le_refl 0
  | cons add adds ih =>
    have hadd := h add (List.mem_cons_self ..)
    have hrest := ih fun add' hmem => h add' (List.mem_cons_of_mem add hmem)
    rw [total_cons]
    split_ifs <;> omega

theorem pending_move (hm : Moves s.threads s'.threads thread new) (c : Counter) :
    s'.pending c = s.pending c - (s.threads.load thread).elim 0 (Pc.pending c) +
      new.elim 0 (Pc.pending c) :=
  hm.sum (Pc.pending c)

theorem Accounted.grower (h : Accounted limits s) (hless : s.counter c < s.stored c) :
    ∃ t pc, s.threads.load t = some pc ∧ pc.grows = true := by
  by_contra hnone
  have hzero : s.pending c ≤ GoMap.sum (fun _ _ => 0) s.threads := by
    apply GoMap.sum_le_sum
    intro t pc hload
    apply total_nonpos
    apply h.shrinks t pc hload
    cases hgrows : pc.grows with
    | true => exact absurd ⟨t, pc, hload, hgrows⟩ hnone
    | false => rfl
  have hsum : GoMap.sum (fun _ _ => (0 : ℤ)) s.threads = 0 := by
    apply List.sum_eq_zero
    intro x hx
    obtain ⟨e, _, rfl⟩ := List.mem_map.mp hx
    rfl
  have hle := h.counted_le c
  unfold System.counted at hle
  omega

theorem Accounted.fits_cleared (h : Accounted limits s) (hlimits : ∀ c, 0 ≤ limits.of c) {key : Key}
    (hcleared : Cleared s.shards key fileCacheShardCount) (c : Counter) :
    s.stored c ≤ limits.of c := by
  have hkey : ∀ i k e, (s.shards i).entries.load k = some e → k = key := by
    intro i k e hload
    exact hcleared i i.isLt k ((GoMap.has_eq_true _ _).mpr ⟨e, hload⟩)
  have hothers : ∀ i, i ≠ shardOf key → (s.shards i).stored c = 0 := by
    intro i hi
    apply List.sum_eq_zero
    intro x hx
    obtain ⟨⟨k, e⟩, he, rfl⟩ := List.mem_map.mp hx
    have hload := (GoMap.mem_entries_iff _ k e).mp he
    exact absurd (hkey i k e hload ▸ h.placed i k e hload) hi
  have hone : s.stored c = (s.shards (shardOf key)).stored c :=
    Finset.sum_eq_single _ (fun i _ hi => hothers i hi) fun hmem =>
      absurd (Finset.mem_univ _) hmem
  have hweight : (s.shards (shardOf key)).stored c =
      GoMap.weight (weight c) (s.shards (shardOf key)).entries key := by
    apply GoMap.sum_eq_weight
    intro k e hne hload
    exact absurd (hkey _ k e hload) hne
  rw [hone, hweight]
  unfold GoMap.weight
  cases hload : (s.shards (shardOf key)).entries.load key with
  | none => exact hlimits c
  | some e => exact h.fits _ key e hload c

theorem Accounted.move (h : Accounted limits s) {new : Option Pc}
    (hm : Moves s.threads s'.threads thread new)
    (hentries : ∀ i, (s'.shards i).entries = (s.shards i).entries)
    (horder : ∀ i, (s'.shards i).order = (s.shards i).order)
    (hcount : ∀ c, s'.counter c = s'.counted c ∨
      s'.counter c + new.elim 0 (Pc.pending c) =
          s.counter c + (s.threads.load thread).elim 0 (Pc.pending c) ∧
        ∀ old, s.threads.load thread = some old → old.clears c = true →
          ∃ pc, new = some pc ∧ pc.clears c = true)
    (hshrinks : ∀ pc, new = some pc → pc.grows = false → ∀ add ∈ pc.adds, add.2 ≤ 0)
    (hwatch : ∀ c, limits.of c < s.stored c → ∀ old, s.threads.load thread = some old →
      old.watches s.shards c → (∃ pc, new = some pc ∧ pc.watches s.shards c) ∨
        ∃ t pc, t ≠ thread ∧ s.threads.load t = some pc ∧ pc.grows = true) :
    Accounted limits s' := by
  have hstored : ∀ c, s'.stored c = s.stored c := by
    intro c
    apply Finset.sum_congr rfl
    intro i _
    unfold Shard.stored
    rw [hentries]
  have hless : ∀ j k, (s'.shards j).entries.has k = true → (s.shards j).entries.has k = true := by
    intro j k hk
    rw [← hentries]
    exact hk
  have hkeep : ∀ {t pc}, t ≠ thread → s.threads.load t = some pc →
      s'.threads.load t = some pc := by
    intro t pc ht hload
    rw [hm.load, if_neg ht]
    exact hload
  have hown : ∀ {pc}, new = some pc → s'.threads.load thread = some pc := by
    intro pc hpc
    rw [hm.load, if_pos rfl]
    exact hpc
  constructor
  · intro i k hk
    rw [horder]
    exact h.ordered i k (hless i k hk)
  · intro i key e hload
    rw [hentries] at hload
    exact h.placed i key e hload
  · intro i key e hload
    rw [hentries] at hload
    exact h.fits i key e hload
  · intro t pc hload
    rcases hm.cases hload with ⟨_, hpc⟩ | ⟨_, hpc⟩
    · exact hshrinks pc hpc
    · exact h.shrinks t pc hpc
  · intro c
    rcases hcount c with heq | ⟨hadd, -⟩
    · exact le_of_eq heq.symm
    · have hle := h.counted_le c
      have hpending := pending_move hm c
      have hsame := hstored c
      unfold System.counted at hle ⊢
      omega
  · intro c hclears
    rcases hcount c with heq | ⟨hadd, hkept⟩
    · exact heq
    · have hexact := h.exact_counter c
      have hpending := pending_move hm c
      have hsame := hstored c
      unfold System.counted at hexact ⊢
      rw [hexact] at hadd
      · omega
      · intro t pc hload
        by_cases ht : t = thread
        · rw [ht] at hload
          cases hpc : pc.clears c with
          | false => rfl
          | true =>
            obtain ⟨pc', hnew, hpc'⟩ := hkept pc hload hpc
            rw [hclears thread pc' (hown hnew)] at hpc'
            cases hpc'
        · exact hclears t pc (hkeep ht hload)
  · intro c hover
    rw [hstored] at hover
    obtain ⟨t, pc, hload, hpc⟩ := h.watched c hover
    by_cases ht : t = thread
    · rw [ht] at hload
      rcases hwatch c hover pc hload hpc with ⟨pc', hnew, hpc'⟩ | ⟨t', pc', ht', hload', hgrows⟩
      · exact ⟨thread, pc', hown hnew, hpc'.mono hless⟩
      · exact ⟨t', pc', hkeep ht' hload', watches_of_grows hgrows c⟩
    · exact ⟨t, pc, hkeep ht hload, hpc.mono hless⟩

theorem Accounted.hold (h : Accounted limits s) {old : Pc} {i : Fin fileCacheShardCount}
    {shard : Shard} {adds : List Add} {after : After} (hload : s.threads.load thread = some old)
    (hold : old.adds = [] ∧ ∀ c, old.clears c = false) (hordered : shard.Ordered)
    (hstored : ∀ c, shard.stored c = (s.shards i).stored c + total adds c)
    (hentries : ∀ key e, shard.entries.load key = some e →
      (s.shards i).entries.load key = some e ∨
        i = shardOf key ∧ ∀ c, weight c key e ≤ limits.of c)
    (hcases : (∃ key, after = .set key) ∨
      (∀ k, shard.entries.has k = true → (s.shards i).entries.has k = true) ∧
        (∀ add ∈ adds, add.2 ≤ 0) ∧ ∀ c, old.watches s.shards c →
          (Pc.count i adds after).watches (s.put i { shard with locked := true }).shards c) :
    Accounted limits (s.hold thread i shard adds after) := by
  have hm : Moves s.threads (s.hold thread i shard adds after).threads thread
      (some (.count i adds after)) := moves_goto _ thread _
  have hshards : ∀ j, (s.hold thread i shard adds after).shards j =
      if j = i then { shard with locked := true } else s.shards j := fun j => shards_put s i j _
  have hput : ∀ c, (s.hold thread i shard adds after).stored c =
      s.stored c - (s.shards i).stored c + shard.stored c := fun c => stored_put s i _ c
  have hpending : ∀ c, (s.hold thread i shard adds after).pending c =
      s.pending c + total adds c := by
    intro c
    have hmove := pending_move hm c
    have hzero : old.pending c = 0 := by
      unfold Pc.pending
      rw [hold.1, total_nil]
    rw [hload, Option.elim_some, hzero, sub_zero] at hmove
    exact hmove
  have hcounted : ∀ c, (s.hold thread i shard adds after).counted c = s.counted c := by
    intro c
    have hsum := hstored c
    have hall := hput c
    have hleft := hpending c
    unfold System.counted
    omega
  have hown : (s.hold thread i shard adds after).threads.load thread =
      some (.count i adds after) := by
    rw [hm.load, if_pos rfl]
  have hkeep : ∀ {t pc}, t ≠ thread → s.threads.load t = some pc →
      (s.hold thread i shard adds after).threads.load t = some pc := by
    intro t pc ht hpc
    rw [hm.load, if_neg ht]
    exact hpc
  constructor
  · intro j
    rw [hshards]
    split_ifs
    · exact hordered
    · exact h.ordered j
  · intro j key e hentry
    rw [hshards] at hentry
    split_ifs at hentry with hj
    · rcases hentries key e hentry with hbefore | ⟨hplaced, -⟩
      · rw [hj]
        exact h.placed i key e hbefore
      · exact hj.trans hplaced
    · exact h.placed j key e hentry
  · intro j key e hentry
    rw [hshards] at hentry
    split_ifs at hentry
    · rcases hentries key e hentry with hbefore | ⟨-, hfits⟩
      · exact h.fits i key e hbefore
      · exact hfits
    · exact h.fits j key e hentry
  · intro t pc hpc hgrows
    rcases hm.cases hpc with ⟨_, hnew⟩ | ⟨_, hbefore⟩
    · cases hnew
      rcases hcases with ⟨key, rfl⟩ | ⟨-, hless, -⟩
      · cases hgrows
      · exact hless
    · exact h.shrinks t pc hbefore hgrows
  · intro c
    rw [hcounted]
    exact h.counted_le c
  · intro c hclears
    rw [hcounted]
    apply h.exact_counter c
    intro t pc hpc
    by_cases ht : t = thread
    · rw [ht, hload] at hpc
      cases hpc
      exact hold.2 c
    · exact hclears t pc (hkeep ht hpc)
  · intro c hover
    rcases hcases with ⟨key, rfl⟩ | ⟨hkeys, hless, hwatch⟩
    · exact ⟨thread, _, hown, trivial⟩
    · have hsum := hstored c
      have hall := hput c
      have htotal := total_nonpos hless c
      obtain ⟨t, pc, hpc, hwatches⟩ := h.watched c (by omega)
      by_cases ht : t = thread
      · rw [ht, hload] at hpc
        cases hpc
        exact ⟨thread, _, hown, hwatch c hwatches⟩
      · refine ⟨t, pc, hkeep ht hpc, hwatches.mono ?_⟩
        intro j k hk
        rw [hshards] at hk
        split_ifs at hk with hj
        · rw [hj]
          exact hkeys k hk
        · exact hk

theorem Accounted.clear (h : Accounted limits s) {i : Fin fileCacheShardCount} {new : Pc}
    (hload : s.threads.load thread = some (.clear i))
    (hnew : new.adds = [] ∧ ∀ c, new.clears c = true) :
    Accounted limits ((s.put i (s.shards i).clear).goto thread new) := by
  have hm : Moves s.threads ((s.put i (s.shards i).clear).goto thread new).threads thread
      (some new) := moves_goto _ thread _
  have hshards : ∀ j, ((s.put i (s.shards i).clear).goto thread new).shards j =
      if j = i then (s.shards i).clear else s.shards j := fun j => shards_put s i j _
  have hput : ∀ c, ((s.put i (s.shards i).clear).goto thread new).stored c =
      s.stored c - (s.shards i).stored c + 0 := fun c => stored_put s i _ c
  have hpositive : ∀ c, 0 ≤ (s.shards i).stored c := fun c =>
    GoMap.sum_nonneg fun k e _ => weight_nonneg c k e
  have hpending : ∀ c, ((s.put i (s.shards i).clear).goto thread new).pending c =
      s.pending c := by
    intro c
    have hmove := pending_move hm c
    have hzero : new.pending c = 0 := by
      unfold Pc.pending
      rw [hnew.1, total_nil]
    rw [hload, Option.elim_some, Option.elim_some, hzero, add_zero] at hmove
    exact hmove.trans (sub_zero _)
  have hkeep : ∀ {t pc}, t ≠ thread → s.threads.load t = some pc →
      ((s.put i (s.shards i).clear).goto thread new).threads.load t = some pc := by
    intro t pc ht hpc
    rw [hm.load, if_neg ht]
    exact hpc
  constructor
  · intro j
    rw [hshards]
    split_ifs
    · intro key hkey
      cases hkey
    · exact h.ordered j
  · intro j key e hentry
    rw [hshards] at hentry
    split_ifs at hentry
    · cases hentry
    · exact h.placed j key e hentry
  · intro j key e hentry
    rw [hshards] at hentry
    split_ifs at hentry
    · cases hentry
    · exact h.fits j key e hentry
  · intro t pc hpc hgrows
    rcases hm.cases hpc with ⟨_, heq⟩ | ⟨_, hbefore⟩
    · cases heq
      rw [hnew.1]
      intros <;> contradiction
    · exact h.shrinks t pc hbefore hgrows
  · intro c
    have hle := h.counted_le c
    have hall := hput c
    have hleft := hpending c
    have hpos := hpositive c
    show _ ≤ s.counter c
    unfold System.counted at hle ⊢
    omega
  · intro c hclears
    have hfalse := hclears thread new (by rw [hm.load, if_pos rfl])
    rw [hnew.2 c] at hfalse
    cases hfalse
  · intro c hover
    have hall := hput c
    have hpos := hpositive c
    obtain ⟨t, pc, hpc, hwatches⟩ := h.watched c (by omega)
    have ht : t ≠ thread := by
      intro ht
      rw [ht, hload] at hpc
      cases hpc
      exact hwatches
    refine ⟨t, pc, hkeep ht hpc, hwatches.mono ?_⟩
    intro j k hk
    rw [hshards] at hk
    split_ifs at hk
    · cases hk
    · exact hk

end RenoP.FileCache
