import RenoP.Database.ClickHouseCommit

/-!
# Atomicity of a transaction

Before `commit` every way out leads back to the start.
-/

namespace RenoP.Database.ClickHouse

variable {Row : Type}

variable {before : Tables Row} {tx : Tx} {s s' : Store Row}

theorem Tracked.commit_safe (h : Tracked before tx s) (hwhole : CommitsWhole before tx s)
    (hopen : tx.closed = false) (committing restoring : GoMap.RangeOrder String String) :
    (tx.commit committing restoring).Safe (Bound before s.tables tx.id)
      (fun r s' => r.2.length ≤ 1 → ∀ k, s'.journal.load k = none) s := by
  unfold Tx.commit
  rw [hopen, if_neg Bool.false_ne_true]
  have hloop : (tx.commitTables restoring (committing.pairs tx.snapshots)).Safe
      (Bound before s.tables tx.id)
      (fun errs s' => errs.length ≤ 1 → ∀ k, s'.journal.load k = none) s := by
    rcases hwhole with hsize | ⟨hone, hside⟩
    · exact commitTables_one h hsize committing restoring
    · have hstart : Committing before s.tables tx (Touched tx s)
          (committing.pairs tx.snapshots) s := by
        refine ⟨⟨before, fun _ => Or.inl fun _ => rfl, h.settling⟩, ?_, rfl, ?_, ?_, ?_⟩
        · rintro ⟨i, t⟩ n hn
          rw [h.journal] at hn
          split_ifs at hn with hi
          exact ⟨hi, hn⟩
        · intro t n hn
          exact Or.inl ((h.journal_own t).trans hn)
        · intro e he
          have hload := (committing.mem_pairs tx.snapshots e.1 e.2).mp he
          exact ⟨hload, (h.journal_own e.1).trans hload, fun _ => Iff.rfl⟩
        · rintro ⟨i, t⟩ n hn
          rw [h.journal] at hn
          split_ifs at hn
          exact List.mem_map.mpr ⟨_, (committing.mem_pairs tx.snapshots t n).mpr hn, rfl⟩
      have hagree : ∀ t n, tx.snapshots.load t = some n → ∀ key, ¬Touched tx s t key →
          (s.tables t).load key = (before t).load key :=
        fun t n hn key hkey => (h.covered t n hn).others key hkey
      exact (commitTables_halfway h.distinct hagree hside restoring
        (h.pairs_snapshots_nodup restoring) (committing.pairs_nodup tx.snapshots) hstart).mono
          (fun _ ht => ht.bound hone) fun _ _ _ hpost => hpost
  refine hloop.bind ?_
  intro errs s₁ hbound hpost
  exact ⟨hbound, hpost⟩

def firstOrder {K V : Type} [DecidableEq K] (k : K) : GoMap.RangeOrder K V where
  keys m := if k ∈ m.keys then k :: m.keys.erase k else m.keys
  perm := by
    intro m
    split_ifs with h
    · exact (List.perm_cons_erase h).symm
    · exact List.Perm.refl m.keys

theorem firstOrder_pairs {K V : Type} [DecidableEq K] {m : GoMap K V} {k : K} {v : V}
    (h : m.load k = some v) : ∃ rest, (firstOrder k).pairs m = (k, v) :: rest := by
  unfold GoMap.RangeOrder.pairs firstOrder
  dsimp only
  rw [if_pos (GoMap.mem_keys_of_load h), List.filterMap_cons, h]
  exact ⟨_, rfl⟩

theorem Tracked.listed (h : Tracked before tx s) {table : String}
    (hdiffers : ¬SameRows (s.tables table) (before table)) :
    ∃ snapshot, tx.snapshots.load table = some snapshot := by
  cases hn : tx.snapshots.load table with
  | none => exact absurd (h.others table hn) hdiffers
  | some snapshot => exact ⟨snapshot, rfl⟩

theorem Tracked.mixes (h : Tracked before tx s) {table snapshot : String}
    (hload : tx.snapshots.load table = some snapshot) (hapart : Apart tx.id table snapshot s s')
    (hgone : s'.journal.load (tx.id, table) = none) :
    ∃ t, Recovers s' t ∧ SameRows (t.tables table) (s'.tables table) ∧
      ∀ u, u ≠ table → SameRows (t.tables u) (before u) := by
  have hother : ∀ t n, t ≠ table → s.journal.load (tx.id, t) = some n → n ≠ snapshot := by
    intro t n ht hn heq
    rw [h.journal_own, heq] at hn
    exact ht (h.distinct t table snapshot hn hload)
  have hsettling := h.settling.release hapart hgone hother
  obtain ⟨t, ht⟩ := hsettling.completes
  refine ⟨t, ht, ?_, ?_⟩
  · have hsame := hsettling.recovers ht table
    rw [Function.update_self] at hsame
    exact hsame
  · intro u hu
    have hsame := hsettling.recovers ht u
    rw [Function.update_of_ne hu] at hsame
    exact hsame

theorem Tracked.crash_mixes (h : Tracked before tx s) (hopen : tx.closed = false)
    (table : String) {snapshot : String} (hload : tx.snapshots.load table = some snapshot)
    (order : GoMap.RangeOrder String String) :
    ∃ s' t, (tx.commit (firstOrder table) order).Ends s none s' ∧ Recovers s' t ∧
      SameRows (t.tables table) (s.tables table) ∧
      ∀ u, u ≠ table → SameRows (t.tables u) (before u) := by
  obtain ⟨rest, hpairs⟩ := firstOrder_pairs hload
  obtain ⟨s₁, h₁⟩ : ∃ s₁, deleteJournal tx.id table s = some s₁ := ⟨_, rfl⟩
  have hgone : s₁.journal.load (tx.id, table) = none := by
    cases h₁
    exact GoMap.load_delete_self ..
  have hsame : s₁.tables = s.tables := by
    cases h₁
    rfl
  obtain ⟨t, hrecovers, htable, hothers⟩ := h.mixes hload (deleteJournal_apart h₁) hgone
  refine ⟨s₁, t, ?_, hrecovers, ?_, hothers⟩
  · unfold Tx.commit
    rw [hopen, if_neg Bool.false_ne_true, hpairs]
    exact Program.Ends.bind_crash (.exec h₁ .crash)
  · rw [← hsame]
    exact htable

theorem Tracked.restore_mixes (h : Tracked before tx s) (hopen : tx.closed = false)
    {table snapshot : String} (hload : tx.snapshots.load table = some snapshot)
    (hsize : 1 < tx.snapshots.size) :
    ∃ s' t, (tx.commit (firstOrder table) (firstOrder table)).Ends s none s' ∧ Recovers s' t ∧
      ∀ key, (t.tables table).load key =
        if (tx.id, table, key) ∈ s.keys then none else (s.tables table).load key := by
  obtain ⟨rest, hpairs⟩ := firstOrder_pairs hload
  have hlength := pairs_length (firstOrder table) tx.snapshots
  rw [hpairs, List.length_cons] at hlength
  obtain ⟨second, rest', rfl⟩ : ∃ second rest', rest = second :: rest' := by
    cases rest with
    | nil => exact absurd hsize (by rw [← hlength]; decide)
    | cons second rest' => exact ⟨second, rest', rfl⟩
  obtain ⟨s₁, h₁⟩ : ∃ s₁, deleteJournal tx.id table s = some s₁ := ⟨_, rfl⟩
  obtain ⟨s₂, h₂⟩ : ∃ s₂, deleteRows tx.id table s₁ = some s₂ := ⟨_, rfl⟩
  have hapart : Apart tx.id table snapshot s s₂ :=
    (deleteJournal_apart h₁).trans (deleteRows_apart h₂)
  have hgone : s₂.journal.load (tx.id, table) = none := by
    cases h₁
    cases h₂
    exact GoMap.load_delete_self ..
  have hrows (key : String) : (s₂.tables table).load key =
      if (tx.id, table, key) ∈ s.keys then none else (s.tables table).load key := by
    rw [deleteRows_load h₂]
    cases h₁
    rfl
  have hhas : s₁.snapshots.has snapshot = true := by
    obtain ⟨rows, hrows', -⟩ := (h.covered table snapshot hload).saved
    cases h₁
    exact (GoMap.has_eq_true _ _).mpr ⟨rows, hrows'⟩
  obtain ⟨hvalid, hvalid'⟩ := h.valid table snapshot hload
  have hrestore : (restoreSnapshot tx.id table snapshot).Ends s₁ none s₂ := by
    unfold restoreSnapshot
    rw [if_neg (by rw [hvalid, hvalid']; decide)]
    refine .query ?_
    dsimp only
    rw [if_pos hhas]
    exact .exec h₂ .crash
  obtain ⟨t, hrecovers, htable, -⟩ := h.mixes hload hapart hgone
  refine ⟨s₂, t, ?_, hrecovers, fun key => (htable key).trans (hrows key)⟩
  unfold Tx.commit
  rw [hopen, if_neg Bool.false_ne_true, hpairs]
  refine Program.Ends.bind_crash (.exec h₁ (.execFailed "timeout" (.execFailed "timeout"
    (.execFailed "timeout" (Program.Ends.bind_crash ?_)))))
  unfold Tx.restoreSnapshots
  rw [hpairs]
  exact Program.Ends.bind_crash hrestore

theorem Tracked.mixture (h : Tracked before tx s) (hopen : tx.closed = false)
    (hwhole : ¬CommitsWhole before tx s) :
    ∃ committing restoring s' t, (tx.commit committing restoring).Ends s none s' ∧
      Recovers s' t ∧ ¬AllOrNothing before s.tables t.tables := by
  unfold CommitsWhole at hwhole
  push Not at hwhole
  obtain ⟨hsize, hmix⟩ := hwhole
  by_cases hone : ∀ t u, ¬SameRows (s.tables t) (before t) → ¬SameRows (s.tables u) (before u) →
      t = u
  · obtain ⟨table, snapshot, hload, hsides⟩ := hmix hone
    obtain ⟨s', t, hends, hrecovers, hrows⟩ := h.restore_mixes hopen hload hsize
    refine ⟨_, _, s', t, hends, hrecovers, ?_⟩
    unfold OneSided at hsides
    push Not at hsides
    obtain ⟨⟨a, ha, hbefore⟩, b, hb, hafter⟩ := hsides
    rintro (hall | hall)
    · have hsame := hall table a
      replace ha : (tx.id, table, a) ∈ s.keys := ha
      rw [hrows, if_pos ha] at hsame
      exact hbefore hsame.symm
    · have hsame := hall table b
      replace hb : (tx.id, table, b) ∈ s.keys := hb
      rw [hrows, if_pos hb] at hsame
      exact hafter hsame.symm
  · push Not at hone
    obtain ⟨d, e, hd, he, hne⟩ := hone
    obtain ⟨snapshot, hload⟩ := h.listed hd
    obtain ⟨s', t, hends, hrecovers, htable, hothers⟩ :=
      h.crash_mixes hopen d hload GoMap.RangeOrder.entries
    refine ⟨_, _, s', t, hends, hrecovers, ?_⟩
    rintro (hall | hall)
    · exact hd (htable.symm.trans (hall d))
    · exact he ((hall e).symm.trans (hothers e hne.symm))

/-- `commit` or `rollback` has returned and its error handling, if any, has gone through, or the
server has been started again and has completed the recovery. -/
def Settles (handled : List String → Prop) (r : Option (Tx × List String)) (s t : Store Row) :
    Prop :=
  (∃ tx errs, r = some (tx, errs) ∧ handled errs ∧ t = s) ∨ Recovers s t

theorem Tracked.rollback_settles (h : Tracked before tx s) (hopen : tx.closed = false)
    {order : GoMap.RangeOrder String String} {r : Option (Tx × List String)} {t : Store Row}
    (hends : (tx.rollback order).Ends s r s') (hsettles : Settles (· = []) r s' t)
    (table : String) : SameRows (t.tables table) (before table) := by
  have hsafe : (tx.rollback order).Safe (Settling before before tx.id)
      (fun r s' => r.2 = [] → ∀ k, s'.journal.load k = none) s := by
    unfold Tx.rollback
    rw [hopen, if_neg Bool.false_ne_true]
    refine (h.restoreSnapshots order).bind ?_
    intro errs s₁ hsettling hpost
    exact ⟨hsettling, hpost⟩
  rcases hsettles with ⟨tx', errs, rfl, rfl, rfl⟩ | hrecovers
  · obtain ⟨hsettling, hempty⟩ := hsafe.returns hends
    exact hsettling.settled table (hempty rfl _)
  · exact (hsafe.ends hends).recovers hrecovers table

def emptyStore : Store ℕ := ⟨fun _ => ∅, ∅, ∅, ∅⟩

theorem emptyStore_fresh (id : String) : Fresh id emptyStore where
  journal := fun _ _ => rfl
  keys := fun _ _ => Finset.notMem_empty _

def insertOne (table : String) : Mutation ℕ := .insert table [("k", 1)] fun _ => true

end RenoP.Database.ClickHouse
