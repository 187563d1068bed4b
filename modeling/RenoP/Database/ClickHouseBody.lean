import RenoP.Database.ClickHouseRecovery

/-!
# The calls of a transaction

Each call of a transaction records a table in the journal and a key in the key list before it
changes a row.
-/

namespace RenoP.Database.ClickHouse

variable {Row : Type}

structure Tracked (before : Tables Row) (tx : Tx) (s : Store Row) : Prop where
  journal : ∀ i table, s.journal.load (i, table) =
    if i = tx.id then tx.snapshots.load table else none
  covered : ∀ table snapshot, tx.snapshots.load table = some snapshot →
    Covered (before table) s tx.id table snapshot
  others : ∀ table, tx.snapshots.load table = none → SameRows (s.tables table) (before table)
  unlisted : ∀ table, tx.snapshots.load table = none → ∀ key, (tx.id, table, key) ∉ s.keys
  distinct : ∀ t u snapshot, tx.snapshots.load t = some snapshot →
    tx.snapshots.load u = some snapshot → t = u
  valid : ∀ table snapshot, tx.snapshots.load table = some snapshot →
    validClickHouseIdentifier table = true ∧ validClickHouseIdentifier snapshot = true

variable {before : Tables Row} {tx : Tx} {s s' : Store Row}

theorem Tracked.begin {id : String} (hid : validClickHouseIdentifier id = true)
    (hfresh : Fresh id s) : Tracked s.tables (Tx.begin id hid) s where
  journal := by
    intro i table
    rw [hfresh.journal i table]
    exact (ite_self none).symm
  covered := by
    intro table snapshot h
    cases h
  others := fun _ _ _ => rfl
  unlisted := fun table _ => hfresh.keys table
  distinct := by
    intro t u snapshot h
    cases h
  valid := by
    intro table snapshot h
    cases h

theorem Tracked.journal_own (h : Tracked before tx s) (table : String) :
    s.journal.load (tx.id, table) = tx.snapshots.load table := by
  rw [h.journal, if_pos rfl]

theorem Tracked.settling (h : Tracked before tx s) : Settling before before tx.id s where
  owner := by
    intro i table snapshot hn
    rw [h.journal] at hn
    by_contra hi
    rw [if_neg hi] at hn
    cases hn
  covered := by
    intro table snapshot hn
    rw [h.journal_own] at hn
    exact h.covered table snapshot hn
  back := fun _ _ _ _ => rfl
  valid := by
    intro table snapshot hn
    rw [h.journal_own] at hn
    exact h.valid table snapshot hn
  distinct := by
    intro t u snapshot ht hu
    rw [h.journal_own] at ht hu
    exact h.distinct t u snapshot ht hu
  settled := by
    intro table hn
    rw [h.journal_own] at hn
    exact h.others table hn

theorem Tx.snapshotName_valid (tx : Tx) : validClickHouseIdentifier tx.snapshotName = true := by
  have hid := tx.id_valid
  unfold validClickHouseIdentifier at hid ⊢
  rw [Bool.and_eq_true] at hid ⊢
  have hdigits : (toString tx.snapshots.size).toList = Nat.toDigits 10 tx.snapshots.size := by
    simp
  unfold Tx.snapshotName
  refine ⟨by simp, ?_⟩
  rw [String.toList_append, String.toList_append, String.toList_append, List.all_append,
    List.all_append, List.all_append, hid.2, hdigits, Bool.and_eq_true]
  refine ⟨by decide, List.all_eq_true.mpr fun c hc => ?_⟩
  have hdigit := Nat.isDigit_of_mem_toDigits (by decide) (by decide) hc
  unfold Char.isDigit at hdigit
  rw [Bool.or_eq_true]
  exact Or.inr hdigit

theorem Tracked.of_snapshots (h : Tracked before tx s) (htables : s'.tables = s.tables)
    (hjournal : s'.journal = s.journal) (hkeys : s'.keys = s.keys)
    (hsnapshots : ∀ table snapshot, tx.snapshots.load table = some snapshot →
      s'.snapshots.load snapshot = s.snapshots.load snapshot) : Tracked before tx s' where
  journal := by
    rw [hjournal]
    exact h.journal
  covered := by
    intro table snapshot hn
    obtain ⟨hsaved, hothers⟩ := h.covered table snapshot hn
    refine ⟨?_, ?_⟩
    · rw [hsnapshots table snapshot hn, hkeys]
      exact hsaved
    · rw [hkeys, htables]
      exact hothers
  others := by
    rw [htables]
    exact h.others
  unlisted := by
    rw [hkeys]
    exact h.unlisted
  distinct := h.distinct
  valid := h.valid

theorem Tracked.fresh_name (h : Tracked before tx s) {name : String}
    (hfree : s.snapshots.has name = false) (table snapshot : String)
    (hn : tx.snapshots.load table = some snapshot) : snapshot ≠ name := by
  intro heq
  obtain ⟨rows, hrows, -⟩ := (h.covered table snapshot hn).saved
  rw [heq, (GoMap.has_eq_false _ _).mp hfree] at hrows
  cases hrows

theorem Tracked.insertJournal (h : Tracked before tx s) {table name : String}
    (hnone : tx.snapshots.load table = none) (htable : validClickHouseIdentifier table = true)
    (hname : validClickHouseIdentifier name = true)
    (hnew : ∀ t snapshot, tx.snapshots.load t = some snapshot → snapshot ≠ name)
    (hrows : s.snapshots.load name = some [])
    (hs' : ClickHouse.insertJournal tx.id table name s = some s') :
    Tracked before { tx with snapshots := tx.snapshots.store table name } s' := by
  cases hs'
  have hload (t : String) : (tx.snapshots.store table name).load t =
      if t = table then some name else tx.snapshots.load t := GoMap.load_store ..
  have hcases {t n : String} (hn : (tx.snapshots.store table name).load t = some n) :
      t = table ∧ n = name ∨ t ≠ table ∧ tx.snapshots.load t = some n := by
    rw [hload] at hn
    by_cases ht : t = table
    · rw [if_pos ht] at hn
      cases hn
      exact Or.inl ⟨ht, rfl⟩
    · rw [if_neg ht] at hn
      exact Or.inr ⟨ht, hn⟩
  exact {
    journal := by
      intro i t
      show (s.journal.store (tx.id, table) name).load (i, t) =
        if i = tx.id then (tx.snapshots.store table name).load t else none
      rw [GoMap.load_store, hload, h.journal]
      by_cases hi : i = tx.id
      · rw [hi]
        by_cases ht : t = table
        · rw [ht, if_pos rfl, if_pos rfl, if_pos rfl]
        · rw [if_neg fun heq => ht (congrArg Prod.snd heq), if_pos rfl, if_pos rfl, if_neg ht]
      · rw [if_neg fun heq => hi (congrArg Prod.fst heq), if_neg hi, if_neg hi]
    covered := by
      intro t n hn
      rcases hcases hn with ⟨rfl, rfl⟩ | ⟨-, hn⟩
      · refine ⟨⟨[], hrows, ?_, ?_⟩, fun key _ => h.others t hnone key⟩
        · intro key row hmem
          cases hmem
        · intro key row hkey
          exact absurd hkey (h.unlisted t hnone key)
      · exact ⟨(h.covered t n hn).saved, (h.covered t n hn).others⟩
    others := by
      intro t hn
      replace hn : (tx.snapshots.store table name).load t = none := hn
      rw [hload] at hn
      split_ifs at hn
      exact h.others t hn
    unlisted := by
      intro t hn
      replace hn : (tx.snapshots.store table name).load t = none := hn
      rw [hload] at hn
      split_ifs at hn
      exact h.unlisted t hn
    distinct := by
      intro t u n ht hu
      rcases hcases ht with ⟨ht, hname⟩ | ⟨-, ht⟩
      · rcases hcases hu with ⟨hu, -⟩ | ⟨-, hu⟩
        · exact ht.trans hu.symm
        · exact absurd hname (hnew u n hu)
      · rcases hcases hu with ⟨-, hname⟩ | ⟨-, hu⟩
        · exact absurd hname (hnew t n ht)
        · exact h.distinct t u n ht hu
    valid := by
      intro t n hn
      rcases hcases hn with ⟨rfl, rfl⟩ | ⟨-, hn⟩
      · exact ⟨htable, hname⟩
      · exact h.valid t n hn }

theorem Tracked.snapshotRow (h : Tracked before tx s) {table snapshot key : String}
    (hn : tx.snapshots.load table = some snapshot) (hkey : (tx.id, table, key) ∉ s.keys)
    (hs' : ClickHouse.snapshotRow snapshot table key s = some s') :
    Tracked before tx s' ∧ s'.tables = s.tables ∧ s'.keys = s.keys ∧
      ∃ rows, s'.snapshots.load snapshot = some rows ∧
        ∀ row, (before table).load key = some row → (key, row) ∈ rows := by
  obtain ⟨rows, hrows, rfl⟩ := Option.map_eq_some_iff.mp hs'
  obtain ⟨hsaved, hothers⟩ := h.covered table snapshot hn
  obtain ⟨rows', hrows', hsound, hcomplete⟩ := hsaved
  rw [hrows] at hrows'
  cases hrows'
  have hmem (k : String) (row : Row) : (k, row) ∈
      rows ++ (((s.tables table).load key).map fun row => (key, row)).toList ↔
      (k, row) ∈ rows ∨ k = key ∧ (before table).load key = some row := by
    rw [hothers key hkey, List.mem_append, Option.mem_toList, Option.map_eq_some_iff]
    constructor
    · rintro (hold | ⟨row', hrow, heq⟩)
      · exact Or.inl hold
      · cases heq
        exact Or.inr ⟨rfl, hrow⟩
    · rintro (hold | ⟨rfl, hrow⟩)
      · exact Or.inl hold
      · exact Or.inr ⟨row, hrow, rfl⟩
  refine ⟨?_, rfl, rfl, _, GoMap.load_store_self .., fun row hrow => (hmem key row).mpr
    (Or.inr ⟨rfl, hrow⟩)⟩
  refine { h with covered := ?_ }
  intro t n htn
  by_cases hname : n = snapshot
  · subst hname
    obtain rfl := h.distinct t table n htn hn
    refine ⟨⟨_, GoMap.load_store_self .., ?_, ?_⟩, hothers⟩
    · intro k row hkrow
      rcases (hmem k row).mp hkrow with hold | ⟨rfl, hrow⟩
      · exact hsound k row hold
      · exact hrow
    · intro k row hk hrow
      exact (hmem k row).mpr (Or.inl (hcomplete k row hk hrow))
  · obtain ⟨⟨rows₁, hload, hsaved₁⟩, hothers₁⟩ := h.covered t n htn
    exact ⟨⟨rows₁, (GoMap.load_store_ne _ _ hname).trans hload, hsaved₁⟩, hothers₁⟩

theorem Tracked.insertKey (h : Tracked before tx s) {table snapshot key : String}
    (hn : tx.snapshots.load table = some snapshot)
    (hrow : ∃ rows, s.snapshots.load snapshot = some rows ∧
      ∀ row, (before table).load key = some row → (key, row) ∈ rows)
    (hs' : ClickHouse.insertKey tx.id table key s = some s') : Tracked before tx s' := by
  cases hs'
  have hmem (t k : String) : (tx.id, t, k) ∈ insert (tx.id, table, key) s.keys ↔
      t = table ∧ k = key ∨ (tx.id, t, k) ∈ s.keys := by
    rw [Finset.mem_insert, Prod.mk.injEq, Prod.mk.injEq, and_iff_right rfl]
  refine { h with covered := ?_, unlisted := ?_ }
  · intro t n htn
    obtain ⟨⟨rows, hload, hsound, hcomplete⟩, hothers⟩ := h.covered t n htn
    refine ⟨⟨rows, hload, hsound, ?_⟩, ?_⟩
    · intro k row hk hbefore
      rcases (hmem t k).mp hk with ⟨rfl, rfl⟩ | hk
      · obtain ⟨rows', hload', hrow⟩ := hrow
        rw [htn] at hn
        cases hn
        rw [hload] at hload'
        cases hload'
        exact hrow row hbefore
      · exact hcomplete k row hk hbefore
    · intro k hk
      exact hothers k fun hk' => hk ((hmem t k).mpr (Or.inr hk'))
  · intro t htn k hk
    rcases (hmem t k).mp hk with ⟨rfl, -⟩ | hk
    · rw [hn] at htn
      cases htn
    · exact h.unlisted t htn k hk

theorem Tracked.apply (h : Tracked before tx s) {m : Mutation Row} {snapshot : String}
    (hn : tx.snapshots.load m.table = some snapshot)
    (hkeys : ∀ key ∈ m.keys s.tables, (tx.id, m.table, key) ∈ s.keys)
    (hs' : m.apply s = some s') : Tracked before tx s' := by
  cases hs'
  refine { h with covered := ?_, others := ?_ }
  · intro t n htn
    obtain ⟨hsaved, hothers⟩ := h.covered t n htn
    refine ⟨hsaved, ?_⟩
    intro key hkey
    show (Function.update s.tables m.table (m.run s.tables) t).load key = _
    by_cases ht : t = m.table
    · rw [ht, Function.update_self, m.run_load s.tables fun hk => hkey (ht ▸ hkeys key hk)]
      exact ht ▸ hothers key hkey
    · rw [Function.update_of_ne ht]
      exact hothers key hkey
  · intro t htn
    have ht : t ≠ m.table := by
      intro heq
      rw [heq, hn] at htn
      cases htn
    show SameRows (Function.update s.tables m.table (m.run s.tables) t) _
    rw [Function.update_of_ne ht]
    exact h.others t htn

def TrackedBy (before : Tables Row) (id : String) (s : Store Row) : Prop :=
  ∃ tx : Tx, tx.id = id ∧ Tracked before tx s

theorem Tracked.by (h : Tracked before tx s) : TrackedBy before tx.id s := ⟨tx, rfl, h⟩

theorem snapshotKeys_safe {table snapshot : String} {keys : List String}
    (h : Tracked before tx s) (hn : tx.snapshots.load table = some snapshot) :
    (snapshotKeys tx.id table snapshot keys).Safe (TrackedBy before tx.id)
      (fun err s' => Tracked before tx s' ∧ s'.tables = s.tables ∧
        (∀ k ∈ s.keys, k ∈ s'.keys) ∧
        (err = none → ∀ key ∈ keys, (tx.id, table, key) ∈ s'.keys)) s := by
  induction keys generalizing s with
  | nil => exact ⟨h.by, h, rfl, fun k hk => hk, fun _ key hkey => by cases hkey⟩
  | cons key keys ih =>
    refine ⟨h.by, fun err => ⟨h.by, h, rfl, fun k hk => hk, fun herr => by cases herr⟩, ?_⟩
    dsimp only
    by_cases hkey : (tx.id, table, key) ∈ s.keys
    · rw [if_pos hkey]
      refine (ih h).mono (fun _ ht => ht) ?_
      rintro err s' - ⟨htracked, htables, hgrow, hall⟩
      refine ⟨htracked, htables, hgrow, fun herr k hk => ?_⟩
      rcases List.mem_cons.mp hk with rfl | hk
      · exact hgrow _ hkey
      · exact hall herr k hk
    · rw [if_neg hkey]
      refine ⟨h.by, fun err => ⟨h.by, h, rfl, fun k hk => hk, fun herr => by cases herr⟩, ?_⟩
      intro s₁ h₁
      obtain ⟨htracked₁, htables₁, hkeys₁, hrow₁⟩ := h.snapshotRow hn hkey h₁
      refine ⟨htracked₁.by, fun err => ⟨htracked₁.by, htracked₁, htables₁, ?_, ?_⟩, ?_⟩
      · intro k hk
        rw [hkeys₁]
        exact hk
      · intro herr
        cases herr
      · intro s₂ h₂
        have htracked₂ := htracked₁.insertKey hn hrow₁ h₂
        cases h₂
        refine (ih htracked₂).mono (fun _ ht => ht) ?_
        rintro err s' - ⟨htracked, htables, hgrow, hall⟩
        have hgrow₂ : ∀ k ∈ s.keys, k ∈ s'.keys := by
          intro k hk
          apply hgrow k
          apply Finset.mem_insert_of_mem
          rw [hkeys₁]
          exact hk
        refine ⟨htracked, htables.trans htables₁, hgrow₂, fun herr k hk => ?_⟩
        rcases List.mem_cons.mp hk with rfl | hk
        · exact hgrow _ (Finset.mem_insert_self ..)
        · exact hall herr k hk

structure Recorded (before : Tables Row) (m : Mutation Row) (tx : Tx) (err : Option String)
    (s : Store Row) : Prop where
  tracked : Tracked before tx s
  snapshot : err = none → ∃ snapshot, tx.snapshots.load m.table = some snapshot
  keys : err = none → ∀ key ∈ m.keys s.tables, (tx.id, m.table, key) ∈ s.keys

theorem Tracked.recorded_err (h : Tracked before tx s) (m : Mutation Row) (err : String) :
    Recorded before m tx (some err) s where
  tracked := h
  snapshot := by
    intro herr
    cases herr
  keys := by
    intro herr
    cases herr

theorem mutationKeys_safe (h : Tracked before tx s) (m : Mutation Row) :
    m.mutationKeys.Safe (TrackedBy before tx.id)
      (fun keys s' => s' = s ∧ ∀ l, keys = .ok l → l = m.keys s.tables) s := by
  cases m with
  | insert table rows cond =>
    refine ⟨h.by, rfl, ?_⟩
    intro l hl
    cases hl
    rfl
  | insertUnread table err =>
    refine ⟨h.by, rfl, ?_⟩
    intro l hl
    cases hl
  | alter table cond set =>
    refine ⟨h.by, fun err => ⟨h.by, rfl, fun l hl => by cases hl⟩, h.by, rfl, ?_⟩
    intro l hl
    cases hl
    rfl
  | delete table cond =>
    refine ⟨h.by, fun err => ⟨h.by, rfl, fun l hl => by cases hl⟩, h.by, rfl, ?_⟩
    intro l hl
    cases hl
    rfl
  | truncate table =>
    refine ⟨h.by, fun err => ⟨h.by, rfl, fun l hl => by cases hl⟩, h.by, rfl, ?_⟩
    intro l hl
    cases hl
    rfl

theorem recordKeys_safe (h : Tracked before tx s) {m : Mutation Row} {snapshot : String}
    (hn : tx.snapshots.load m.table = some snapshot) :
    (tx.recordKeys m snapshot).Safe (TrackedBy before tx.id)
      (fun r s' => r.1.id = tx.id ∧ r.1.closed = tx.closed ∧ Recorded before m r.1 r.2 s') s := by
  refine (mutationKeys_safe h m).bind ?_
  rintro keys s₁ - ⟨rfl, hkeys⟩
  cases keys with
  | error err => exact ⟨h.by, rfl, rfl, h.recorded_err m err⟩
  | ok l =>
    obtain rfl := hkeys l rfl
    refine (snapshotKeys_safe h hn).bind ?_
    rintro err s₂ - ⟨htracked, htables, -, hall⟩
    refine ⟨htracked.by, rfl, rfl, htracked, fun _ => ⟨snapshot, hn⟩, ?_⟩
    rw [htables]
    exact hall

theorem ensureSnapshot_safe (h : Tracked before tx s) (m : Mutation Row) :
    (tx.ensureSnapshot m).Safe (TrackedBy before tx.id)
      (fun r s' => r.1.id = tx.id ∧ r.1.closed = tx.closed ∧ Recorded before m r.1 r.2 s') s := by
  unfold Tx.ensureSnapshot
  by_cases hvalid : validClickHouseIdentifier m.table = false
  · rw [if_pos hvalid]
    exact ⟨h.by, rfl, rfl, h.recorded_err m _⟩
  · rw [if_neg hvalid]
    cases hn : tx.snapshots.load m.table with
    | some snapshot => exact recordKeys_safe h hn
    | none =>
      refine ⟨h.by, fun err => ⟨h.by, rfl, rfl, h.recorded_err m _⟩, ?_⟩
      intro s₁ h₁
      have hfree : s.snapshots.has tx.snapshotName = false := by
        unfold createSnapshot at h₁
        split_ifs at h₁ with hhas
        exact Bool.eq_false_of_not_eq_true hhas
      have hnew := h.fresh_name hfree
      unfold createSnapshot at h₁
      rw [hfree, if_neg Bool.false_ne_true] at h₁
      cases h₁
      have htracked₁ : Tracked before tx
          { s with snapshots := s.snapshots.store tx.snapshotName [] } :=
        h.of_snapshots rfl rfl rfl fun t n htn => GoMap.load_store_ne _ _ (hnew t n htn)
      refine ⟨htracked₁.by, ?_, ?_⟩
      · intro err
        refine ⟨htracked₁.by, fun err' => ⟨htracked₁.by, rfl, rfl, htracked₁.recorded_err m _⟩, ?_⟩
        intro s₂ h₂
        cases h₂
        have htracked₂ : Tracked before tx { s with
            snapshots := (s.snapshots.store tx.snapshotName []).delete tx.snapshotName } :=
          htracked₁.of_snapshots rfl rfl rfl fun t n htn => GoMap.load_delete_ne _ (hnew t n htn)
        exact ⟨htracked₂.by, rfl, rfl, htracked₂.recorded_err m _⟩
      · intro s₂ h₂
        have htracked₂ := htracked₁.insertJournal hn (Bool.eq_true_of_not_eq_false hvalid)
          tx.snapshotName_valid hnew (GoMap.load_store_self ..) h₂
        exact recordKeys_safe htracked₂ (GoMap.load_store_self ..)

theorem execUnlocked_safe {m : Mutation Row} (h : Recorded before m tx none s) :
    m.execUnlocked.Safe (TrackedBy before tx.id) (fun _ s' => Tracked before tx s') s := by
  have happly : (Program.exec m.apply fun err => .done err).Safe (TrackedBy before tx.id)
      (fun _ s' => Tracked before tx s') s := by
    refine ⟨h.tracked.by, fun err => ⟨h.tracked.by, h.tracked⟩, ?_⟩
    intro s' hs'
    obtain ⟨snapshot, hn⟩ := h.snapshot rfl
    have htracked := h.tracked.apply hn (h.keys rfl) hs'
    exact ⟨htracked.by, htracked⟩
  cases m with
  | insert table rows cond => exact happly
  | insertUnread table err => exact happly
  | alter table cond set =>
    exact ⟨h.tracked.by, fun err => ⟨h.tracked.by, h.tracked⟩, happly⟩
  | delete table cond =>
    exact ⟨h.tracked.by, fun err => ⟨h.tracked.by, h.tracked⟩, happly⟩
  | truncate table => exact happly

theorem exec_safe (h : Tracked before tx s) (m : Mutation Row) :
    (tx.exec m).Safe (TrackedBy before tx.id)
      (fun r s' => r.1.id = tx.id ∧ r.1.closed = tx.closed ∧ Tracked before r.1 s') s := by
  unfold Tx.exec
  split_ifs
  · exact ⟨h.by, rfl, rfl, h⟩
  · refine (ensureSnapshot_safe h m).bind ?_
    rintro ⟨tx', err⟩ s₁ - ⟨hid, hclosed, hrecorded⟩
    replace hid : tx'.id = tx.id := hid
    replace hclosed : tx'.closed = tx.closed := hclosed
    replace hrecorded : Recorded before m tx' err s₁ := hrecorded
    rw [← hid, ← hclosed]
    cases err with
    | some err => exact ⟨hrecorded.tracked.by, rfl, rfl, hrecorded.tracked⟩
    | none =>
      refine (execUnlocked_safe hrecorded).bind ?_
      intro err s₂ _ htracked
      exact ⟨htracked.by, rfl, rfl, htracked⟩

theorem Execs.tracked {tx' : Tx} (h : Tracked before tx s) (hexecs : Execs tx s tx' s') :
    tx'.id = tx.id ∧ tx'.closed = tx.closed ∧ Tracked before tx' s' := by
  induction hexecs with
  | none => exact ⟨rfl, rfl, h⟩
  | exec _ m hexec ih =>
    obtain ⟨hid, hclosed, htracked⟩ := ih
    obtain ⟨-, hid', hclosed', htracked'⟩ := (exec_safe htracked m).returns hexec
    exact ⟨hid'.trans hid, hclosed'.trans hclosed, htracked'⟩

end RenoP.Database.ClickHouse
