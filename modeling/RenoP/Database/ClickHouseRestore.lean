import RenoP.Database.ClickHouseTransaction

/-!
# Restoring one table

A table is covered while its snapshot and the key list still tell how to bring it back: rows off the
list are as they were, rows on the list are in the snapshot.
-/

namespace RenoP.Database.ClickHouse

variable {Row : Type}

def SameRows (a b : GoMap String Row) : Prop := ∀ key, a.load key = b.load key

theorem SameRows.symm {a b : GoMap String Row} (h : SameRows a b) : SameRows b a :=
  fun key => (h key).symm

theorem SameRows.trans {a b c : GoMap String Row} (h : SameRows a b) (h' : SameRows b c) :
    SameRows a c := fun key => (h key).trans (h' key)

structure Saved (before : GoMap String Row) (touched : String → Prop)
    (rows : List (String × Row)) : Prop where
  sound : ∀ key row, (key, row) ∈ rows → before.load key = some row
  complete : ∀ key row, touched key → before.load key = some row → (key, row) ∈ rows

structure Covered (before : GoMap String Row) (s : Store Row) (id table snapshot : String) :
    Prop where
  saved : ∃ rows, s.snapshots.load snapshot = some rows ∧
    Saved before (fun key => (id, table, key) ∈ s.keys) rows
  others : ∀ key, (id, table, key) ∉ s.keys → (s.tables table).load key = before.load key

structure Apart (id table snapshot : String) (s s' : Store Row) : Prop where
  tables : ∀ t, t ≠ table → s'.tables t = s.tables t
  keys : ∀ t key, t ≠ table → ((id, t, key) ∈ s'.keys ↔ (id, t, key) ∈ s.keys)
  journal : ∀ i t, ¬(i = id ∧ t = table) → s'.journal.load (i, t) = s.journal.load (i, t)
  snapshots : ∀ n, n ≠ snapshot → s'.snapshots.load n = s.snapshots.load n

variable {id table snapshot : String} {s s' s'' : Store Row} {before after : GoMap String Row}

theorem Apart.refl : Apart id table snapshot s s :=
  ⟨fun _ _ => rfl, fun _ _ _ => Iff.rfl, fun _ _ _ => rfl, fun _ _ => rfl⟩

theorem Apart.trans (h : Apart id table snapshot s s') (h' : Apart id table snapshot s' s'') :
    Apart id table snapshot s s'' where
  tables t ht := (h'.tables t ht).trans (h.tables t ht)
  keys t key ht := (h'.keys t key ht).trans (h.keys t key ht)
  journal i t hit := (h'.journal i t hit).trans (h.journal i t hit)
  snapshots n hn := (h'.snapshots n hn).trans (h.snapshots n hn)

theorem Covered.apart {t n : String} (h : Covered before s id t n)
    (hapart : Apart id table snapshot s s') (ht : t ≠ table) (hn : n ≠ snapshot) :
    Covered before s' id t n where
  saved := by
    obtain ⟨rows, hload, hsaved⟩ := h.saved
    refine ⟨rows, (hapart.snapshots n hn).trans hload, hsaved.sound, ?_⟩
    intro key row hkey hrow
    exact hsaved.complete key row ((hapart.keys t key ht).mp hkey) hrow
  others := by
    intro key hkey
    rw [hapart.tables t ht]
    exact h.others key fun hkey' => hkey ((hapart.keys t key ht).mpr hkey')

theorem deleteRows_apart (h : deleteRows id table s = some s') : Apart id table snapshot s s' := by
  cases h
  exact ⟨fun t ht => Function.update_of_ne ht .., fun _ _ _ => Iff.rfl, fun _ _ _ => rfl,
    fun _ _ => rfl⟩

theorem insertRows_apart (h : insertRows table snapshot s = some s') :
    Apart id table snapshot s s' := by
  obtain ⟨rows, -, rfl⟩ := Option.map_eq_some_iff.mp h
  exact ⟨fun t ht => Function.update_of_ne ht .., fun _ _ _ => Iff.rfl, fun _ _ _ => rfl,
    fun _ _ => rfl⟩

theorem mem_deleteKeys (h : deleteKeys id table s = some s') (t key : String) :
    (id, t, key) ∈ s'.keys ↔ t ≠ table ∧ (id, t, key) ∈ s.keys := by
  cases h
  show (id, t, key) ∈ s.keys.filter _ ↔ _
  rw [Finset.mem_filter]
  constructor
  · rintro ⟨hmem, hne | hne⟩
    · exact absurd rfl hne
    · exact ⟨hne, hmem⟩
  · rintro ⟨hne, hmem⟩
    exact ⟨hmem, Or.inr hne⟩

theorem deleteKeys_apart (h : deleteKeys id table s = some s') :
    Apart id table snapshot s s' := by
  have hkeys := mem_deleteKeys h
  cases h
  exact ⟨fun _ _ => rfl, fun t key ht => by rw [hkeys, and_iff_right ht], fun _ _ _ => rfl,
    fun _ _ => rfl⟩

theorem deleteJournal_apart (h : deleteJournal id table s = some s') :
    Apart id table snapshot s s' := by
  cases h
  refine ⟨fun _ _ => rfl, fun _ _ _ => Iff.rfl, ?_, fun _ _ => rfl⟩
  intro i t hit
  apply GoMap.load_delete_ne
  intro heq
  cases heq
  exact hit ⟨rfl, rfl⟩

theorem dropSnapshot_apart (h : dropSnapshot snapshot s = some s') :
    Apart id table snapshot s s' := by
  cases h
  exact ⟨fun _ _ => rfl, fun _ _ _ => Iff.rfl, fun _ _ _ => rfl, fun n hn =>
    GoMap.load_delete_ne _ hn⟩

theorem deleteRows_load (h : deleteRows id table s = some s') (key : String) :
    (s'.tables table).load key =
      if (id, table, key) ∈ s.keys then none else (s.tables table).load key := by
  cases h
  show (Function.update s.tables table _ table).load key = _
  rw [Function.update_self, GoMap.load_deleteWhere]
  by_cases hkey : (id, table, key) ∈ s.keys
  · rw [if_pos hkey]
    cases (s.tables table).load key with
    | none => rfl
    | some row => simp [hkey]
  · rw [if_neg hkey]
    cases (s.tables table).load key with
    | none => rfl
    | some row => simp [hkey]

theorem insertRows_load (h : insertRows table snapshot s = some s') :
    ∃ rows, s.snapshots.load snapshot = some rows ∧ s'.tables table = (s.tables table).storeAll rows ∧
      s'.keys = s.keys ∧ s'.snapshots = s.snapshots ∧ s'.journal = s.journal := by
  obtain ⟨rows, hrows, rfl⟩ := Option.map_eq_some_iff.mp h
  exact ⟨rows, hrows, Function.update_self .., rfl, rfl, rfl⟩

theorem Covered.deleteRows (h : Covered before s id table snapshot)
    (hs' : ClickHouse.deleteRows id table s = some s') : Covered before s' id table snapshot := by
  have hload := deleteRows_load hs'
  cases hs'
  refine ⟨h.saved, ?_⟩
  intro key hkey
  rw [hload, if_neg hkey]
  exact h.others key hkey

theorem Covered.insertRows (h : Covered before s id table snapshot)
    (hgone : ∀ key, (id, table, key) ∈ s.keys → (s.tables table).load key = none)
    (hs' : ClickHouse.insertRows table snapshot s = some s') :
    SameRows (s'.tables table) before := by
  obtain ⟨rows, hrows, htable, -, -, -⟩ := insertRows_load hs'
  obtain ⟨rows', hrows', hsaved⟩ := h.saved
  rw [hrows] at hrows'
  cases hrows'
  intro key
  rw [htable]
  rcases (s.tables table).load_storeAll rows key with ⟨row, hmem, hload⟩ | ⟨hno, hload⟩
  · rw [hload, hsaved.sound key row hmem]
  · rw [hload]
    by_cases hkey : (id, table, key) ∈ s.keys
    · rw [hgone key hkey]
      cases hbefore : before.load key with
      | none => rfl
      | some row => exact absurd (hsaved.complete key row hkey hbefore) (hno row)
    · exact h.others key hkey

def Restoring (before : GoMap String Row) (s : Store Row) (id table snapshot : String) : Prop :=
  s.journal.load (id, table) = some snapshot ∧ Covered before s id table snapshot ∨
    s.journal.load (id, table) = none ∧ SameRows (s.tables table) before

theorem forgetSnapshot_restoring {s₀ : Store Row} (hapart : Apart id table snapshot s₀ s)
    (hjournal : s.journal.load (id, table) = some snapshot)
    (hcovered : Covered before s id table snapshot) (hsame : SameRows (s.tables table) before) :
    (forgetSnapshot id table snapshot true).Safe
      (fun s' => Apart id table snapshot s₀ s' ∧ Restoring before s' id table snapshot)
      (fun err s' => err = none → s'.journal.load (id, table) = none) s := by
  refine ⟨⟨hapart, Or.inl ⟨hjournal, hcovered⟩⟩, ?_, ?_⟩
  · intro err
    exact ⟨⟨hapart, Or.inl ⟨hjournal, hcovered⟩⟩, fun h => by cases h⟩
  · intro s₁ h₁
    have hkeys := mem_deleteKeys h₁
    have hapart₁ := hapart.trans (deleteKeys_apart h₁)
    have hcovered₁ : Restoring before s₁ id table snapshot := by
      obtain ⟨rows, hrows, hsaved⟩ := hcovered.saved
      cases h₁
      refine Or.inl ⟨hjournal, ⟨rows, hrows, hsaved.sound, ?_⟩, fun key _ => hsame key⟩
      intro key row hkey hrow
      exact hsaved.complete key row ((hkeys table key).mp hkey).2 hrow
    refine ⟨⟨hapart₁, hcovered₁⟩, fun err => ⟨⟨hapart₁, hcovered₁⟩, fun h => by cases h⟩, ?_⟩
    intro s₂ h₂
    have hapart₂ := hapart₁.trans (deleteJournal_apart h₂)
    have hnone : s₂.journal.load (id, table) = none := by
      cases h₂
      exact GoMap.load_delete_self ..
    have hsame₂ : SameRows (s₂.tables table) before := by
      cases h₁
      cases h₂
      exact hsame
    refine ⟨⟨hapart₂, Or.inr ⟨hnone, hsame₂⟩⟩, ?_, ?_⟩
    · intro err
      exact ⟨⟨hapart₂, Or.inr ⟨hnone, hsame₂⟩⟩, fun h => by cases h⟩
    · intro s₃ h₃
      have hapart₃ := hapart₂.trans (dropSnapshot_apart h₃)
      cases h₃
      exact ⟨⟨hapart₃, Or.inr ⟨hnone, hsame₂⟩⟩, fun _ => hnone⟩

theorem restoreSnapshot_restoring (hjournal : s.journal.load (id, table) = some snapshot)
    (hcovered : Covered before s id table snapshot) :
    (restoreSnapshot id table snapshot).Safe
      (fun s' => Apart id table snapshot s s' ∧ Restoring before s' id table snapshot)
      (fun err s' => err = none → s'.journal.load (id, table) = none) s := by
  have hhere : Apart id table snapshot s s ∧ Restoring before s id table snapshot :=
    ⟨.refl, Or.inl ⟨hjournal, hcovered⟩⟩
  unfold restoreSnapshot
  by_cases hvalid : validClickHouseIdentifier table = false ∨
      validClickHouseIdentifier snapshot = false
  · rw [if_pos hvalid]
    exact ⟨hhere, fun h => by cases h⟩
  · rw [if_neg hvalid]
    refine ⟨hhere, fun err => ⟨hhere, fun h => by cases h⟩, ?_⟩
    obtain ⟨rows, hrows, -⟩ := hcovered.saved
    have hhas : s.snapshots.has snapshot = true := (GoMap.has_eq_true _ _).mpr ⟨rows, hrows⟩
    dsimp only
    rw [if_pos hhas]
    refine ⟨hhere, fun err => ⟨hhere, fun h => by cases h⟩, ?_⟩
    intro s₁ h₁
    have hapart₁ : Apart id table snapshot s s₁ := deleteRows_apart h₁
    have hcovered₁ := hcovered.deleteRows h₁
    have hgone : ∀ key, (id, table, key) ∈ s₁.keys → (s₁.tables table).load key = none := by
      intro key hkey
      rw [deleteRows_load h₁]
      cases h₁
      exact if_pos hkey
    have hjournal₁ : s₁.journal.load (id, table) = some snapshot := by
      cases h₁
      exact hjournal
    have hhere₁ : Apart id table snapshot s s₁ ∧ Restoring before s₁ id table snapshot :=
      ⟨hapart₁, Or.inl ⟨hjournal₁, hcovered₁⟩⟩
    refine ⟨hhere₁, fun err => ⟨hhere₁, fun h => by cases h⟩, ?_⟩
    intro s₂ h₂
    have hsame := hcovered₁.insertRows hgone h₂
    have hapart₂ : Apart id table snapshot s s₂ := hapart₁.trans (insertRows_apart h₂)
    obtain ⟨-, -, -, hkeys₂, hsnapshots₂, hjournal₂⟩ := insertRows_load h₂
    have hcovered₂ : Covered before s₂ id table snapshot := by
      refine ⟨?_, fun key _ => hsame key⟩
      rw [hkeys₂, hsnapshots₂]
      exact hcovered₁.saved
    exact forgetSnapshot_restoring hapart₂ (by rw [hjournal₂, hjournal₁]) hcovered₂ hsame

/-- `commit` has taken the table out of the journal. Its rows are those of before or of after, the
key list is whole or empty, the snapshot is whole or dropped. -/
structure Loose (before after : GoMap String Row) (touched : String → Prop) (s : Store Row)
    (id table snapshot : String) : Prop where
  journal : s.journal.load (id, table) = none
  rows : SameRows (s.tables table) before ∨ SameRows (s.tables table) after
  snapshot : ∀ rows, s.snapshots.load snapshot = some rows → Saved before touched rows
  keys : (∀ key, (id, table, key) ∈ s.keys ↔ touched key) ∨ ∀ key, (id, table, key) ∉ s.keys

def OneSided (before after : GoMap String Row) (touched : String → Prop) : Prop :=
  (∀ key, touched key → before.load key = none) ∨ ∀ key, touched key → after.load key = none

variable {touched : String → Prop}

theorem Loose.apart {t n : String} (h : Loose before after touched s id t n)
    (hapart : Apart id table snapshot s s') (ht : t ≠ table) (hn : n ≠ snapshot) :
    Loose before after touched s' id t n where
  journal := (hapart.journal id t fun h => ht h.2).trans h.journal
  rows := by
    rw [hapart.tables t ht]
    exact h.rows
  snapshot := by
    rw [hapart.snapshots n hn]
    exact h.snapshot
  keys := by
    rcases h.keys with hkeys | hkeys
    · exact Or.inl fun key => (hapart.keys t key ht).trans (hkeys key)
    · exact Or.inr fun key hkey => hkeys key ((hapart.keys t key ht).mp hkey)

theorem Loose.untouched (h : Loose before after touched s id table snapshot)
    (hagree : ∀ key, ¬touched key → after.load key = before.load key) {key : String}
    (hkey : ¬touched key) : (s.tables table).load key = before.load key := by
  rcases h.rows with hrows | hrows
  · exact hrows key
  · exact (hrows key).trans (hagree key hkey)

theorem Loose.deleteRows (h : Loose before after touched s id table snapshot)
    (hagree : ∀ key, ¬touched key → after.load key = before.load key)
    (hside : OneSided before after touched) (hs' : ClickHouse.deleteRows id table s = some s') :
    Loose before after touched s' id table snapshot := by
  have hload := deleteRows_load hs'
  have hrows : SameRows (s'.tables table) before ∨ SameRows (s'.tables table) after := by
    rcases h.keys with hkeys | hkeys
    · rcases hside with hnone | hnone
      · refine Or.inl fun key => ?_
        rw [hload]
        by_cases hkey : (id, table, key) ∈ s.keys
        · rw [if_pos hkey, hnone key ((hkeys key).mp hkey)]
        · rw [if_neg hkey]
          exact h.untouched hagree fun ht => hkey ((hkeys key).mpr ht)
      · refine Or.inr fun key => ?_
        rw [hload]
        by_cases hkey : (id, table, key) ∈ s.keys
        · rw [if_pos hkey, hnone key ((hkeys key).mp hkey)]
        · rw [if_neg hkey]
          have hkey' : ¬touched key := fun ht => hkey ((hkeys key).mpr ht)
          exact (h.untouched hagree hkey').trans (hagree key hkey').symm
    · have hsame : SameRows (s'.tables table) (s.tables table) := fun key => by
        rw [hload, if_neg (hkeys key)]
      exact h.rows.imp hsame.trans hsame.trans
  cases hs'
  exact ⟨h.journal, hrows, h.snapshot, h.keys⟩

theorem Loose.insertRows (h : Loose before after touched s id table snapshot)
    (hagree : ∀ key, ¬touched key → after.load key = before.load key)
    (hside : OneSided before after touched)
    (hs' : ClickHouse.insertRows table snapshot s = some s') :
    Loose before after touched s' id table snapshot := by
  obtain ⟨rows, hload, htable, hkeys, hsnapshots, hjournal⟩ := insertRows_load hs'
  have hsaved := h.snapshot rows hload
  have hrows : SameRows (s'.tables table) before ∨ SameRows (s'.tables table) after := by
    rw [htable]
    rcases hside with hnone | hnone
    · -- the snapshot has no touched row: nothing changes
      have hsame : SameRows ((s.tables table).storeAll rows) (s.tables table) := by
        intro key
        rcases (s.tables table).load_storeAll rows key with ⟨row, hmem, hrow⟩ | ⟨-, hrow⟩
        · have hbefore := hsaved.sound key row hmem
          have hkey : ¬touched key := fun ht => by
            rw [hnone key ht] at hbefore
            cases hbefore
          rw [hrow, h.untouched hagree hkey, hbefore]
        · exact hrow
      exact h.rows.imp hsame.trans hsame.trans
    · -- the snapshot has every touched row of before: all of them come back
      refine Or.inl fun key => ?_
      rcases (s.tables table).load_storeAll rows key with ⟨row, hmem, hrow⟩ | ⟨hno, hrow⟩
      · rw [hrow, hsaved.sound key row hmem]
      · rw [hrow]
        by_cases hkey : touched key
        · cases hbefore : before.load key with
          | none =>
            rcases h.rows with hsame | hsame
            · rw [hsame key, hbefore]
            · rw [hsame key, hnone key hkey]
          | some row => exact absurd (hsaved.complete key row hkey hbefore) (hno row)
        · exact h.untouched hagree hkey
  exact ⟨by rw [hjournal]; exact h.journal, hrows, by rw [hsnapshots]; exact h.snapshot,
    by rw [hkeys]; exact h.keys⟩

theorem Loose.deleteKeys (h : Loose before after touched s id table snapshot)
    (hs' : ClickHouse.deleteKeys id table s = some s') :
    Loose before after touched s' id table snapshot := by
  have hkeys := mem_deleteKeys hs'
  cases hs'
  exact ⟨h.journal, h.rows, h.snapshot, Or.inr fun key hkey => ((hkeys table key).mp hkey).1 rfl⟩

theorem Loose.deleteJournal (h : Loose before after touched s id table snapshot)
    (hs' : ClickHouse.deleteJournal id table s = some s') :
    Loose before after touched s' id table snapshot := by
  cases hs'
  exact ⟨GoMap.load_delete_self .., h.rows, h.snapshot, h.keys⟩

theorem Loose.dropSnapshot (h : Loose before after touched s id table snapshot)
    (hs' : ClickHouse.dropSnapshot snapshot s = some s') :
    Loose before after touched s' id table snapshot := by
  cases hs'
  refine ⟨h.journal, h.rows, ?_, h.keys⟩
  intro rows hload
  have hnone : (s.snapshots.delete snapshot).load snapshot = none := GoMap.load_delete_self ..
  rw [hnone] at hload
  cases hload

theorem forgetSnapshot_loose {s₀ : Store Row} («exists» : Bool)
    (hapart : Apart id table snapshot s₀ s) (h : Loose before after touched s id table snapshot) :
    (forgetSnapshot id table snapshot «exists»).Safe
      (fun s' => Apart id table snapshot s₀ s' ∧ Loose before after touched s' id table snapshot)
      (fun _ _ => True) s := by
  refine ⟨⟨hapart, h⟩, fun err => ⟨⟨hapart, h⟩, trivial⟩, ?_⟩
  intro s₁ h₁
  have hapart₁ := hapart.trans (deleteKeys_apart h₁)
  have hloose₁ := h.deleteKeys h₁
  refine ⟨⟨hapart₁, hloose₁⟩, fun err => ⟨⟨hapart₁, hloose₁⟩, trivial⟩, ?_⟩
  intro s₂ h₂
  have hapart₂ := hapart₁.trans (deleteJournal_apart h₂)
  have hloose₂ := hloose₁.deleteJournal h₂
  cases «exists» with
  | false => exact ⟨⟨hapart₂, hloose₂⟩, trivial⟩
  | true =>
    refine ⟨⟨hapart₂, hloose₂⟩, fun err => ⟨⟨hapart₂, hloose₂⟩, trivial⟩, ?_⟩
    intro s₃ h₃
    exact ⟨⟨hapart₂.trans (dropSnapshot_apart h₃), hloose₂.dropSnapshot h₃⟩, trivial⟩

theorem restoreSnapshot_loose (hagree : ∀ key, ¬touched key → after.load key = before.load key)
    (hside : OneSided before after touched)
    (h : Loose before after touched s id table snapshot) :
    (restoreSnapshot id table snapshot).Safe
      (fun s' => Apart id table snapshot s s' ∧ Loose before after touched s' id table snapshot)
      (fun _ _ => True) s := by
  have hhere : Apart id table snapshot s s ∧ Loose before after touched s id table snapshot :=
    ⟨.refl, h⟩
  unfold restoreSnapshot
  by_cases hvalid : validClickHouseIdentifier table = false ∨
      validClickHouseIdentifier snapshot = false
  · rw [if_pos hvalid]
    exact ⟨hhere, trivial⟩
  · rw [if_neg hvalid]
    refine ⟨hhere, fun err => ⟨hhere, trivial⟩, ?_⟩
    dsimp only
    by_cases hhas : s.snapshots.has snapshot = true
    · rw [if_pos hhas]
      refine ⟨hhere, fun err => ⟨hhere, trivial⟩, ?_⟩
      intro s₁ h₁
      have hapart₁ : Apart id table snapshot s s₁ := deleteRows_apart h₁
      have hloose₁ := h.deleteRows hagree hside h₁
      refine ⟨⟨hapart₁, hloose₁⟩, fun err => ⟨⟨hapart₁, hloose₁⟩, trivial⟩, ?_⟩
      intro s₂ h₂
      exact forgetSnapshot_loose true (hapart₁.trans (insertRows_apart h₂))
        (hloose₁.insertRows hagree hside h₂)
    · rw [if_neg hhas]
      exact forgetSnapshot_loose false .refl h

end RenoP.Database.ClickHouse
