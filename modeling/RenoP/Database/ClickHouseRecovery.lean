import RenoP.Database.ClickHouseRestore

/-!
# Recovery

At every statement the store says where a recovery will lead: a table in the journal goes back to
the rows before the transaction, every other one stays.
-/

namespace RenoP.Database.ClickHouse

variable {Row : Type}

/-- A recovery leads to `target`. -/
structure Settling (before target : Tables Row) (id : String) (s : Store Row) : Prop where
  owner : ∀ i table snapshot, s.journal.load (i, table) = some snapshot → i = id
  covered : ∀ table snapshot, s.journal.load (id, table) = some snapshot →
    Covered (before table) s id table snapshot
  back : ∀ table snapshot, s.journal.load (id, table) = some snapshot →
    SameRows (target table) (before table)
  valid : ∀ table snapshot, s.journal.load (id, table) = some snapshot →
    validClickHouseIdentifier table = true ∧ validClickHouseIdentifier snapshot = true
  distinct : ∀ t u snapshot, s.journal.load (id, t) = some snapshot →
    s.journal.load (id, u) = some snapshot → t = u
  settled : ∀ table, s.journal.load (id, table) = none → SameRows (s.tables table) (target table)

variable {before target : Tables Row} {id table snapshot : String} {s s' : Store Row}

theorem Apart.journal_le (hapart : Apart id table snapshot s s')
    (hown : ∀ n, s'.journal.load (id, table) = some n → s.journal.load (id, table) = some n)
    {i t n : String} (h : s'.journal.load (i, t) = some n) : s.journal.load (i, t) = some n := by
  by_cases hit : i = id ∧ t = table
  · obtain ⟨rfl, rfl⟩ := hit
    exact hown n h
  · rw [← hapart.journal i t hit]
    exact h

theorem Settling.restoring (h : Settling before target id s)
    (hjournal : s.journal.load (id, table) = some snapshot)
    (hapart : Apart id table snapshot s s')
    (hrestoring : Restoring (before table) s' id table snapshot) :
    Settling before target id s' := by
  have hown : ∀ n, s'.journal.load (id, table) = some n → s.journal.load (id, table) = some n := by
    intro n hn
    rcases hrestoring with ⟨hsome, -⟩ | ⟨hnone, -⟩
    · rw [hn] at hsome
      rw [hjournal, hsome]
    · rw [hn] at hnone
      cases hnone
  have hle {i t n : String} (hn : s'.journal.load (i, t) = some n) :=
    hapart.journal_le hown hn
  exact {
    owner := fun i t n hn => h.owner i t n (hle hn)
    covered := by
      intro t n hn
      by_cases ht : t = table
      · subst ht
        rcases hrestoring with ⟨hsome, hcovered⟩ | ⟨hnone, -⟩
        · rw [hn] at hsome
          cases hsome
          exact hcovered
        · rw [hn] at hnone
          cases hnone
      · have hne : n ≠ snapshot := fun heq => ht (h.distinct t table n (hle hn) (heq ▸ hjournal))
        exact (h.covered t n (hle hn)).apart hapart ht hne
    back := fun t n hn => h.back t n (hle hn)
    valid := fun t n hn => h.valid t n (hle hn)
    distinct := fun t u n ht hu => h.distinct t u n (hle ht) (hle hu)
    settled := by
      intro t hnone
      by_cases ht : t = table
      · subst ht
        rcases hrestoring with ⟨hsome, -⟩ | ⟨-, hsame⟩
        · rw [hnone] at hsome
          cases hsome
        · exact hsame.trans (h.back t snapshot hjournal).symm
      · rw [hapart.tables t ht]
        rw [hapart.journal id t fun hit => ht hit.2] at hnone
        exact h.settled t hnone }

theorem Settling.release (h : Settling before target id s)
    (hapart : Apart id table snapshot s s') (hnone : s'.journal.load (id, table) = none)
    (hother : ∀ t n, t ≠ table → s.journal.load (id, t) = some n → n ≠ snapshot) :
    Settling before (Function.update target table (s'.tables table)) id s' := by
  have hown : ∀ n, s'.journal.load (id, table) = some n → s.journal.load (id, table) = some n := by
    intro n hn
    rw [hnone] at hn
    cases hn
  have hle {i t n : String} (hn : s'.journal.load (i, t) = some n) :=
    hapart.journal_le hown hn
  have hne {t n : String} (hn : s'.journal.load (id, t) = some n) : t ≠ table := by
    intro ht
    rw [ht, hnone] at hn
    cases hn
  exact {
    owner := fun i t n hn => h.owner i t n (hle hn)
    covered := fun t n hn =>
      (h.covered t n (hle hn)).apart hapart (hne hn) (hother t n (hne hn) (hle hn))
    back := by
      intro t n hn
      rw [Function.update_of_ne (hne hn)]
      exact h.back t n (hle hn)
    valid := fun t n hn => h.valid t n (hle hn)
    distinct := fun t u n ht hu => h.distinct t u n (hle ht) (hle hu)
    settled := by
      intro t hn
      by_cases ht : t = table
      · subst ht
        rw [Function.update_self]
        exact fun _ => rfl
      · rw [Function.update_of_ne ht, hapart.tables t ht]
        rw [hapart.journal id t fun hit => ht hit.2] at hn
        exact h.settled t hn }

theorem restoreSnapshot_settling (h : Settling before target id s)
    (hjournal : s.journal.load (id, table) = some snapshot) :
    (restoreSnapshot id table snapshot).Safe
      (fun s' => Settling before target id s' ∧ Apart id table snapshot s s')
      (fun err s' => err = none → s'.journal.load (id, table) = none) s := by
  refine (restoreSnapshot_restoring hjournal (h.covered table snapshot hjournal)).mono ?_ ?_
  · rintro s' ⟨hapart, hrestoring⟩
    exact ⟨h.restoring hjournal hapart hrestoring, hapart⟩
  · intro err s' _ hpost
    exact hpost

def Shrunk (s s' : Store Row) (entries : List ((String × String) × String)) : Prop :=
  ∀ k n, s'.journal.load k = some n → s.journal.load k = some n ∧ (k, n) ∉ entries

theorem restoreEntries_safe {entries : List ((String × String) × String)}
    (h : Settling before target id s) (hnodup : (entries.map Prod.fst).Nodup)
    (hentries : ∀ e ∈ entries, s.journal.load e.1 = some e.2) :
    (restoreEntries entries).Safe (Settling before target id)
      (fun err s' => err = none → Shrunk s s' entries) s := by
  induction entries generalizing s with
  | nil => exact ⟨h, fun _ k n hn => ⟨hn, List.not_mem_nil⟩⟩
  | cons e entries ih =>
    obtain ⟨⟨i, table⟩, snapshot⟩ := e
    have hjournal := hentries _ (List.mem_cons_self ..)
    obtain rfl := h.owner i table snapshot hjournal
    rw [List.map_cons, List.nodup_cons] at hnodup
    have hfirst := restoreSnapshot_settling h hjournal
    have hstep : (restoreSnapshot i table snapshot).Safe (Settling before target i)
        (fun err s' => Apart i table snapshot s s' ∧
          (err = none → s'.journal.load (i, table) = none)) s :=
      hfirst.mono (fun _ ht => ht.1) fun _ _ ht hpost => ⟨ht.2, hpost⟩
    refine hstep.bind ?_
    rintro err s₁ hsettling ⟨hapart, hpost⟩
    cases err with
    | some err => exact ⟨hsettling, fun h => by cases h⟩
    | none =>
      have hrest : ∀ e ∈ entries, s₁.journal.load e.1 = some e.2 := by
        intro e he
        have hmem : e.1 ∈ entries.map Prod.fst := List.mem_map.mpr ⟨e, he, rfl⟩
        have hne : e.1 ≠ (i, table) := by
          intro heq
          rw [heq] at hmem
          exact hnodup.1 hmem
        rw [hapart.journal e.1.1 e.1.2 fun hit => hne (Prod.ext hit.1 hit.2)]
        exact hentries e (List.mem_cons_of_mem _ he)
      refine (ih hsettling hnodup.2 hrest).mono (fun _ ht => ht) ?_
      intro err s₂ _ hshrunk herr
      intro k n hn
      obtain ⟨hn₁, hnot⟩ := hshrunk herr k n hn
      have hk : k ≠ (i, table) := by
        intro heq
        rw [heq, hpost rfl] at hn₁
        cases hn₁
      refine ⟨?_, ?_⟩
      · rw [hapart.journal k.1 k.2 fun hit => hk (Prod.ext hit.1 hit.2)] at hn₁
        exact hn₁
      · intro hmem
        rcases List.mem_cons.mp hmem with heq | hmem
        · exact hk (congrArg Prod.fst heq)
        · exact hnot hmem

theorem Settling.of_empty (h : Settling before target id s)
    (hempty : ∀ k, s.journal.load k = none) (htables : s'.tables = s.tables)
    (hempty' : ∀ k, s'.journal.load k = none) : Settling before target id s' := by
  have hno {k : String × String} {n : String} (hn : s'.journal.load k = some n) : False := by
    rw [hempty' k] at hn
    cases hn
  exact {
    owner := fun i t n hn => (hno hn).elim
    covered := fun t n hn => (hno hn).elim
    back := fun t n hn => (hno hn).elim
    valid := fun t n hn => (hno hn).elim
    distinct := fun t u n ht _ => (hno ht).elim
    settled := by
      intro t _
      rw [htables]
      exact h.settled t (hempty (id, t)) }

theorem dropOrphans_safe {active names : List String} (h : Settling before target id s)
    (hempty : ∀ k, s.journal.load k = none) :
    (dropOrphans active names).Safe (Settling before target id)
      (fun _ s' => ∀ k, s'.journal.load k = none) s := by
  induction names generalizing s with
  | nil =>
    refine ⟨h, fun err => ⟨h, hempty⟩, h, fun err => ⟨h, hempty⟩, ?_⟩
    intro s' hs'
    cases hs'
    exact ⟨h.of_empty hempty rfl hempty, hempty⟩
  | cons name names ih =>
    refine ⟨h, fun err => ⟨h, hempty⟩, ?_⟩
    dsimp only
    split_ifs
    · refine ⟨h, fun err => ⟨h, hempty⟩, ?_⟩
      intro s' hs'
      cases hs'
      exact ih (h.of_empty hempty rfl hempty) hempty
    · exact ih h hempty

theorem recoverTransactions_safe (h : Settling before target id s) (order : RecoveryOrder Row) :
    (recoverTransactions order).Safe (Settling before target id)
      (fun err s' => err = none → ∀ k, s'.journal.load k = none) s := by
  refine ⟨h, fun err => ⟨h, fun herr => by cases herr⟩, ?_⟩
  have hentries : ∀ e ∈ order.entries.pairs s.journal, s.journal.load e.1 = some e.2 :=
    fun e he => (order.entries.mem_pairs s.journal e.1 e.2).mp he
  have hloop := restoreEntries_safe h (order.entries.pairs_nodup s.journal) hentries
  refine hloop.bind ?_
  intro err s₁ hsettling hshrunk
  cases err with
  | some err => exact ⟨hsettling, fun herr => by cases herr⟩
  | none =>
    have hempty : ∀ k, s₁.journal.load k = none := by
      intro k
      cases hn : s₁.journal.load k with
      | none => rfl
      | some n =>
        obtain ⟨hn₁, hnot⟩ := hshrunk rfl k n hn
        exact absurd ((order.entries.mem_pairs s.journal k n).mpr hn₁) hnot
    refine ⟨hsettling, fun err => ⟨hsettling, fun herr => by cases herr⟩, ?_⟩
    exact (dropOrphans_safe hsettling hempty).mono (fun _ ht => ht) fun _ _ _ hpost _ => hpost

theorem Settling.recovers (h : Settling before target id s) (hrecovers : Recovers s s')
    (table : String) : SameRows (s'.tables table) (target table) := by
  induction hrecovers with
  | completed order hends =>
    obtain ⟨hsettling, hempty⟩ := (recoverTransactions_safe h order).returns hends
    exact hsettling.settled table (hempty rfl (id, table))
  | interrupted order hends _ ih => exact ih ((recoverTransactions_safe h order).ends hends)

theorem forgetSnapshot_completes (id table snapshot : String) («exists» : Bool) (s : Store Row) :
    ∃ t, (forgetSnapshot id table snapshot «exists»).Ends s (some none) t := by
  cases «exists» with
  | false => exact ⟨_, .exec rfl (.exec rfl .done)⟩
  | true => exact ⟨_, .exec rfl (.exec rfl (.exec rfl .done))⟩

theorem restoreSnapshot_completes (id : String) (htable : validClickHouseIdentifier table = true)
    (hsnapshot : validClickHouseIdentifier snapshot = true) (s : Store Row) :
    ∃ t, (restoreSnapshot id table snapshot).Ends s (some none) t := by
  unfold restoreSnapshot
  rw [if_neg (by rw [htable, hsnapshot]; decide)]
  by_cases hhas : s.snapshots.has snapshot = true
  · obtain ⟨rows, hrows⟩ := (GoMap.has_eq_true _ _).mp hhas
    obtain ⟨s₁, h₁⟩ : ∃ s₁, deleteRows id table s = some s₁ := ⟨_, rfl⟩
    have hrows₁ : s₁.snapshots.load snapshot = some rows := by
      cases h₁
      exact hrows
    obtain ⟨s₂, h₂⟩ : ∃ s₂, insertRows table snapshot s₁ = some s₂ := by
      rw [insertRows, hrows₁]
      exact ⟨_, rfl⟩
    obtain ⟨t, ht⟩ := forgetSnapshot_completes id table snapshot true s₂
    refine ⟨t, .query ?_⟩
    dsimp only
    rw [if_pos hhas]
    exact .exec h₁ (.exec h₂ ht)
  · obtain ⟨t, ht⟩ := forgetSnapshot_completes id table snapshot false s
    refine ⟨t, .query ?_⟩
    dsimp only
    rw [if_neg hhas]
    exact ht

theorem restoreEntries_completes {entries : List ((String × String) × String)}
    (hvalid : ∀ e ∈ entries, validClickHouseIdentifier e.1.2 = true ∧
      validClickHouseIdentifier e.2 = true) (s : Store Row) :
    ∃ t, (restoreEntries entries).Ends s (some none) t := by
  induction entries generalizing s with
  | nil => exact ⟨s, .done⟩
  | cons e entries ih =>
    obtain ⟨⟨i, table⟩, snapshot⟩ := e
    obtain ⟨htable, hsnapshot⟩ := hvalid _ (List.mem_cons_self ..)
    obtain ⟨s₁, h₁⟩ := restoreSnapshot_completes i htable hsnapshot s
    obtain ⟨t, ht⟩ := ih (fun e he => hvalid e (List.mem_cons_of_mem _ he)) s₁
    exact ⟨t, h₁.bind ht⟩

theorem dropOrphans_completes (active names : List String) (s : Store Row) :
    ∃ t, (dropOrphans active names).Ends s (some none) t := by
  induction names generalizing s with
  | nil => exact ⟨_, .query (.exec rfl .done)⟩
  | cons name names ih =>
    unfold dropOrphans
    by_cases hname : name ∉ active ∧ validClickHouseIdentifier name = true
    · obtain ⟨t, ht⟩ := ih { s with snapshots := s.snapshots.delete name }
      refine ⟨t, .query ?_⟩
      dsimp only
      rw [if_pos hname]
      exact .exec rfl ht
    · obtain ⟨t, ht⟩ := ih s
      refine ⟨t, .query ?_⟩
      dsimp only
      rw [if_neg hname]
      exact ht

theorem Settling.completes (h : Settling before target id s) : ∃ t, Recovers s t := by
  let order : RecoveryOrder Row := ⟨GoMap.RangeOrder.entries, GoMap.RangeOrder.entries⟩
  have hvalid : ∀ e ∈ order.entries.pairs s.journal, validClickHouseIdentifier e.1.2 = true ∧
      validClickHouseIdentifier e.2 = true := by
    rintro ⟨⟨i, table⟩, snapshot⟩ he
    have hjournal := (order.entries.mem_pairs s.journal _ _).mp he
    obtain rfl := h.owner i table snapshot hjournal
    exact h.valid table snapshot hjournal
  obtain ⟨s₁, h₁⟩ := restoreEntries_completes hvalid s
  obtain ⟨t, ht⟩ := dropOrphans_completes ((order.entries.pairs s.journal).map Prod.snd)
    ((order.orphans.keys s₁.snapshots).filter fun name => name.startsWith "_renop_tx_") s₁
  exact ⟨t, .completed order (.query (h₁.bind (.query ht)))⟩

end RenoP.Database.ClickHouse
