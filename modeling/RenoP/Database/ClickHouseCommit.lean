import RenoP.Database.ClickHouseBody

/-!
# Committing

`commit` takes the tables out of the journal one by one, so a crash between two of them leaves some
to be rolled back, and an error sends the ones already out through `restoreSnapshot` again.
-/

namespace RenoP.Database.ClickHouse

variable {Row : Type}

variable {before target : Tables Row} {tx : Tx} {s s' : Store Row}

theorem restoreTables_safe (id : String) (inv : Store Row → Prop)
    (ready : String × String → Store Row → Prop)
    (hvisit : ∀ e s, inv s → ready e s → (restoreSnapshot id e.1 e.2).Safe
      (fun s' => inv s' ∧ Apart id e.1 e.2 s s')
      (fun err s' => err = none → s'.journal.load (id, e.1) = none) s)
    (hkeep : ∀ (e f : String × String) (s s' : Store Row), e.1 ≠ f.1 → e.2 ≠ f.2 →
      Apart id f.1 f.2 s s' → ready e s → ready e s')
    {entries : List (String × String)} (htables : (entries.map Prod.fst).Nodup)
    (hsnapshots : (entries.map Prod.snd).Nodup) (hinv : inv s) (hready : ∀ e ∈ entries, ready e s) :
    (restoreTables id entries).Safe inv
      (fun errs s' => (errs = [] → ∀ e ∈ entries, s'.journal.load (id, e.1) = none) ∧
        ∀ i t, (i = id → t ∉ entries.map Prod.fst) →
          s'.journal.load (i, t) = s.journal.load (i, t)) s := by
  induction entries generalizing s with
  | nil => exact ⟨hinv, fun _ _ he => absurd he List.not_mem_nil, fun _ _ _ => rfl⟩
  | cons f entries ih =>
    rw [List.map_cons, List.nodup_cons] at htables hsnapshots
    have hfirst : (restoreSnapshot id f.1 f.2).Safe inv
        (fun err s' => Apart id f.1 f.2 s s' ∧
          (err = none → s'.journal.load (id, f.1) = none)) s :=
      (hvisit f s hinv (hready f (List.mem_cons_self ..))).mono (fun _ ht => ht.1)
        fun _ _ ht hpost => ⟨ht.2, hpost⟩
    refine hfirst.bind ?_
    rintro err s₁ hinv₁ ⟨hapart, hgone⟩
    have hready₁ : ∀ e ∈ entries, ready e s₁ := by
      intro e he
      have h1 : e.1 ∈ entries.map Prod.fst := List.mem_map.mpr ⟨e, he, rfl⟩
      have h2 : e.2 ∈ entries.map Prod.snd := List.mem_map.mpr ⟨e, he, rfl⟩
      have hne1 : e.1 ≠ f.1 := fun heq => htables.1 (heq ▸ h1)
      have hne2 : e.2 ≠ f.2 := fun heq => hsnapshots.1 (heq ▸ h2)
      exact hkeep e f s s₁ hne1 hne2 hapart (hready e (List.mem_cons_of_mem f he))
    refine (ih htables.2 hsnapshots.2 hinv₁ hready₁).bind ?_
    rintro errs s₂ hinv₂ ⟨hall, hothers⟩
    refine ⟨hinv₂, ?_, ?_⟩
    · intro hnil e he
      rw [List.append_eq_nil_iff, Option.toList_eq_nil_iff] at hnil
      rcases List.mem_cons.mp he with rfl | he
      · rw [hothers id e.1 fun _ => htables.1]
        exact hgone hnil.1
      · exact hall hnil.2 e he
    · intro i t ht
      have h1 : i = id → t ∉ entries.map Prod.fst := fun hi hmem =>
        ht hi (List.mem_cons_of_mem f.1 hmem)
      have h2 : ¬(i = id ∧ t = f.1) := by
        rintro ⟨hi, rfl⟩
        exact ht hi (List.mem_cons_self ..)
      rw [hothers i t h1, hapart.journal i t h2]

theorem Tracked.pairs_snapshots_nodup (h : Tracked before tx s)
    (order : GoMap.RangeOrder String String) :
    ((order.pairs tx.snapshots).map Prod.snd).Nodup := by
  apply List.Nodup.map_on
  · intro e he f hf heq
    have hf' := (order.mem_pairs tx.snapshots f.1 f.2).mp hf
    rw [← heq] at hf'
    exact Prod.ext (h.distinct e.1 f.1 e.2 ((order.mem_pairs tx.snapshots e.1 e.2).mp he) hf') heq
  · exact (order.pairs_nodup tx.snapshots).of_map

theorem Tracked.journal_empty (h : Tracked before tx s) {u : Store Row} (order : GoMap.RangeOrder String String)
    (hall : ∀ e ∈ order.pairs tx.snapshots, u.journal.load (tx.id, e.1) = none)
    (hothers : ∀ i t, (i = tx.id → t ∉ (order.pairs tx.snapshots).map Prod.fst) →
      u.journal.load (i, t) = s.journal.load (i, t)) (k : String × String) :
    u.journal.load k = none := by
  obtain ⟨i, t⟩ := k
  by_cases hit : i = tx.id ∧ t ∈ (order.pairs tx.snapshots).map Prod.fst
  · obtain ⟨rfl, hmem⟩ := hit
    obtain ⟨e, he, rfl⟩ := List.mem_map.mp hmem
    exact hall e he
  · rw [hothers i t fun hi hmem => hit ⟨hi, hmem⟩, h.journal]
    by_cases hi : i = tx.id
    · rw [if_pos hi]
      cases hload : tx.snapshots.load t with
      | none => rfl
      | some n =>
        have hmem := (order.mem_pairs tx.snapshots t n).mpr hload
        exact absurd ⟨hi, List.mem_map.mpr ⟨_, hmem, rfl⟩⟩ hit
    · rw [if_neg hi]

theorem Tracked.restoreSnapshots (h : Tracked before tx s)
    (order : GoMap.RangeOrder String String) :
    (tx.restoreSnapshots order).Safe (Settling before before tx.id)
      (fun errs s' => errs = [] → ∀ k, s'.journal.load k = none) s := by
  have hloop := restoreTables_safe (s := s) tx.id (Settling before before tx.id)
    (fun e s => s.journal.load (tx.id, e.1) = some e.2)
    (fun e s hs he => restoreSnapshot_settling hs he)
    (fun e f s s' hne _ hapart he => by
      rw [hapart.journal tx.id e.1 fun hit => hne hit.2]
      exact he)
    (order.pairs_nodup tx.snapshots) (h.pairs_snapshots_nodup order) h.settling
    (fun e he => (h.journal_own e.1).trans ((order.mem_pairs tx.snapshots e.1 e.2).mp he))
  refine hloop.mono (fun _ ht => ht) ?_
  rintro errs s' - ⟨hall, hothers⟩ hnil
  exact h.journal_empty order (hall hnil) hothers

def AllOrNothing (before after tables : Tables Row) : Prop :=
  (∀ table, SameRows (tables table) (before table)) ∨
    ∀ table, SameRows (tables table) (after table)

def Touched (tx : Tx) (s : Store Row) (table key : String) : Prop := (tx.id, table, key) ∈ s.keys

/-- At most one table has a snapshot, or at most one table differs from before and no table has
touched rows both before and now. -/
def CommitsWhole (before : Tables Row) (tx : Tx) (s : Store Row) : Prop :=
  tx.snapshots.size ≤ 1 ∨
    (∀ t u, ¬SameRows (s.tables t) (before t) → ¬SameRows (s.tables u) (before u) → t = u) ∧
    ∀ table snapshot, tx.snapshots.load table = some snapshot →
      OneSided (before table) (s.tables table) (Touched tx s table)

def Bound (before after : Tables Row) (id : String) (s : Store Row) : Prop :=
  ∃ target, AllOrNothing before after target ∧ Settling before target id s

variable {after : Tables Row}

theorem Bound.recovers {id : String} (h : Bound before after id s) (hrecovers : Recovers s s') :
    AllOrNothing before after s'.tables := by
  obtain ⟨target, hwhole, hsettling⟩ := h
  exact hwhole.imp (fun hw table => (hsettling.recovers hrecovers table).trans (hw table))
    fun hw table => (hsettling.recovers hrecovers table).trans (hw table)

theorem Bound.settled {id : String} (h : Bound before after id s)
    (hempty : ∀ k, s.journal.load k = none) : AllOrNothing before after s.tables := by
  obtain ⟨target, hwhole, hsettling⟩ := h
  exact hwhole.imp (fun hw table => (hsettling.settled table (hempty _)).trans (hw table))
    fun hw table => (hsettling.settled table (hempty _)).trans (hw table)

theorem Tracked.bound (h : Tracked before tx s) : Bound before after tx.id s :=
  ⟨before, Or.inl fun _ _ => rfl, h.settling⟩

theorem Tracked.restore_bound (h : Tracked before tx s)
    (order : GoMap.RangeOrder String String) (err : String) :
    ((tx.restoreSnapshots order).bind fun errs => .done (err :: errs)).Safe
      (Bound before after tx.id)
      (fun errs s' => errs.length ≤ 1 → ∀ k, s'.journal.load k = none) s := by
  have hbound {t : Store Row} (ht : Settling before before tx.id t) :
      Bound before after tx.id t := ⟨before, Or.inl fun _ _ => rfl, ht⟩
  have hrestore := (h.restoreSnapshots order).mono (fun _ => hbound) fun _ _ _ hpost => hpost
  refine hrestore.bind ?_
  intro errs s₁ hs₁ hpost
  refine ⟨hs₁, ?_⟩
  intro hlen
  apply hpost
  cases errs with
  | nil => rfl
  | cons e errs => exact absurd hlen (by rw [List.length_cons, List.length_cons]; omega)

theorem pairs_length {K V : Type} [DecidableEq K] (order : GoMap.RangeOrder K V) (m : GoMap K V) :
    (order.pairs m).length = m.size := by
  have hkeys := congrArg List.length (order.pairs_keys m)
  rw [List.length_map, (order.perm m).length_eq] at hkeys
  rw [hkeys]
  exact List.length_map ..

theorem commitTables_one (h : Tracked before tx s) (hsize : tx.snapshots.size ≤ 1)
    (committing restoring : GoMap.RangeOrder String String) :
    (tx.commitTables restoring (committing.pairs tx.snapshots)).Safe
      (Bound before s.tables tx.id)
      (fun errs s' => errs.length ≤ 1 → ∀ k, s'.journal.load k = none) s := by
  rw [← pairs_length committing] at hsize
  have hempty := h.journal_empty (u := s) committing
  have hnodup := h.pairs_snapshots_nodup committing
  have hmem := committing.mem_pairs tx.snapshots
  cases hpairs : committing.pairs tx.snapshots with
  | nil =>
    rw [hpairs] at hempty
    exact ⟨h.bound, fun _ => hempty (fun e he => by cases he) fun _ _ _ => rfl⟩
  | cons e rest =>
    obtain ⟨table, snapshot⟩ := e
    rw [hpairs, List.length_cons] at hsize
    obtain rfl : rest = [] := List.eq_nil_of_length_eq_zero (by omega)
    refine ⟨h.bound, fun err => h.restore_bound restoring err, ?_⟩
    intro s₁ h₁
    have hload : tx.snapshots.load table = some snapshot := by
      rw [← hmem, hpairs]
      exact List.mem_cons_self ..
    have hgone : s₁.journal.load (tx.id, table) = none := by
      cases h₁
      exact GoMap.load_delete_self ..
    have hapart₁ : Apart tx.id table snapshot s s₁ := deleteJournal_apart h₁
    have hempty₁ (k : String × String) : s₁.journal.load k = none := by
      apply h.journal_empty (u := s₁) committing
      · rw [hpairs]
        intro e he
        rw [List.mem_singleton.mp he]
        exact hgone
      · rw [hpairs]
        intro i t ht
        apply hapart₁.journal
        rintro ⟨hi, rfl⟩
        exact ht hi (List.mem_cons_self ..)
    have hone {t : Store Row} (htables : t.tables = s.tables)
        (hjournal : t.journal = s₁.journal) : Bound before s.tables tx.id t := by
      have hnone (k : String × String) : t.journal.load k = none := by
        rw [hjournal]
        exact hempty₁ k
      have hno {k : String × String} {n : String} (hn : t.journal.load k = some n) : False := by
        rw [hnone k] at hn
        cases hn
      refine ⟨s.tables, Or.inr fun _ _ => rfl, ?_⟩
      exact {
        owner := fun _ _ _ hn => (hno hn).elim
        covered := fun _ _ hn => (hno hn).elim
        back := fun _ _ hn => (hno hn).elim
        valid := fun _ _ hn => (hno hn).elim
        distinct := fun _ _ _ hn _ => (hno hn).elim
        settled := by
          intro t _
          rw [htables]
          exact fun _ => rfl }
    cases h₁
    refine ⟨hone rfl rfl, ?_, ?_⟩
    · intro err
      refine ⟨hone rfl rfl, fun err => ⟨hone rfl rfl, fun _ => hempty₁⟩, ?_⟩
      intro s₂ h₂
      cases h₂
      exact ⟨hone rfl rfl, fun _ => hempty₁⟩
    · intro s₂ h₂
      cases h₂
      refine ⟨hone rfl rfl, fun err => ⟨hone rfl rfl, fun _ => hempty₁⟩, ?_⟩
      intro s₃ h₃
      cases h₃
      exact ⟨hone rfl rfl, fun _ => hempty₁⟩

def Halfway (before after : Tables Row) (id : String) (s : Store Row) : Prop :=
  ∃ target, (∀ table, SameRows (target table) (before table) ∨
    SameRows (target table) (after table)) ∧ Settling before target id s

theorem Halfway.bound {id : String} (h : Halfway before after id s)
    (hone : ∀ t u, ¬SameRows (after t) (before t) → ¬SameRows (after u) (before u) → t = u) :
    Bound before after id s := by
  obtain ⟨target, hhalf, hsettling⟩ := h
  refine ⟨target, ?_, hsettling⟩
  by_cases hdiffers : ∃ d, ¬SameRows (after d) (before d)
  · obtain ⟨d, hd⟩ := hdiffers
    have hsame (t : String) (ht : t ≠ d) : SameRows (after t) (before t) := by
      by_contra hne
      exact ht (hone t d hne hd)
    rcases hhalf d with hd' | hd'
    · refine Or.inl fun t => ?_
      by_cases ht : t = d
      · rw [ht]
        exact hd'
      · exact (hhalf t).elim (fun h => h) fun h => h.trans (hsame t ht)
    · refine Or.inr fun t => ?_
      by_cases ht : t = d
      · rw [ht]
        exact hd'
      · exact (hhalf t).elim (fun h => h.trans (hsame t ht).symm) fun h => h
  · refine Or.inl fun t => ?_
    have hsame : SameRows (after t) (before t) := by
      by_contra hne
      exact hdiffers ⟨t, hne⟩
    exact (hhalf t).elim (fun h => h) fun h => h.trans hsame

def Ready (before after : Tables Row) (tx : Tx) (touched : String → String → Prop)
    (e : String × String) (s : Store Row) : Prop :=
  s.journal.load (tx.id, e.1) = some e.2 ∨
    Loose (before e.1) (after e.1) (touched e.1) s tx.id e.1 e.2

theorem Ready.apart {touched : String → String → Prop} {e f : String × String}
    (h : Ready before after tx touched e s) (hapart : Apart tx.id f.1 f.2 s s')
    (ht : e.1 ≠ f.1) (hn : e.2 ≠ f.2) : Ready before after tx touched e s' := by
  refine h.imp ?_ fun hloose => hloose.apart hapart ht hn
  intro hjournal
  rw [hapart.journal tx.id e.1 fun hit => ht hit.2]
  exact hjournal

def Own (tx : Tx) (s : Store Row) : Prop :=
  ∀ k n, s.journal.load k = some n → k.1 = tx.id ∧ tx.snapshots.load k.2 = some n

theorem Own.apart {e : String × String} (h : Own tx s) (hapart : Apart tx.id e.1 e.2 s s')
    (hown : ∀ n, s'.journal.load (tx.id, e.1) = some n → s.journal.load (tx.id, e.1) = some n) :
    Own tx s' := by
  intro k n hn
  obtain ⟨i, t⟩ := k
  exact h (i, t) n (hapart.journal_le hown hn)

theorem Halfway.loose {touched : String → Prop} {e : String × String}
    (h : Halfway before after tx.id s) (hown : Own tx s)
    (hdistinct : ∀ t u n, tx.snapshots.load t = some n → tx.snapshots.load u = some n → t = u)
    (he : tx.snapshots.load e.1 = some e.2) (hapart : Apart tx.id e.1 e.2 s s')
    (hloose : Loose (before e.1) (after e.1) touched s' tx.id e.1 e.2) :
    Halfway before after tx.id s' ∧ Own tx s' := by
  obtain ⟨target, hhalf, hsettling⟩ := h
  have hother : ∀ t n, t ≠ e.1 → s.journal.load (tx.id, t) = some n → n ≠ e.2 := by
    intro t n ht hn heq
    obtain ⟨-, hload⟩ := hown (tx.id, t) n hn
    rw [heq] at hload
    exact ht (hdistinct t e.1 e.2 hload he)
  refine ⟨⟨_, ?_, hsettling.release hapart hloose.journal hother⟩, ?_⟩
  · intro t
    by_cases ht : t = e.1
    · rw [ht, Function.update_self]
      exact hloose.rows
    · rw [Function.update_of_ne ht]
      exact hhalf t
  · apply hown.apart hapart
    intro n hn
    rw [hloose.journal] at hn
    cases hn

section Several
variable {touched : String → String → Prop}
variable (hdistinct : ∀ t u n, tx.snapshots.load t = some n → tx.snapshots.load u = some n → t = u)
variable (hagree : ∀ t n, tx.snapshots.load t = some n → ∀ key, ¬touched t key →
  (after t).load key = (before t).load key)
variable (hside : ∀ t n, tx.snapshots.load t = some n →
  OneSided (before t) (after t) (touched t))
include hdistinct hagree hside

theorem restoreSnapshot_halfway {e : String × String} (h : Halfway before after tx.id s)
    (hown : Own tx s) (he : tx.snapshots.load e.1 = some e.2)
    (hready : Ready before after tx touched e s) :
    (restoreSnapshot tx.id e.1 e.2).Safe
      (fun s' => (Halfway before after tx.id s' ∧ Own tx s') ∧ Apart tx.id e.1 e.2 s s')
      (fun err s' => err = none → s'.journal.load (tx.id, e.1) = none) s := by
  rcases hready with hjournal | hloose
  · obtain ⟨target, hhalf, hsettling⟩ := h
    have hcovered := hsettling.covered e.1 e.2 hjournal
    refine (restoreSnapshot_restoring hjournal hcovered).mono ?_ fun _ _ _ hpost => hpost
    rintro s' ⟨hapart, hrestoring⟩
    refine ⟨⟨⟨target, hhalf, hsettling.restoring hjournal hapart hrestoring⟩, ?_⟩, hapart⟩
    apply hown.apart hapart
    intro n hn
    rcases hrestoring with ⟨hsome, -⟩ | ⟨hnone, -⟩
    · rw [hjournal, ← hsome]
      exact hn
    · rw [hnone] at hn
      cases hn
  · refine (restoreSnapshot_loose (hagree e.1 e.2 he) (hside e.1 e.2 he) hloose).mono ?_ ?_
    · rintro s' ⟨hapart, hloose'⟩
      exact ⟨h.loose hown hdistinct he hapart hloose', hapart⟩
    · rintro err s' ⟨-, hloose'⟩ - -
      exact hloose'.journal

theorem restoreSnapshots_halfway (order : GoMap.RangeOrder String String)
    (hnodup : ((order.pairs tx.snapshots).map Prod.snd).Nodup)
    (h : Halfway before after tx.id s) (hown : Own tx s)
    (hready : ∀ t n, tx.snapshots.load t = some n → Ready before after tx touched (t, n) s) :
    (tx.restoreSnapshots order).Safe (Halfway before after tx.id)
      (fun errs s' => errs = [] → ∀ k, s'.journal.load k = none) s := by
  have hloop := restoreTables_safe (s := s) tx.id
    (fun s => Halfway before after tx.id s ∧ Own tx s)
    (fun e s => tx.snapshots.load e.1 = some e.2 ∧ Ready before after tx touched e s)
    (fun e s hs he => restoreSnapshot_halfway hdistinct hagree hside hs.1 hs.2 he.1 he.2)
    (fun e f s s' ht hn hapart he => ⟨he.1, he.2.apart hapart ht hn⟩)
    (order.pairs_nodup tx.snapshots) hnodup ⟨h, hown⟩
    (fun e he => by
      have hload := (order.mem_pairs tx.snapshots e.1 e.2).mp he
      exact ⟨hload, hready e.1 e.2 hload⟩)
  refine hloop.mono (fun _ ht => ht.1) ?_
  rintro errs s' ⟨-, hown'⟩ ⟨hall, -⟩ hnil k
  cases hn : s'.journal.load k with
  | none => rfl
  | some n =>
    obtain ⟨hid, hload⟩ := hown' k n hn
    obtain ⟨i, t⟩ := k
    obtain rfl : i = tx.id := hid
    have hgone := hall hnil (t, n) ((order.mem_pairs tx.snapshots t n).mpr hload)
    rw [hgone] at hn
    cases hn

/-- What the loop of `commit` finds when it comes to the entries that are left: the rows of after,
the entries left still in the journal, the others out of it. -/
structure Committing (before after : Tables Row) (tx : Tx) (touched : String → String → Prop)
    (entries : List (String × String)) (s : Store Row) : Prop where
  halfway : Halfway before after tx.id s
  own : Own tx s
  tables : s.tables = after
  ready : ∀ t n, tx.snapshots.load t = some n → Ready before after tx touched (t, n) s
  left : ∀ e ∈ entries, tx.snapshots.load e.1 = some e.2 ∧ s.journal.load (tx.id, e.1) = some e.2 ∧
    ∀ key, (tx.id, e.1, key) ∈ s.keys ↔ touched e.1 key
  out : ∀ k n, s.journal.load k = some n → k.2 ∈ entries.map Prod.fst

omit hagree hside in
theorem Committing.step {all entries : List (String × String)} {e : String × String}
    (h : Committing before after tx touched all s)
    (hsub : ∀ f ∈ entries, f ∈ all ∧ f.1 ≠ e.1)
    (hall : ∀ t ∈ all.map Prod.fst, t = e.1 ∨ t ∈ entries.map Prod.fst)
    (he : tx.snapshots.load e.1 = some e.2) (hapart : Apart tx.id e.1 e.2 s s')
    (hloose : Loose (before e.1) (after e.1) (touched e.1) s' tx.id e.1 e.2)
    (hsame : s'.tables = s.tables) : Committing before after tx touched entries s' := by
  obtain ⟨hhalfway, hown⟩ := h.halfway.loose h.own hdistinct he hapart hloose
  refine ⟨hhalfway, hown, hsame.trans h.tables, ?_, ?_, ?_⟩
  · intro t n hn
    by_cases ht : t = e.1
    · subst ht
      rw [he] at hn
      cases hn
      exact Or.inr hloose
    · have hne : n ≠ e.2 := by
        intro heq
        rw [heq] at hn
        exact ht (hdistinct t e.1 e.2 hn he)
      exact (h.ready t n hn).apart hapart ht hne
  · intro f hf
    obtain ⟨hmem, hne⟩ := hsub f hf
    obtain ⟨hload, hjournal, hkeys⟩ := h.left f hmem
    refine ⟨hload, ?_, fun key => (hapart.keys f.1 key hne).trans (hkeys key)⟩
    rw [hapart.journal tx.id f.1 fun hit => hne hit.2]
    exact hjournal
  · intro k n hn
    obtain ⟨i, t⟩ := k
    have hno : ∀ m, s'.journal.load (tx.id, e.1) = some m →
        s.journal.load (tx.id, e.1) = some m := by
      intro m hm
      rw [hloose.journal] at hm
      cases hm
    rcases hall t (h.out (i, t) n (hapart.journal_le hno hn)) with ht | ht
    · obtain ⟨hi, -⟩ := hown (i, t) n hn
      replace hi : i = tx.id := hi
      rw [ht, hi, hloose.journal] at hn
      cases hn
    · exact ht

omit hdistinct hagree hside in
theorem Committing.loose {table snapshot : String} {entries : List (String × String)}
    (h : Committing before after tx touched ((table, snapshot) :: entries) s)
    (hs' : deleteJournal tx.id table s = some s') :
    Loose (before table) (after table) (touched table) s' tx.id table snapshot := by
  obtain ⟨-, hjournal, hkeys⟩ := h.left _ (List.mem_cons_self ..)
  obtain ⟨target, -, hsettling⟩ := h.halfway
  obtain ⟨rows, hrows, hsaved⟩ := (hsettling.covered table snapshot hjournal).saved
  have hafter := h.tables
  cases hs'
  refine ⟨GoMap.load_delete_self .., Or.inr ?_, ?_, Or.inl hkeys⟩
  · show SameRows (s.tables table) (after table)
    rw [hafter]
    exact fun _ => rfl
  · intro rows' hrows'
    replace hrows' : s.snapshots.load snapshot = some rows' := hrows'
    rw [hrows] at hrows'
    cases hrows'
    exact ⟨hsaved.sound, fun key row hkey => hsaved.complete key row ((hkeys key).mpr hkey)⟩

theorem commitTables_halfway (restoring : GoMap.RangeOrder String String)
    (hnodup : ((restoring.pairs tx.snapshots).map Prod.snd).Nodup)
    {entries : List (String × String)} (htables : (entries.map Prod.fst).Nodup)
    (h : Committing before after tx touched entries s) :
    (tx.commitTables restoring entries).Safe (Halfway before after tx.id)
      (fun errs s' => errs.length ≤ 1 → ∀ k, s'.journal.load k = none) s := by
  induction entries generalizing s with
  | nil =>
    refine ⟨h.halfway, fun _ k => ?_⟩
    cases hn : s.journal.load k with
    | none => rfl
    | some n => exact absurd (h.out k n hn) List.not_mem_nil
  | cons e entries ih =>
    obtain ⟨table, snapshot⟩ := e
    rw [List.map_cons, List.nodup_cons] at htables
    refine ⟨h.halfway, ?_, ?_⟩
    · intro err
      refine (restoreSnapshots_halfway hdistinct hagree hside restoring hnodup h.halfway h.own
        h.ready).bind ?_
      intro errs s₁ hhalfway hpost
      refine ⟨hhalfway, ?_⟩
      intro hlen
      apply hpost
      cases errs with
      | nil => rfl
      | cons e errs => exact absurd hlen (by rw [List.length_cons, List.length_cons]; omega)
    · intro s₁ h₁
      have hload : tx.snapshots.load table = some snapshot :=
        (h.left _ (List.mem_cons_self ..)).1
      have hother : ∀ f ∈ entries, f.1 ≠ table := fun f hf heq =>
        htables.1 (List.mem_map.mpr ⟨f, hf, heq⟩)
      have hloose₁ := h.loose h₁
      have hsame₁ : s₁.tables = s.tables := by
        cases h₁
        rfl
      have hcommitting₁ : Committing before after tx touched entries s₁ :=
        h.step hdistinct (e := (table, snapshot))
          (fun f hf => ⟨List.mem_cons_of_mem _ hf, hother f hf⟩) (fun t ht => List.mem_cons.mp ht)
          hload (deleteJournal_apart h₁) hloose₁ hsame₁
      -- the rest of the round only touches a table that is out of the journal
      have hround {s₂ s₃ : Store Row} (h₂ : Committing before after tx touched entries s₂)
          (hapart : Apart tx.id table snapshot s₂ s₃)
          (hloose : Loose (before table) (after table) (touched table) s₃ tx.id table snapshot)
          (hsame : s₃.tables = s₂.tables) : Committing before after tx touched entries s₃ :=
        h₂.step hdistinct (e := (table, snapshot)) (fun f hf => ⟨hf, hother f hf⟩)
          (fun t ht => Or.inr ht) hload hapart hloose hsame
      have hdrop {s₂ : Store Row} (h₂ : Committing before after tx touched entries s₂)
          (hloose₂ : Loose (before table) (after table) (touched table) s₂ tx.id table snapshot) :
          (Program.exec (dropSnapshot snapshot) fun _ => tx.commitTables restoring entries).Safe
            (Halfway before after tx.id)
            (fun errs s' => errs.length ≤ 1 → ∀ k, s'.journal.load k = none) s₂ := by
        refine ⟨h₂.halfway, fun err => ih htables.2 h₂, ?_⟩
        intro s₃ h₃
        have hsame : s₃.tables = s₂.tables := by
          cases h₃
          rfl
        exact ih htables.2 (hround h₂ (dropSnapshot_apart h₃) (hloose₂.dropSnapshot h₃) hsame)
      refine ⟨hcommitting₁.halfway, fun err => hdrop hcommitting₁ hloose₁, ?_⟩
      intro s₂ h₂
      have hloose₂ := hloose₁.deleteKeys h₂
      have hsame : s₂.tables = s₁.tables := by
        cases h₂
        rfl
      exact hdrop (hround hcommitting₁ (deleteKeys_apart h₂) hloose₂ hsame) hloose₂

end Several

end RenoP.Database.ClickHouse
