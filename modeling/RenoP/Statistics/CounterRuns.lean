import RenoP.Lib.Runs
import RenoP.Statistics.Counter

/-!
# Runs of a download counter

Calls of `Record`, `Flush` and `ResetRepository` in any order of their sections. `flushMu` lets one
flush or reset run at a time.
-/

namespace RenoP.Statistics

open TrimSpace (Bytes trimSpace)
open Placement (posted posted_cons posted_append lying move)
open Ledger (balance total)

/-- Where the flush that holds `flushMu` stands. -/
inductive FlushStage where
  | idle
  | persisting (batch : Values)
  | refused (batch : Values)
  /-- The lock is released and the count that was dropped is not added yet. -/
  | dropping (dropped : ℤ)
  | reporting

def FlushStage.batch : FlushStage → Values
  | .persisting batch | .refused batch => batch
  | _ => ∅

def FlushStage.toAdd : FlushStage → ℤ
  | .dropping dropped => dropped
  | _ => 0

@[simp] theorem batch_idle : FlushStage.idle.batch = ∅ := rfl

@[simp] theorem batch_persisting (batch : Values) : (FlushStage.persisting batch).batch = batch :=
  rfl

@[simp] theorem batch_refused (batch : Values) : (FlushStage.refused batch).batch = batch := rfl

@[simp] theorem batch_dropping (dropped : ℤ) : (FlushStage.dropping dropped).batch = ∅ := rfl

@[simp] theorem batch_reporting : FlushStage.reporting.batch = ∅ := rfl

@[simp] theorem toAdd_dropping (dropped : ℤ) : (FlushStage.dropping dropped).toAdd = dropped :=
  rfl

structure Counter where
  pending : Values := ∅
  flush : FlushStage := .idle
  dropped : ℤ := 0
  /-- What calls of `Record` have dropped under the lock and still add to `dropped`. -/
  adding : List ℤ := []
  rows : Values := ∅
  recorded : List (DownloadKey × DownloadValue) := []
  removed : List (DownloadKey × DownloadValue) := []
  reported : ℤ := 0

inductive ResetOutcome where
  | unavailable
  | failed
  | done

inductive Section where
  | record (event : DownloadStatisticDelta) (now : ℤ)
  | addDropped (i : ℕ)
  | takeBatch
  /-- The store applies the batch, or is unavailable or refuses it. -/
  | persist (applied : Bool)
  | requeue
  | addRequeueDropped
  | report
  | resetRepository (repository : Bytes) (outcome : ResetOutcome)

section Steps

-- `strings.ToLower`, the limit of keys, and the order in which ranges visit their maps
variable (toLower : Bytes → Bytes) (maxPendingKeys : ℕ)
  (order : GoMap.RangeOrder DownloadKey DownloadValue)

def Counter.record (c : Counter) (event : DownloadStatisticDelta) (now : ℤ) : Counter :=
  match normalizeDownloadEvent toLower event now with
  | none => c
  | some (key, value) =>
    let recorded := c.recorded ++ [(key, value)]
    match recordPending maxPendingKeys c.pending key value with
    | none => { c with adding := value.count :: c.adding, recorded }
    | some pending => { c with pending, recorded }

def Counter.addDropped (c : Counter) (i : ℕ) : Counter :=
  match c.adding[i]? with
  | none => c
  | some dropped => { c with adding := c.adding.eraseIdx i, dropped := c.dropped + dropped }

def Counter.takeBatch (c : Counter) : Counter :=
  match c.flush with
  | .idle =>
    { c with
      pending := ∅
      flush := if c.pending.size = 0 then .reporting else .persisting c.pending }
  | _ => c

def Counter.persist (c : Counter) (applied : Bool) : Counter :=
  match c.flush with
  | .persisting batch =>
    if applied then
      { c with
        rows := batchIncrementDownloadStatistics c.rows (downloadEvents order batch)
        flush := .reporting }
    else { c with flush := .refused batch }
  | _ => c

def Counter.requeue (c : Counter) : Counter :=
  match c.flush with
  | .refused batch =>
    let (pending, dropped) := Statistics.requeue maxPendingKeys order c.pending batch
    { c with pending, flush := if 0 < dropped then .dropping dropped else .reporting }
  | _ => c

def Counter.addRequeueDropped (c : Counter) : Counter :=
  match c.flush with
  | .dropping dropped => { c with dropped := c.dropped + dropped, flush := .reporting }
  | _ => c

def Counter.report (c : Counter) : Counter :=
  match c.flush with
  | .reporting =>
    { c with
      dropped := 0
      reported := if 0 < c.dropped then c.reported + c.dropped else c.reported
      flush := .idle }
  | _ => c

def Counter.resetRepository (c : Counter) (repository : Bytes) (outcome : ResetOutcome) :
    Counter :=
  let repository := toLower (trimSpace repository)
  match c.flush with
  | .idle =>
    if repository = [] then c
    else
      let (pending, removed) := removeRepository c.pending repository
      match outcome with
      | .unavailable => c
      | .failed => { c with pending := mergeAll pending (order.pairs removed) }
      | .done =>
        { c with
          pending
          rows := resetDownloadStatistics c.rows repository
          removed := c.removed ++ order.pairs removed ++
            order.pairs (c.rows.deleteWhere fun key _ => decide (key.repository ≠ repository)) }
  | _ => c

def Counter.next (c : Counter) : Section → Counter
  | .record event now => c.record toLower maxPendingKeys event now
  | .addDropped i => c.addDropped i
  | .takeBatch => c.takeBatch
  | .persist applied => c.persist order applied
  | .requeue => c.requeue maxPendingKeys order
  | .addRequeueDropped => c.addRequeueDropped
  | .report => c.report
  | .resetRepository repository outcome => c.resetRepository toLower order repository outcome

def Counter.run (sections : List Section) : Counter :=
  sections.foldl (Counter.next toLower maxPendingKeys order) {}

end Steps

inductive Place where
  | stored
  | pending
  | taken
  | removed
deriving DecidableEq, Repr

abbrev Fate := Option Place

def fates : List Fate := [some .stored, some .pending, some .taken, some .removed, none]

theorem mem_fates : ∀ fate : Fate, fate ∈ fates := by
  intro fate
  rcases fate with - | place
  · decide
  · cases place <;> decide

theorem fates_nodup : fates.Nodup := by decide

abbrev Traces := List ((DownloadKey × DownloadValue) × Fate)

def fated (es : Traces) (fate : Fate) (field : Field) (key : DownloadKey) : ℤ :=
  balance (lying (·.get field) fate es) key

def lostCount (es : Traces) : ℤ := total (lying (·.get .count) none es)

def Counter.held (c : Counter) (place : Place) (field : Field) (key : DownloadKey) : ℤ :=
  match place with
  | .stored => c.rows.amount field key
  | .pending => c.pending.amount field key
  | .taken => c.flush.batch.amount field key
  | .removed => balance (posted (·.get field) c.removed) key

structure Placed (c : Counter) (es : Traces) : Prop where
  recorded : es.map Prod.fst = c.recorded
  held : ∀ place field key, c.held place field key = fated es (some place) field key

structure Traced (maxPendingKeys : ℕ) (c : Counter) (es : Traces) : Prop extends Placed c es where
  lost : lostCount es = c.reported + c.dropped + c.adding.sum + c.flush.toAdd
  positive : ∀ e ∈ c.recorded, 0 < e.2.count ∧ 0 ≤ e.2.bytes
  dropped_nonneg : 0 ≤ c.dropped
  adding_nonneg : ∀ dropped ∈ c.adding, 0 ≤ dropped
  toAdd_nonneg : 0 ≤ c.flush.toAdd
  size : c.pending.size ≤ maxPendingKeys

variable {toLower : Bytes → Bytes} {maxPendingKeys : ℕ}
  {order : GoMap.RangeOrder DownloadKey DownloadValue} {c c' : Counter} {es : Traces}

theorem get_nonneg {value : DownloadValue} (h : 0 < value.count ∧ 0 ≤ value.bytes)
    (field : Field) : 0 ≤ value.get field := by
  cases field with
  | count => exact Int.le_of_lt h.1
  | bytes => exact h.2

theorem fated_nonneg (h : ∀ e ∈ es.map Prod.fst, 0 < e.2.count ∧ 0 ≤ e.2.bytes) (fate : Fate)
    (field : Field) (key : DownloadKey) : 0 ≤ fated es fate field key := by
  apply Ledger.balance_nonneg
  intro e he
  obtain ⟨e', he', rfl⟩ := List.mem_map.mp he
  dsimp only
  split_ifs
  · exact get_nonneg (h e'.1 (List.mem_map_of_mem he')) field
  · exact Int.le_refl 0

@[simp] theorem amount_empty (field : Field) (key : DownloadKey) :
    Values.amount ∅ field key = 0 := rfl

theorem fated_append (key : DownloadKey) (value : DownloadValue) (fate fate' : Fate)
    (field : Field) (key' : DownloadKey) :
    fated (es ++ [((key, value), fate)]) fate' field key' =
      fated es fate' field key' + if fate = fate' ∧ key = key' then value.get field else 0 := by
  unfold fated lying
  rw [List.map_append, Ledger.balance_append, List.map_singleton, Ledger.balance_cons,
    Ledger.balance_nil, add_zero]
  split_ifs <;> grind

theorem lostCount_append (key : DownloadKey) (value : DownloadValue) (fate : Fate) :
    lostCount (es ++ [((key, value), fate)]) =
      lostCount es + if fate = none then value.count else 0 := by
  unfold lostCount lying
  rw [List.map_append, Ledger.total_append, List.map_singleton, Ledger.total_cons,
    Ledger.total_nil, add_zero]
  rfl

theorem fated_move {src dst : Fate} (hne : src ≠ dst) (q : DownloadKey → Bool) (fate : Fate)
    (field : Field) (key : DownloadKey) :
    fated (move src dst q es) fate field key =
      fated es fate field key -
        (if fate = src ∧ q key = true then fated es src field key else 0) +
        (if fate = dst ∧ q key = true then fated es src field key else 0) := by
  unfold fated
  exact Placement.balance_move hne _ q fate key

theorem lostCount_move {src dst : Place} (q : DownloadKey → Bool) :
    lostCount (move (some src) (some dst) q es) = lostCount es := by
  unfold lostCount
  exact Placement.total_move_other (Option.some_ne_none src).symm (Option.some_ne_none dst).symm _ q

theorem lostCount_lose (src : Place) (key : DownloadKey) :
    lostCount (move (some src) none (fun key' => decide (key' = key)) es) =
      lostCount es + fated es (some src) .count key := by
  unfold lostCount
  exact Placement.total_move (Option.some_ne_none src) _ key

theorem Placed.post (h : Placed c es) {key : DownloadKey} {value : DownloadValue} (fate : Fate)
    (hrecorded : c'.recorded = c.recorded ++ [(key, value)])
    (hheld : ∀ place field key', c'.held place field key' = c.held place field key' +
      if fate = some place ∧ key = key' then value.get field else 0) :
    Placed c' (es ++ [((key, value), fate)]) where
  recorded := by
    rw [List.map_append, h.recorded, hrecorded]
    rfl
  held := by
    intro place field key'
    rw [hheld, h.held, fated_append]

theorem Placed.move (h : Placed c es) {src : Place} {dst : Fate} (hne : some src ≠ dst)
    (q : DownloadKey → Bool) (hrecorded : c'.recorded = c.recorded)
    (hheld : ∀ place field key, c'.held place field key = c.held place field key -
      (if place = src ∧ q key = true then c.held src field key else 0) +
      (if some place = dst ∧ q key = true then c.held src field key else 0)) :
    Placed c' (move (some src) dst q es) where
  recorded := by rw [Placement.items_move, h.recorded, hrecorded]
  held := by
    intro place field key
    rw [hheld, h.held, h.held, fated_move hne]
    simp only [Option.some.injEq]

theorem Placed.same (h : Placed c es) (hrecorded : c'.recorded = c.recorded)
    (hheld : ∀ place field key, c'.held place field key = c.held place field key) :
    Placed c' es where
  recorded := h.recorded.trans hrecorded.symm
  held := by
    intro place field key
    rw [hheld, h.held]

theorem traced_record (h : Traced maxPendingKeys c es) (event : DownloadStatisticDelta) (now : ℤ) :
    ∃ es, Traced maxPendingKeys (c.record toLower maxPendingKeys event now) es := by
  unfold Counter.record
  cases hevent : normalizeDownloadEvent toLower event now with
  | none => exact ⟨es, h⟩
  | some entry =>
    obtain ⟨key, value⟩ := entry
    have hpos := normalizeDownloadEvent_pos toLower hevent
    have hrecorded : ∀ e ∈ c.recorded ++ [(key, value)], 0 < e.2.count ∧ 0 ≤ e.2.bytes := by
      intro e he
      rcases List.mem_append.mp he with he | he
      · exact h.positive e he
      · rw [List.mem_singleton.mp he]
        exact hpos
    dsimp only
    rcases recordPending_cases maxPendingKeys c.pending key value with hfull | ⟨hmerged, hsize⟩
    · rw [hfull]
      refine ⟨es ++ [((key, value), none)], ?_, ?_, hrecorded, h.dropped_nonneg, ?_,
        h.toAdd_nonneg, h.size⟩
      · apply h.toPlaced.post none rfl
        intro place field key'
        cases place <;> exact (add_zero _).symm
      · rw [lostCount_append, if_pos rfl, h.lost, List.sum_cons]
        dsimp only
        omega
      · intro dropped hdropped
        rcases List.mem_cons.mp hdropped with heq | hmem
        · rw [heq]
          exact Int.le_of_lt hpos.1
        · exact h.adding_nonneg dropped hmem
    · rw [hmerged]
      refine ⟨es ++ [((key, value), some .pending)], ?_, ?_, hrecorded, h.dropped_nonneg,
        h.adding_nonneg, h.toAdd_nonneg, hsize h.size⟩
      · apply h.toPlaced.post (some .pending) rfl
        intro place field key'
        cases place with
        | pending =>
          simp only [Counter.held, amount_merge, true_and, eq_comm]
        | stored => simp [Counter.held]
        | taken => simp [Counter.held]
        | removed => simp [Counter.held]
      · rw [lostCount_append, if_neg (Option.some_ne_none _), add_zero]
        exact h.lost

theorem traced_addDropped (h : Traced maxPendingKeys c es) (i : ℕ) :
    Traced maxPendingKeys (c.addDropped i) es := by
  unfold Counter.addDropped
  cases hi : c.adding[i]? with
  | none => exact h
  | some dropped =>
    obtain ⟨hlt, hget⟩ := List.getElem?_eq_some_iff.mp hi
    have hsum : dropped + (c.adding.eraseIdx i).sum = c.adding.sum := by
      have hperm := (List.getElem_cons_eraseIdx_perm hlt).sum_eq
      rw [List.sum_cons, hget] at hperm
      exact hperm
    have hdropped := h.adding_nonneg dropped (hget ▸ List.getElem_mem hlt)
    have hlost := h.lost
    refine ⟨?_, ?_, h.positive, ?_, ?_, h.toAdd_nonneg, h.size⟩
    · refine h.toPlaced.same rfl fun place field key => ?_
      cases place <;> rfl
    · dsimp only
      omega
    · exact Int.add_nonneg h.dropped_nonneg hdropped
    · intro d hd
      exact h.adding_nonneg d (List.mem_of_mem_eraseIdx hd)

theorem traced_takeBatch (h : Traced maxPendingKeys c es) :
    ∃ es, Traced maxPendingKeys c.takeBatch es := by
  unfold Counter.takeBatch
  cases hflush : c.flush with
  | idle =>
    dsimp only
    generalize hstage : (if c.pending.size = 0 then FlushStage.reporting
      else .persisting c.pending) = stage
    have hbatch : stage.batch = c.pending ∧ stage.toAdd = 0 := by
      rw [← hstage]
      split_ifs with hsize
      · have hempty : c.pending = ∅ := AList.ext (List.length_eq_zero_iff.mp hsize)
        exact ⟨hempty.symm, rfl⟩
      · exact ⟨rfl, rfl⟩
    have hlost := h.lost
    rw [hflush] at hlost
    refine ⟨move (some .pending) (some .taken) (fun _ => true) es, ?_, ?_, h.positive,
      h.dropped_nonneg, h.adding_nonneg, ?_, Nat.zero_le _⟩
    · refine h.toPlaced.move (by decide) _ rfl fun place field key => ?_
      cases place with
      | stored => simp [Counter.held]
      | pending => simp [Counter.held]
      | taken => simp [Counter.held, hflush, hbatch.1]
      | removed => simp [Counter.held]
    · rw [lostCount_move, hlost, hbatch.2]
      rfl
    · rw [hbatch.2]
  | persisting batch => exact ⟨es, h⟩
  | refused batch => exact ⟨es, h⟩
  | dropping dropped => exact ⟨es, h⟩
  | reporting => exact ⟨es, h⟩

theorem traced_persist (h : Traced maxPendingKeys c es) (applied : Bool) :
    ∃ es, Traced maxPendingKeys (c.persist order applied) es := by
  unfold Counter.persist
  cases hflush : c.flush with
  | persisting batch =>
    have hlost := h.lost
    rw [hflush] at hlost
    cases applied with
    | true =>
      refine ⟨move (some .taken) (some .stored) (fun _ => true) es, ?_, ?_, h.positive,
        h.dropped_nonneg, h.adding_nonneg, Int.le_refl 0, h.size⟩
      · refine h.toPlaced.move (by decide) _ rfl fun place field key => ?_
        cases place with
        | stored => simp [Counter.held, hflush, amount_batchIncrement]
        | pending => simp [Counter.held]
        | taken => simp [Counter.held, hflush]
        | removed => simp [Counter.held]
      · rw [lostCount_move, hlost]
        rfl
    | false =>
      refine ⟨es, ?_, hlost, h.positive, h.dropped_nonneg, h.adding_nonneg, Int.le_refl 0, h.size⟩
      refine h.toPlaced.same rfl fun place field key => ?_
      cases place <;> simp [Counter.held, hflush]
  | idle => exact ⟨es, h⟩
  | refused batch => exact ⟨es, h⟩
  | dropping dropped => exact ⟨es, h⟩
  | reporting => exact ⟨es, h⟩

theorem traced_addRequeueDropped (h : Traced maxPendingKeys c es) :
    Traced maxPendingKeys c.addRequeueDropped es := by
  unfold Counter.addRequeueDropped
  cases hflush : c.flush with
  | dropping dropped =>
    have hlost := h.lost
    have hnonneg := h.toAdd_nonneg
    rw [hflush, toAdd_dropping] at hlost hnonneg
    refine ⟨?_, ?_, h.positive, ?_, h.adding_nonneg, Int.le_refl 0, h.size⟩
    · refine h.toPlaced.same rfl fun place field key => ?_
      cases place <;> simp [Counter.held, hflush]
    · rw [hlost]
      simp only [FlushStage.toAdd]
      omega
    · exact Int.add_nonneg h.dropped_nonneg hnonneg
  | idle => exact h
  | persisting batch => exact h
  | refused batch => exact h
  | reporting => exact h

theorem traced_report (h : Traced maxPendingKeys c es) : Traced maxPendingKeys c.report es := by
  unfold Counter.report
  cases hflush : c.flush with
  | reporting =>
    have hlost := h.lost
    have hnonneg := h.dropped_nonneg
    rw [hflush] at hlost
    refine ⟨?_, ?_, h.positive, Int.le_refl 0, h.adding_nonneg, Int.le_refl 0, h.size⟩
    · refine h.toPlaced.same rfl fun place field key => ?_
      cases place <;> simp [Counter.held, hflush]
    · rw [hlost]
      simp only [FlushStage.toAdd]
      split_ifs <;> omega
  | idle => exact h
  | persisting batch => exact h
  | refused batch => exact h
  | dropping dropped => exact h

structure Returning (maxPendingKeys : ℕ) (c : Counter) (es₀ : Traces) (s : Values × ℤ)
    (left : List (DownloadKey × DownloadValue)) (es : Traces) : Prop where
  recorded : es.map Prod.fst = c.recorded
  kept : ∀ place, place ≠ .pending → place ≠ .taken →
    ∀ field key, c.held place field key = fated es (some place) field key
  pending : ∀ field key, s.1.amount field key = fated es (some .pending) field key
  taken : ∀ field key, balance (posted (·.get field) left) key = fated es (some .taken) field key
  lost : lostCount es = lostCount es₀ + s.2
  size : s.1.size ≤ maxPendingKeys
  nonneg : 0 ≤ s.2

theorem returning_entry {s : Values × ℤ} {e : DownloadKey × DownloadValue}
    {left : List (DownloadKey × DownloadValue)} {es₀ : Traces}
    (h : Returning maxPendingKeys c es₀ s (e :: left) es) (hnot : e.1 ∉ left.map Prod.fst)
    (hcount : 0 ≤ e.2.count) :
    ∃ es, Returning maxPendingKeys c es₀ (requeueEntry maxPendingKeys s e) left es := by
  let ofKey : DownloadKey → Bool := fun key => decide (key = e.1)
  -- The rest of the batch has no other entry of the key.
  have hleft : ∀ field key, fated es (some .taken) field key =
      (if key = e.1 then e.2.get field else 0) + balance (posted (·.get field) left) key := by
    intro field key
    rw [← h.taken, posted_cons, Ledger.balance_cons]
    simp only [eq_comm]
  have hentry : ∀ field, fated es (some .taken) field e.1 = e.2.get field := by
    intro field
    have hkeys : e.1 ∉ (posted (·.get field) left).map Prod.fst := by
      unfold posted
      rw [List.map_map]
      exact hnot
    rw [hleft, if_pos rfl, Ledger.balance_of_not_mem hkeys, add_zero]
  have hrest : ∀ field key, balance (posted (·.get field) left) key =
      fated es (some .taken) field key - if ofKey key then fated es (some .taken) field key else 0 := by
    intro field key
    by_cases hkey : key = e.1
    · subst hkey
      have hsum := hleft field e.1
      rw [hentry, if_pos rfl] at hsum
      simp only [ofKey, decide_true, if_true, hentry]
      omega
    · rw [hleft, if_neg hkey]
      simp [ofKey, hkey]
  unfold requeueEntry
  rcases recordPending_cases maxPendingKeys s.1 e.1 e.2 with hfull | ⟨hmerged, hsize⟩
  · rw [hfull]
    refine ⟨move (some .taken) none ofKey es, ?_, ?_, ?_, ?_, ?_, h.size, ?_⟩
    · rw [Placement.items_move, h.recorded]
    · intro place hpending htaken field key
      rw [fated_move (Option.some_ne_none _), if_neg (by simp [htaken]), if_neg (by simp), sub_zero, add_zero]
      exact h.kept place hpending htaken field key
    · intro field key
      rw [fated_move (Option.some_ne_none _), if_neg (by simp), if_neg (by simp), sub_zero, add_zero]
      exact h.pending field key
    · intro field key
      rw [fated_move (Option.some_ne_none _), hrest]
      simp
    · rw [lostCount_lose, hentry, h.lost]
      exact add_assoc _ _ _
    · exact Int.add_nonneg h.nonneg hcount
  · rw [hmerged]
    refine ⟨move (some .taken) (some .pending) ofKey es, ?_, ?_, ?_, ?_, ?_, hsize h.size,
      h.nonneg⟩
    · rw [Placement.items_move, h.recorded]
    · intro place hpending htaken field key
      rw [fated_move (by decide), if_neg (by simp [htaken]), if_neg (by simp [hpending]),
        sub_zero, add_zero]
      exact h.kept place hpending htaken field key
    · intro field key
      rw [fated_move (by decide), amount_merge, h.pending]
      by_cases hkey : key = e.1
      · subst hkey
        simp [ofKey, hentry]
      · simp [ofKey, hkey]
    · intro field key
      rw [fated_move (by decide), hrest]
      simp
    · rw [lostCount_move, h.lost]

theorem returning_entries {es₀ : Traces} {left : List (DownloadKey × DownloadValue)}
    (hnodup : (left.map Prod.fst).Nodup) (hcount : ∀ e ∈ left, 0 ≤ e.2.count) :
    ∀ {s : Values × ℤ} {es : Traces}, Returning maxPendingKeys c es₀ s left es →
      ∃ es, Returning maxPendingKeys c es₀
        (left.foldl (requeueEntry maxPendingKeys) s) [] es := by
  induction left with
  | nil =>
    intro s es h
    exact ⟨es, h⟩
  | cons e left ih =>
    intro s es h
    rw [List.map_cons, List.nodup_cons] at hnodup
    obtain ⟨es', h'⟩ := returning_entry h hnodup.1 (hcount e (List.mem_cons_self ..))
    exact ih hnodup.2 (fun e he => hcount e (List.mem_cons_of_mem _ he)) h'

theorem traced_requeue (h : Traced maxPendingKeys c es) :
    ∃ es, Traced maxPendingKeys (c.requeue maxPendingKeys order) es := by
  unfold Counter.requeue
  cases hflush : c.flush with
  | refused batch =>
    dsimp only
    have htaken : ∀ field key, batch.amount field key = fated es (some .taken) field key := by
      intro field key
      rw [← h.held, Counter.held, hflush, batch_refused]
    have hstart : Returning maxPendingKeys c es (c.pending, 0) (order.pairs batch) es := by
      refine ⟨h.recorded, fun place _ _ => h.held place, h.held .pending, ?_, (add_zero _).symm,
        h.size, Int.le_refl 0⟩
      intro field key
      rw [amount_pairs, htaken]
    have hcount : ∀ e ∈ order.pairs batch, 0 ≤ e.2.count := by
      intro e he
      have hload := (order.mem_pairs batch e.1 e.2).mp he
      have hamount : batch.amount .count e.1 = e.2.count := GoMap.weight_of_load hload
      rw [← hamount, htaken]
      exact fated_nonneg (h.recorded.symm ▸ h.positive) _ _ _
    obtain ⟨es', hend⟩ := returning_entries (order.pairs_nodup batch) hcount hstart
    have hdropped := hend.nonneg
    have hlost := hend.lost
    have hbefore := h.lost
    rw [hflush] at hbefore
    generalize hstage : (if 0 < (requeue maxPendingKeys order c.pending batch).2 then
      FlushStage.dropping (requeue maxPendingKeys order c.pending batch).2
      else FlushStage.reporting) = stage
    have hbatch : stage.batch = ∅ ∧
        stage.toAdd = (requeue maxPendingKeys order c.pending batch).2 := by
      rw [← hstage]
      split_ifs with hpos
      · exact ⟨rfl, rfl⟩
      · exact ⟨rfl, Int.le_antisymm hdropped (Int.not_lt.mp hpos)⟩
    refine ⟨es', ⟨hend.recorded, ?_⟩, ?_, h.positive, h.dropped_nonneg, h.adding_nonneg, ?_,
      hend.size⟩
    · intro place field key
      cases place with
      | stored => exact hend.kept .stored (by decide) (by decide) field key
      | pending => exact hend.pending field key
      | taken =>
        rw [← hend.taken, Counter.held, hbatch.1]
        rfl
      | removed => exact hend.kept .removed (by decide) (by decide) field key
    · rw [hlost, hbefore, hbatch.2]
      dsimp only [FlushStage.toAdd]
      rw [add_zero]
      rfl
    · rw [hbatch.2]
      exact hdropped
  | idle => exact ⟨es, h⟩
  | persisting batch => exact ⟨es, h⟩
  | dropping dropped => exact ⟨es, h⟩
  | reporting => exact ⟨es, h⟩

theorem traced_resetRepository (h : Traced maxPendingKeys c es) (repository : Bytes)
    (outcome : ResetOutcome) :
    ∃ es, Traced maxPendingKeys (c.resetRepository toLower order repository outcome) es := by
  unfold Counter.resetRepository
  generalize toLower (trimSpace repository) = repository
  cases hflush : c.flush with
  | idle =>
    dsimp only
    split_ifs with hempty
    · exact ⟨es, h⟩
    have hlost := h.lost
    rw [hflush] at hlost
    cases outcome with
    | unavailable => exact ⟨es, h⟩
    | failed =>
      dsimp only
      obtain ⟨hsize, hamount⟩ := restored order c.pending repository
      refine ⟨es, ?_, hlost, h.positive, h.dropped_nonneg, h.adding_nonneg, Int.le_refl 0, ?_⟩
      · refine h.toPlaced.same rfl fun place field key => ?_
        cases place with
        | pending => exact hamount field key
        | stored => rfl
        | taken => simp [Counter.held, hflush]
        | removed => rfl
      · exact Nat.le_trans (Nat.le_of_eq hsize) h.size
    | done =>
      dsimp only
      -- First the pending values of the repository are removed, then its rows.
      let ofRepository : DownloadKey → Bool := fun key => decide (key.repository = repository)
      let cleared : Counter :=
        { c with
          pending := (removeRepository c.pending repository).1
          removed := c.removed ++ order.pairs (removeRepository c.pending repository).2 }
      have hcleared : Placed cleared (move (some .pending) (some .removed) ofRepository es) := by
        refine h.toPlaced.move (by decide) _ rfl fun place field key => ?_
        cases place with
        | stored => simp [cleared, Counter.held]
        | pending =>
          simp only [cleared, Counter.held, removeRepository, amount_deleteWhere, ofRepository]
          split_ifs <;> simp_all
        | taken => simp [cleared, Counter.held]
        | removed =>
          simp [cleared, Counter.held, removeRepository, amount_deleteWhere, ofRepository,
            posted_append, Ledger.balance_append, amount_pairs]
      refine ⟨move (some .stored) (some .removed) ofRepository
        (move (some .pending) (some .removed) ofRepository es), ?_, ?_, h.positive,
        h.dropped_nonneg, h.adding_nonneg, Int.le_refl 0, ?_⟩
      · refine hcleared.move (by decide) _ rfl fun place field key => ?_
        cases place with
        | stored =>
          simp only [cleared, Counter.held, resetDownloadStatistics, amount_deleteWhere,
            ofRepository]
          split_ifs <;> simp_all
        | pending => simp [cleared, Counter.held]
        | taken => simp [cleared, Counter.held, hflush]
        | removed =>
          simp [cleared, Counter.held, amount_deleteWhere, ofRepository, posted_append,
            Ledger.balance_append, amount_pairs, add_assoc]
      · rw [lostCount_move, lostCount_move]
        exact hlost
      · exact Nat.le_trans (List.length_filter_le _ _) h.size
  | persisting batch => exact ⟨es, h⟩
  | refused batch => exact ⟨es, h⟩
  | dropping dropped => exact ⟨es, h⟩
  | reporting => exact ⟨es, h⟩

theorem traced_next (h : Traced maxPendingKeys c es) (s : Section) :
    ∃ es, Traced maxPendingKeys (c.next toLower maxPendingKeys order s) es := by
  cases s with
  | record event now => exact traced_record h event now
  | addDropped i => exact ⟨es, traced_addDropped h i⟩
  | takeBatch => exact traced_takeBatch h
  | persist applied => exact traced_persist h applied
  | requeue => exact traced_requeue h
  | addRequeueDropped => exact ⟨es, traced_addRequeueDropped h⟩
  | report => exact ⟨es, traced_report h⟩
  | resetRepository repository outcome => exact traced_resetRepository h repository outcome

theorem traced_foldl (sections : List Section) :
    ∀ {c : Counter} {es : Traces}, Traced maxPendingKeys c es →
      ∃ es, Traced maxPendingKeys
        (sections.foldl (Counter.next toLower maxPendingKeys order) c) es := by
  induction sections with
  | nil =>
    intro c es h
    exact ⟨es, h⟩
  | cons s sections ih =>
    intro c es h
    obtain ⟨es', h'⟩ := traced_next h s
    exact ih h'

theorem traced_start : Traced maxPendingKeys {} [] where
  recorded := rfl
  held := by
    intro place field key
    cases place <;> rfl
  lost := rfl
  positive := fun e he => nomatch he
  dropped_nonneg := Int.le_refl 0
  adding_nonneg := fun dropped hdropped => nomatch hdropped
  toAdd_nonneg := Int.le_refl 0
  size := Nat.zero_le _

theorem Placed.conserved (h : Placed c es) (field : Field) (key : DownloadKey) :
    c.held .stored field key + c.held .pending field key + c.held .taken field key +
        c.held .removed field key + fated es none field key =
      balance (posted (·.get field) c.recorded) key := by
  have hplaces : (fates.map fun fate => balance (lying (·.get field) fate es) key).sum =
      balance (posted (·.get field) (es.map Prod.fst)) key :=
    Placement.balance_places fates_nodup mem_fates _ key
  rw [← h.recorded, ← hplaces]
  simp only [h.held, fates, List.map_cons, List.map_nil, List.sum_cons, List.sum_nil]
  unfold fated
  omega

def Values.counts (m : Values) : ℤ := GoMap.sum (fun _ value => value.get .count) m

theorem Placed.counts (h : Placed c es) :
    c.rows.counts + c.pending.counts + c.flush.batch.counts +
        total (posted (·.get .count) c.removed) + lostCount es =
      total (posted (·.get .count) c.recorded) := by
  have hplaces : (fates.map fun fate => total (lying (·.get .count) fate es)).sum =
      total (posted (·.get .count) (es.map Prod.fst)) :=
    Placement.total_places fates_nodup mem_fates _
  have hsum : ∀ (m : Values) (place : Place),
      (∀ key, m.amount .count key = fated es (some place) .count key) →
      m.counts = total (lying (·.get .count) (some place) es) :=
    fun m place hheld => Ledger.sum_eq_total hheld
  have hremoved : total (posted (·.get .count) c.removed) =
      total (lying (·.get .count) (some .removed) es) :=
    Ledger.total_eq_total (h.held .removed .count)
  rw [hsum c.rows .stored (h.held .stored .count), hsum c.pending .pending (h.held .pending .count),
    hsum c.flush.batch .taken (h.held .taken .count), hremoved, ← h.recorded, ← hplaces]
  simp only [fates, List.map_cons, List.map_nil, List.sum_cons, List.sum_nil]
  unfold lostCount
  omega

end RenoP.Statistics
