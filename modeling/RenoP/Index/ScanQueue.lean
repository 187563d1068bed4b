import RenoP.Lib.Runs
import RenoP.Lib.SlashPath

/-!
# Directory scan requests

`queueDirectoryScan` and `runDirectoryScanWorker` of `internal/service/index/watcher.go`: a producer
and a worker beside a channel of some capacity and a flag. The log says which scans were asked for
and which began, the newest first.
-/

namespace RenoP.Index.ScanQueue

open SlashPath (Path)

inductive Worker where
  | waiting
  | received (path : Path)
  | draining
  | ready (path : Path)
  | scanning (path : Path)
  | stopped
  deriving DecidableEq

inductive Entry where
  | requested (path : Path)
  | scanBegan (path : Path)
  deriving DecidableEq

/-- `pending` is the request whose send failed and for which the flag is not stored yet. -/
structure State where
  requests : List Path
  scanAll : Bool
  done : Bool
  worker : Worker
  pending : Option Path
  log : List Entry
  deriving DecidableEq

inductive Step where
  | send (path : Path)
  | storeFlag
  | close
  | receive
  | swapFlag
  | drain
  | beginScan
  | endScan
  | leave
  deriving DecidableEq

variable (capacity : ℕ) (basePath : Path)

/-- The `select` of `queueDirectoryScan`. -/
def trySend (s : State) (path : Path) : State :=
  if s.requests.length < capacity then
    { s with requests := s.requests ++ [path], log := .requested path :: s.log }
  else { s with pending := some path, log := .requested path :: s.log }

/-- A step that cannot be taken leaves the state. The producer makes one request after another, and
none once it has closed `done`. -/
def next (s : State) : Step → State
  | .send path => if s.pending = none ∧ s.done = false then trySend capacity s path else s
  | .storeFlag =>
    match s.pending with
    | some _ => { s with pending := none, scanAll := true }
    | none => s
  | .close => if s.pending = none then { s with done := true } else s
  | .receive =>
    match s.worker, s.requests with
    | .waiting, path :: rest => { s with requests := rest, worker := .received path }
    | _, _ => s
  | .swapFlag =>
    match s.worker with
    | .received path =>
      if s.scanAll then { s with scanAll := false, worker := .draining }
      else { s with worker := .ready path }
    | _ => s
  | .drain =>
    match s.worker, s.requests with
    | .draining, _ :: rest => { s with requests := rest }
    | .draining, [] => { s with worker := .ready basePath }
    | _, _ => s
  | .beginScan =>
    match s.worker with
    | .ready path => { s with worker := .scanning path, log := .scanBegan path :: s.log }
    | _ => s
  | .endScan =>
    match s.worker with
    | .scanning _ => { s with worker := .waiting }
    | _ => s
  | .leave =>
    if s.worker = .waiting ∧ s.done = true then { s with worker := .stopped } else s

def initial : State := ⟨[], false, false, .waiting, none, []⟩

structure Quiescent (s : State) : Prop where
  requests : s.requests = []
  pending : s.pending = none
  worker : s.worker = .waiting

def Scanned (path : Path) (newer : List Entry) : Prop :=
  .scanBegan path ∈ newer ∨ .scanBegan basePath ∈ newer

def Covered (log : List Entry) : Prop :=
  ∀ newer path older, log = newer ++ Entry.requested path :: older → Scanned basePath path newer

def Lossless (s : State) : Prop := Quiescent s → Covered basePath s.log

def sinceRequest (log : List Entry) : List Entry :=
  log.takeWhile fun | .requested _ => false | .scanBegan _ => true

def Worker.WillScan (path : Path) : Worker → Prop
  | .received _ | .draining => True
  | .ready path' => path' = path ∨ path' = basePath
  | _ => False

/-- The flag of a request whose send failed is stored while something is queued, while the worker
is going to cover the request, or once it has. -/
def Heeded (s : State) : Step → Prop
  | .storeFlag => ∀ path, s.pending = some path →
      s.requests ≠ [] ∨ s.worker.WillScan basePath path ∨
        Scanned basePath path (sinceRequest s.log)
  | _ => True

def Awaits (s : State) (path : Path) : Prop :=
  path ∈ s.requests ∨ s.worker = .received path ∨ s.worker = .draining ∨ s.worker = .ready path ∨
    s.worker = .ready basePath ∨ s.pending = some path ∨
    s.scanAll = true ∧ (s.requests ≠ [] ∨ ∃ path', s.worker = .received path')

structure Inv (s : State) : Prop where
  covered : ∀ newer path older, s.log = newer ++ Entry.requested path :: older →
    Scanned basePath path newer ∨ Awaits basePath s path
  pending : ∀ path, s.pending = some path →
    ∃ older, s.log = sinceRequest s.log ++ Entry.requested path :: older

variable {capacity basePath} {s : State} {path : Path} {log newer older : List Entry}

theorem Inv.lossless (h : Inv basePath s) : Lossless basePath s := by
  intro hq newer path older hlog
  rcases h.covered newer path older hlog with hscanned | hawaits
  · exact hscanned
  · rcases hawaits with hmem | hw | hw | hw | hw | hp | ⟨-, hne | ⟨path', hw⟩⟩
    · simp [hq.requests] at hmem
    · simp [hq.worker] at hw
    · simp [hq.worker] at hw
    · simp [hq.worker] at hw
    · simp [hq.worker] at hw
    · simp [hq.pending] at hp
    · exact absurd hq.requests hne
    · simp [hq.worker] at hw

theorem Scanned.cons {e : Entry} (h : Scanned basePath path newer) :
    Scanned basePath path (e :: newer) :=
  h.imp (List.mem_cons_of_mem e) (List.mem_cons_of_mem e)

theorem Inv.silent {t : State} (h : Inv basePath s) (hlog : t.log = s.log)
    (hpending : t.pending = s.pending ∨ t.pending = none)
    (hawaits : ∀ newer path older, s.log = newer ++ Entry.requested path :: older →
      Awaits basePath s path → Scanned basePath path newer ∨ Awaits basePath t path) :
    Inv basePath t := by
  constructor
  · intro newer path older hnewer
    rw [hlog] at hnewer
    rcases h.covered newer path older hnewer with hscanned | hold
    · exact Or.inl hscanned
    · exact hawaits newer path older hnewer hold
  · intro path hpath
    rcases hpending with hsame | hnone
    · rw [hlog]
      exact h.pending path (hsame.symm.trans hpath)
    · cases hnone.symm.trans hpath

theorem mem_sinceRequest {e : Entry} (h : e ∈ sinceRequest (newer ++ .requested path :: older)) :
    e ∈ newer := by
  induction newer with
  | nil => simp [sinceRequest] at h
  | cons e' newer ih =>
    cases e' with
    | requested path' => simp [sinceRequest] at h
    | scanBegan path' =>
      rw [List.cons_append, sinceRequest, List.takeWhile_cons_of_pos rfl] at h
      rcases List.mem_cons.mp h with rfl | h
      · exact List.mem_cons_self ..
      · exact List.mem_cons_of_mem _ (ih h)

theorem Inv.send (h : Inv basePath s) (hpending : s.pending = none) (path : Path) :
    Inv basePath (trySend capacity s path) := by
  have hgrown : ∀ t : State, t.log = .requested path :: s.log →
      (t.pending = none ∨ t.pending = some path) → Awaits basePath t path →
      (∀ path', Awaits basePath s path' → Awaits basePath t path') → Inv basePath t := by
    intro t hlog hpending' hself hold
    constructor
    · intro newer path' older hnewer
      rw [hlog] at hnewer
      cases newer with
      | nil =>
        cases hnewer
        exact Or.inr hself
      | cons e newer =>
        obtain ⟨rfl, hlog⟩ := List.cons.inj hnewer
        exact (h.covered newer path' older hlog).imp Scanned.cons (hold path')
    · intro path' hpath'
      rcases hpending' with hnone | hsome
      · cases hnone.symm.trans hpath'
      · cases hsome.symm.trans hpath'
        exact ⟨s.log, hlog.trans (by rw [hlog]; rfl)⟩
  unfold trySend
  split
  · refine hgrown _ rfl (Or.inl hpending) (Or.inl (by simp)) ?_
    rintro path' (hmem | hw | hw | hw | hw | hp | ⟨hflag, -⟩)
    · exact Or.inl (List.mem_append_left _ hmem)
    · exact Or.inr (Or.inl hw)
    · exact Or.inr (Or.inr (Or.inl hw))
    · exact Or.inr (Or.inr (Or.inr (Or.inl hw)))
    · exact Or.inr (Or.inr (Or.inr (Or.inr (Or.inl hw))))
    · simp [hpending] at hp
    · exact Or.inr (Or.inr (Or.inr (Or.inr (Or.inr (Or.inr ⟨hflag, Or.inl (by simp)⟩)))))
  · refine hgrown _ rfl (Or.inr rfl) (by simp [Awaits]) ?_
    rintro path' (hmem | hw | hw | hw | hw | hp | hflag)
    · exact Or.inl hmem
    · exact Or.inr (Or.inl hw)
    · exact Or.inr (Or.inr (Or.inl hw))
    · exact Or.inr (Or.inr (Or.inr (Or.inl hw)))
    · exact Or.inr (Or.inr (Or.inr (Or.inr (Or.inl hw))))
    · simp [hpending] at hp
    · exact Or.inr (Or.inr (Or.inr (Or.inr (Or.inr (Or.inr hflag)))))

theorem Inv.storeFlag (h : Inv basePath s) (hpending : s.pending = some path)
    (hheeded : s.requests ≠ [] ∨ s.worker.WillScan basePath path ∨
      Scanned basePath path (sinceRequest s.log)) :
    Inv basePath { s with pending := none, scanAll := true } := by
  refine h.silent rfl (Or.inr rfl) ?_
  rintro newer path' older hlog (hmem | hw | hw | hw | hw | hp | ⟨-, hflag⟩)
  · exact Or.inr (Or.inl hmem)
  · exact Or.inr (Or.inr (Or.inl hw))
  · exact Or.inr (Or.inr (Or.inr (Or.inl hw)))
  · exact Or.inr (Or.inr (Or.inr (Or.inr (Or.inl hw))))
  · exact Or.inr (Or.inr (Or.inr (Or.inr (Or.inr (Or.inl hw)))))
  · cases hpending.symm.trans hp
    rcases hheeded with hne | hwill | hscanned
    · simp [Awaits, hne]
    · cases hworker : s.worker with
      | waiting => simp [hworker, Worker.WillScan] at hwill
      | received path' => simp [Awaits]
      | draining => simp [Awaits]
      | ready path' =>
        simp only [hworker, Worker.WillScan] at hwill
        rcases hwill with rfl | rfl <;> simp [Awaits]
      | scanning path' => simp [hworker, Worker.WillScan] at hwill
      | stopped => simp [hworker, Worker.WillScan] at hwill
    · rw [hlog] at hscanned
      exact Or.inl (hscanned.imp mem_sinceRequest mem_sinceRequest)
  · simp [Awaits, hflag]

theorem Inv.receive {rest : List Path} (h : Inv basePath s) (hworker : s.worker = .waiting)
    (hrequests : s.requests = path :: rest) :
    Inv basePath { s with requests := rest, worker := .received path } := by
  refine h.silent rfl (Or.inl rfl) ?_
  rintro newer path' older - (hmem | hw | hw | hw | hw | hp | ⟨hflag, -⟩)
  · rw [hrequests] at hmem
    rcases List.mem_cons.mp hmem with rfl | hmem
    · exact Or.inr (Or.inr (Or.inl rfl))
    · exact Or.inr (Or.inl hmem)
  · simp [hworker] at hw
  · simp [hworker] at hw
  · simp [hworker] at hw
  · simp [hworker] at hw
  · simp [Awaits, hp]
  · simp [Awaits, hflag]

theorem Inv.swapFlag (h : Inv basePath s) (hworker : s.worker = .received path) :
    Inv basePath (if s.scanAll then { s with scanAll := false, worker := .draining }
      else { s with worker := .ready path }) := by
  split
  · exact h.silent rfl (Or.inl rfl) fun _ _ _ _ _ => Or.inr (by simp [Awaits])
  · rename_i hflag
    refine h.silent rfl (Or.inl rfl) ?_
    rintro newer path' older - (hmem | hw | hw | hw | hw | hp | ⟨hset, -⟩)
    · exact Or.inr (Or.inl hmem)
    · cases hworker.symm.trans hw
      simp [Awaits]
    · simp [hworker] at hw
    · simp [hworker] at hw
    · simp [hworker] at hw
    · simp [Awaits, hp]
    · exact absurd hset hflag

theorem Inv.drain {rest : List Path} (h : Inv basePath s) (hworker : s.worker = .draining) :
    Inv basePath { s with requests := rest } :=
  h.silent rfl (Or.inl rfl) fun _ _ _ _ _ => Or.inr (by simp [Awaits, hworker])

theorem Inv.drained (h : Inv basePath s) : Inv basePath { s with worker := .ready basePath } :=
  h.silent rfl (Or.inl rfl) fun _ _ _ _ _ => Or.inr (by simp [Awaits])

theorem Inv.beginScan (h : Inv basePath s) (hworker : s.worker = .ready path) :
    Inv basePath { s with worker := .scanning path, log := .scanBegan path :: s.log } := by
  constructor
  · intro newer path' older hnewer
    cases newer with
    | nil => cases hnewer
    | cons e newer =>
      obtain ⟨rfl, hlog⟩ := List.cons.inj hnewer
      rcases h.covered newer path' older hlog with hscanned | hawaits
      · exact Or.inl hscanned.cons
      · rcases hawaits with hmem | hw | hw | hw | hw | hp | ⟨hflag, hne | ⟨path'', hw⟩⟩
        · simp [Awaits, hmem]
        · simp [hworker] at hw
        · simp [hworker] at hw
        · cases hworker.symm.trans hw
          exact Or.inl (Or.inl (List.mem_cons_self ..))
        · cases hworker.symm.trans hw
          exact Or.inl (Or.inr (List.mem_cons_self ..))
        · simp [Awaits, hp]
        · simp [Awaits, hflag, hne]
        · simp [hworker] at hw
  · intro path' hpath'
    obtain ⟨older, hlog⟩ := h.pending path' hpath'
    refine ⟨older, ?_⟩
    show Entry.scanBegan path :: s.log = sinceRequest (Entry.scanBegan path :: s.log) ++ _
    rw [sinceRequest, List.takeWhile_cons_of_pos rfl, List.cons_append]
    exact congrArg _ hlog

theorem Inv.wander {worker : Worker} (h : Inv basePath s)
    (hidle : ∀ path, ¬s.worker.WillScan basePath path) (hready : ∀ path, s.worker ≠ .ready path) :
    Inv basePath { s with worker := worker } := by
  refine h.silent rfl (Or.inl rfl) ?_
  rintro newer path' older - (hmem | hw | hw | hw | hw | hp | ⟨hflag, hne | ⟨path'', hw⟩⟩)
  · exact Or.inr (Or.inl hmem)
  · exact absurd (by rw [hw]; exact trivial) (hidle path')
  · exact absurd (by rw [hw]; exact trivial) (hidle path')
  · exact absurd hw (hready path')
  · exact absurd hw (hready basePath)
  · simp [Awaits, hp]
  · simp [Awaits, hflag, hne]
  · exact absurd (by rw [hw]; exact trivial) (hidle path'')

theorem Inv.step {step : Step} (h : Inv basePath s) (hheeded : Heeded basePath s step) :
    Inv basePath (next capacity basePath s step) := by
  cases step with
  | send path =>
    unfold next
    dsimp only
    split
    · rename_i hfree
      exact h.send hfree.1 path
    · exact h
  | storeFlag =>
    cases hpending : s.pending with
    | none => simpa [next, hpending] using h
    | some path =>
      simp only [next, hpending]
      exact h.storeFlag hpending (hheeded path hpending)
  | close =>
    unfold next
    dsimp only
    split
    · exact h.silent rfl (Or.inl rfl) fun _ _ _ _ hawaits => Or.inr hawaits
    · exact h
  | receive =>
    unfold next
    dsimp only
    split
    · rename_i path rest hworker hrequests
      exact h.receive hworker hrequests
    · exact h
  | swapFlag =>
    unfold next
    dsimp only
    split
    · rename_i path hworker
      exact h.swapFlag hworker
    · exact h
  | drain =>
    unfold next
    dsimp only
    split
    · rename_i path rest hworker hrequests
      exact h.drain hworker
    · exact h.drained
    · exact h
  | beginScan =>
    unfold next
    dsimp only
    split
    · rename_i path hworker
      exact h.beginScan hworker
    · exact h
  | endScan =>
    unfold next
    dsimp only
    split
    · rename_i path hworker
      exact h.wander (fun _ => by simp [hworker, Worker.WillScan]) fun _ => by simp [hworker]
    · exact h
  | leave =>
    unfold next
    dsimp only
    split
    · rename_i hworker
      exact h.wander (fun _ => by simp [hworker.1, Worker.WillScan]) fun _ => by simp [hworker.1]
    · exact h

theorem inv_initial : Inv basePath initial := by
  constructor
  · intro newer path older hlog
    simp [initial] at hlog
  · intro path hpath
    cases hpath

/-- The producer closes `done` last, and the worker leaves after that. -/
structure Running (s : State) : Prop where
  open_while_pending : s.done = true → s.pending = none
  closed : s.worker = .stopped → s.done = true

theorem running_initial : Running initial := ⟨fun _ => rfl, fun h => by cases h⟩

theorem Running.step (h : Running s) (step : Step) : Running (next capacity basePath s step) := by
  have hopen := h.open_while_pending
  have hclosed := h.closed
  cases step with
  | send path =>
    unfold next trySend
    dsimp only
    split
    · rename_i hfree
      split
      · exact ⟨hopen, hclosed⟩
      · exact ⟨fun hdone => by simp [hfree.2] at hdone, hclosed⟩
    · exact h
  | storeFlag =>
    unfold next
    dsimp only
    split
    · exact ⟨fun _ => rfl, hclosed⟩
    · exact h
  | close =>
    unfold next
    dsimp only
    split
    · rename_i hfree
      exact ⟨fun _ => hfree, fun _ => rfl⟩
    · exact h
  | leave =>
    unfold next
    dsimp only
    split
    · rename_i hdone
      exact ⟨hopen, fun _ => hdone.2⟩
    · exact h
  | swapFlag =>
    unfold next
    dsimp only
    split
    · split
      · exact ⟨hopen, fun hstopped => by cases hstopped⟩
      · exact ⟨hopen, fun hstopped => by cases hstopped⟩
    · exact h
  | drain =>
    unfold next
    dsimp only
    split
    · exact ⟨hopen, hclosed⟩
    · exact ⟨hopen, fun hstopped => by cases hstopped⟩
    · exact h
  | _ =>
    unfold next
    dsimp only
    split
    · exact ⟨hopen, fun hstopped => by cases hstopped⟩
    · exact h

def settleWorker : List Step := [.beginScan, .endScan]

theorem Inv.unheeded_loses (h : Inv basePath s) (hrunning : Running s)
    (hheeded : ¬Heeded basePath s .storeFlag) :
    ¬Lossless basePath ((Step.storeFlag :: settleWorker).foldl (next capacity basePath) s) := by
  obtain ⟨path, hpath⟩ := not_forall.mp hheeded
  obtain ⟨hpending, hlate⟩ := Classical.not_imp.mp hpath
  obtain ⟨hempty, hlate⟩ := not_or.mp hlate
  obtain ⟨hwill, hscanned⟩ := not_or.mp hlate
  obtain ⟨older, hlog⟩ := h.pending path hpending
  rw [not_not] at hempty
  intro hlossless
  cases hw : s.worker with
  | waiting =>
    simp only [settleWorker, List.foldl_cons, List.foldl_nil, next, hpending, hw] at hlossless
    exact hscanned (hlossless ⟨hempty, rfl, rfl⟩ _ path older hlog)
  | received path' => simp [hw, Worker.WillScan] at hwill
  | draining => simp [hw, Worker.WillScan] at hwill
  | ready path' =>
    simp only [settleWorker, List.foldl_cons, List.foldl_nil, next, hpending, hw] at hlossless
    have hcovered := hlossless ⟨hempty, rfl, rfl⟩ (.scanBegan path' :: sinceRequest s.log) path older
      (congrArg _ hlog)
    simp only [hw, Worker.WillScan, not_or] at hwill
    apply hscanned
    rcases hcovered with hmem | hmem
    · rcases List.mem_cons.mp hmem with heq | hmem
      · cases heq
        exact absurd rfl hwill.1
      · exact Or.inl hmem
    · rcases List.mem_cons.mp hmem with heq | hmem
      · cases heq
        exact absurd rfl hwill.2
      · exact Or.inr hmem
  | scanning path' =>
    simp only [settleWorker, List.foldl_cons, List.foldl_nil, next, hpending, hw] at hlossless
    exact hscanned (hlossless ⟨hempty, rfl, rfl⟩ _ path older hlog)
  | stopped => simp [hrunning.open_while_pending (hrunning.closed hw)] at hpending

def Settles (capacity : ℕ) (basePath : Path) (s : State) : Prop :=
  Lossless basePath s ∧ Lossless basePath (settleWorker.foldl (next capacity basePath) s)

theorem Inv.settled (h : Inv basePath s) :
    Inv basePath (settleWorker.foldl (next capacity basePath) s) := by
  have hbegun : Inv basePath (next capacity basePath s .beginScan) := h.step trivial
  have hended : Inv basePath (next capacity basePath _ .endScan) := hbegun.step trivial
  exact hended

def Kept (basePath : Path) (s : State) : Prop := Inv basePath s ∧ Running s

/-- A run loses no request exactly when every flag is heeded. -/
theorem scan_requests_kept_iff (capacity : ℕ) (basePath : Path) (steps : List Step) :
    Runs.Through (next capacity basePath) (Settles capacity basePath) initial steps ↔
      Runs.Along (next capacity basePath) (Heeded basePath) initial steps := by
  have hstart : Kept basePath initial := ⟨inv_initial, running_initial⟩
  refine Runs.through_iff_along_of_invariant ?_ ?_ ?_ steps hstart
  · rintro s ⟨h, -⟩
    exact ⟨h.lossless, h.settled.lossless⟩
  · rintro s step ⟨h, hrunning⟩ hheeded
    exact ⟨h.step hheeded, hrunning.step step⟩
  · rintro s step ⟨h, hrunning⟩ hheeded hsettles
    cases step with
    | storeFlag => exact h.unheeded_loses hrunning hheeded hsettles.2
    | _ => exact hheeded trivial

def burst (path : Path) : List Step := List.replicate 64 (.send path)

def lateFlag : List Step :=
  burst ['a'] ++ [Step.send ['b']] ++
    (List.replicate 64 [Step.receive, .swapFlag, .beginScan, .endScan]).flatten ++ [Step.storeFlag]

theorem lateFlag_loses :
    ¬Lossless ['/'] (lateFlag.foldl (next 64 ['/']) initial) := by
  intro h
  have hstate : lateFlag.foldl (next 64 ['/']) initial =
      ⟨[], true, false, .waiting, none, List.replicate 64 (Entry.scanBegan ['a']) ++
        Entry.requested ['b'] :: List.replicate 64 (.requested ['a'])⟩ := by
    decide +kernel
  rw [hstate] at h
  rcases h ⟨rfl, rfl, rfl⟩ _ ['b'] _ rfl with hmem | hmem
  · cases List.eq_of_mem_replicate hmem
  · cases List.eq_of_mem_replicate hmem

end RenoP.Index.ScanQueue
