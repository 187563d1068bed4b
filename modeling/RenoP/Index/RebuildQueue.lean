import RenoP.Lib.Runs
import RenoP.Lib.SlashPath

/-!
# Rebuild requests

`queueIndexRebuild` and `runIndexRebuilds` of `internal/service/index/builder.go`. A section under
`rebuildMu` is one step; so are the `go` statement, the beginning and the end of a scan, and the
store to `IsDirty`. Calls are numbered, and the log says what happened, the newest first.
-/

namespace RenoP.Index.RebuildQueue

open SlashPath (Path)

structure IndexRebuildRequest where
  basePath : Path
  dirty : Bool
  deriving DecidableEq

/-- Where a goroutine of `runIndexRebuilds` is, with the calls that its request merges. -/
inductive Runner where
  | starting
  | taking
  | taken (request : IndexRebuildRequest) (calls : List ℕ)
  | scanning (request : IndexRebuildRequest) (calls : List ℕ)
  | scanned (request : IndexRebuildRequest) (calls : List ℕ) (ok : Bool)
  deriving DecidableEq

inductive Entry where
  | queued (call : ℕ) (dirty : Bool)
  | scanBegan (calls : List ℕ)
  | scanEnded (calls : List ℕ) (ok : Bool)
  | markedDirty
  deriving DecidableEq

structure State where
  rebuildNext : Option IndexRebuildRequest
  rebuildRunning : Bool
  isDirty : Bool
  runners : List Runner
  waiting : List ℕ
  calls : ℕ
  log : List Entry

/-- `setDirty` is a store to `IsDirty` elsewhere, and `turn i` a step of the goroutine `i`, where
`ok` is the outcome of a scan that ends. -/
inductive Step where
  | queueIndexRebuild (basePath : Path) (dirty : Bool)
  | turn (i : ℕ) (ok : Bool)
  | setDirty (value : Bool)

def mergeRequest (basePath : Path) (dirty : Bool) :
    Option IndexRebuildRequest → IndexRebuildRequest
  | none => ⟨basePath, dirty⟩
  | some next => ⟨basePath, next.dirty || dirty⟩

def queueIndexRebuild (s : State) (basePath : Path) (dirty : Bool) : State :=
  { s with
    rebuildNext := some (mergeRequest basePath dirty s.rebuildNext)
    rebuildRunning := true
    runners := if s.rebuildRunning then s.runners else s.runners ++ [.starting]
    waiting := s.calls :: s.waiting
    calls := s.calls + 1
    log := .queued s.calls dirty :: s.log }

def runIndexRebuilds (s : State) (ok : Bool) : Runner → State × List Runner
  | .starting => (s, [.taking])
  | .taking =>
    match s.rebuildNext with
    | none => ({ s with rebuildRunning := false }, [])
    | some request =>
      ({ s with rebuildNext := none, waiting := [] }, [.taken request s.waiting])
  | .taken request calls =>
    ({ s with log := .scanBegan calls :: s.log }, [.scanning request calls])
  | .scanning request calls =>
    ({ s with log := .scanEnded calls ok :: s.log }, [.scanned request calls ok])
  | .scanned request _ ok =>
    if ok && request.dirty then
      ({ s with isDirty := true, log := .markedDirty :: s.log }, [.taking])
    else (s, [.taking])

def next (s : State) : Step → State
  | .queueIndexRebuild basePath dirty => queueIndexRebuild s basePath dirty
  | .turn i ok =>
    match s.runners[i]? with
    | none => s
    | some runner =>
      let (s', rest) := runIndexRebuilds s ok runner
      { s' with runners := s.runners.take i ++ rest ++ s.runners.drop (i + 1) }
  | .setDirty value => { s with isDirty := value }

def initial (isDirty : Bool) : State := ⟨none, false, isDirty, [], [], 0, []⟩

structure Sound (s : State) : Prop where
  one_runner : s.runners.length ≤ 1
  none_pending : s.runners = [] → s.rebuildNext = none ∧ s.rebuildRunning = false

def Begun (call : ℕ) (log : List Entry) : Prop :=
  ∃ newer calls older dirty, log = newer ++ Entry.scanBegan calls :: older ∧ call ∈ calls ∧
    .queued call dirty ∈ older

def Dirty (log : List Entry) (calls : List ℕ) : Prop := ∃ call ∈ calls, .queued call true ∈ log

/-- Every successful scan of a call that was queued with `dirty` is among those that `marked` holds
of, or the index was marked after it. -/
def Marks (marked : List ℕ → Prop) (log : List Entry) : Prop :=
  ∀ newer calls older, log = newer ++ .scanEnded calls true :: older → Dirty older calls →
    .markedDirty ∈ newer ∨ marked calls

/-- What was asked for in `s` is done in `t`. -/
structure Served (s t : State) : Prop where
  begun : ∀ call dirty, .queued call dirty ∈ s.log → Begun call t.log
  marked : ∀ newer calls older, s.log = newer ++ .scanEnded calls true :: older →
    Dirty older calls → ∃ later, t.log = later ++ .scanEnded calls true :: older ∧
      .markedDirty ∈ later

def turns (steps : List Step) : ℕ :=
  steps.countP fun | .turn 0 _ => true | _ => false

def Merges (log : List Entry) (request : IndexRebuildRequest) (calls : List ℕ) : Prop :=
  (∀ call ∈ calls, ∃ dirty, .queued call dirty ∈ log) ∧ (Dirty log calls → request.dirty = true)

def RunnerOk (log : List Entry) : Runner → Prop
  | .starting | .taking => True
  | .taken request calls | .scanning request calls | .scanned request calls _ =>
    Merges log request calls

def Runner.due : Runner → List ℕ
  | .taken _ calls => calls
  | _ => []

def Runner.marks : Runner → List ℕ → Prop
  | .scanned _ calls true, ended => calls = ended
  | _, _ => False

def Runner.distance : Runner → ℕ
  | .starting => 3
  | .taking => 2
  | .taken .. => 5
  | .scanning .. => 4
  | .scanned .. => 3

structure Active (s : State) (runner : Runner) : Prop where
  runners : s.runners = [runner]
  running : s.rebuildRunning = true
  ok : RunnerOk s.log runner
  pending : ∀ request, s.rebuildNext = some request → Merges s.log request s.waiting
  none : s.rebuildNext = none → s.waiting = []
  fresh : ∀ call dirty, .queued call dirty ∈ s.log → call < s.calls
  queued : ∀ call dirty, .queued call dirty ∈ s.log →
    call ∈ s.waiting ∨ call ∈ runner.due ∨ Begun call s.log
  marks : Marks runner.marks s.log

structure Idle (s : State) : Prop where
  runners : s.runners = []
  running : s.rebuildRunning = false
  pending : s.rebuildNext = none
  waiting : s.waiting = []
  fresh : ∀ call dirty, .queued call dirty ∈ s.log → call < s.calls
  queued : ∀ call dirty, .queued call dirty ∈ s.log → Begun call s.log
  marks : Marks (fun _ => False) s.log

def Inv (s : State) : Prop := Idle s ∨ ∃ runner, Active s runner

variable {s t : State} {log : List Entry} {runner : Runner} {request : IndexRebuildRequest}
  {calls : List ℕ} {call : ℕ}

theorem Inv.sound (h : Inv s) : Sound s := by
  rcases h with h | ⟨runner, h⟩
  · constructor
    · simp [h.runners]
    · exact fun _ => ⟨h.pending, h.running⟩
  · constructor
    · simp [h.runners]
    · intro hnil
      simp [h.runners] at hnil

theorem Begun.cons {e : Entry} (h : Begun call log) : Begun call (e :: log) := by
  obtain ⟨newer, calls, older, dirty, rfl, hcall, hqueued⟩ := h
  exact ⟨e :: newer, calls, older, dirty, rfl, hcall, hqueued⟩

theorem Dirty.of_cons {e : Entry} (h : Dirty (e :: log) calls)
    (he : ∀ call ∈ calls, e ≠ .queued call true) : Dirty log calls := by
  obtain ⟨call, hcall, hmem⟩ := h
  rcases List.mem_cons.mp hmem with rfl | hmem
  · exact absurd rfl (he call hcall)
  · exact ⟨call, hcall, hmem⟩

theorem Merges.cons {e : Entry} (h : Merges log request calls)
    (he : ∀ call ∈ calls, e ≠ .queued call true) : Merges (e :: log) request calls := by
  constructor
  · intro call hcall
    obtain ⟨dirty, hmem⟩ := h.1 call hcall
    exact ⟨dirty, List.mem_cons_of_mem e hmem⟩
  · exact fun hdirty => h.2 (hdirty.of_cons he)

theorem Marks.cons {e : Entry} {p q : List ℕ → Prop} (h : Marks p log)
    (hold : ∀ calls, p calls → q calls ∨ e = .markedDirty)
    (hnew : ∀ calls, e = .scanEnded calls true → Dirty log calls → q calls) :
    Marks q (e :: log) := by
  intro newer calls older heq hdirty
  cases newer with
  | nil =>
    cases heq
    exact Or.inr (hnew calls rfl hdirty)
  | cons e' newer =>
    obtain ⟨rfl, hlog⟩ := List.cons.inj heq
    rcases h newer calls older hlog hdirty with hmem | hp
    · exact Or.inl (List.mem_cons_of_mem e hmem)
    · rcases hold calls hp with hq | rfl
      · exact Or.inr hq
      · exact Or.inl (List.mem_cons_self ..)

theorem Merges.queue {dirty : Bool} (h : Merges log request calls)
    (hfresh : ∀ call' dirty', .queued call' dirty' ∈ log → call' < call) :
    Merges (.queued call dirty :: log) request calls := by
  refine h.cons ?_
  intro call' hcall' heq
  obtain ⟨dirty', hmem⟩ := h.1 call' hcall'
  have hlt := hfresh call' dirty' hmem
  cases heq
  omega

theorem merges_queue {basePath : Path} {dirty : Bool} {pending : Option IndexRebuildRequest}
    {waiting : List ℕ} (hpending : ∀ request, pending = some request → Merges log request waiting)
    (hnone : pending = none → waiting = [])
    (hfresh : ∀ call' dirty', .queued call' dirty' ∈ log → call' < call) :
    Merges (.queued call dirty :: log) (mergeRequest basePath dirty pending)
      (call :: waiting) := by
  constructor
  · intro call' hmem
    rcases List.mem_cons.mp hmem with rfl | hmem
    · exact ⟨dirty, List.mem_cons_self ..⟩
    · cases pending with
      | none => simp [hnone rfl] at hmem
      | some request =>
        obtain ⟨dirty', hlog⟩ := (hpending request rfl).1 call' hmem
        exact ⟨dirty', List.mem_cons_of_mem _ hlog⟩
  · rintro ⟨call', hmem, hlog⟩
    rcases List.mem_cons.mp hlog with heq | hold
    · cases heq
      cases pending <;> simp [mergeRequest]
    · rcases List.mem_cons.mp hmem with rfl | hmerged
      · have hlt := hfresh _ _ hold
        omega
      · cases pending with
        | none => simp [hnone rfl] at hmerged
        | some request =>
          have hdirty := (hpending request rfl).2 ⟨call', hmerged, hold⟩
          simp [mergeRequest, hdirty]

theorem RunnerOk.queue {dirty : Bool} (h : RunnerOk log runner)
    (hfresh : ∀ call' dirty', .queued call' dirty' ∈ log → call' < call) :
    RunnerOk (.queued call dirty :: log) runner := by
  cases runner with
  | starting => exact trivial
  | taking => exact trivial
  | taken request calls => exact Merges.queue h hfresh
  | scanning request calls => exact Merges.queue h hfresh
  | scanned request calls ok => exact Merges.queue h hfresh

theorem fresh_queue {dirty : Bool}
    (hfresh : ∀ call' dirty', .queued call' dirty' ∈ log → call' < call) :
    ∀ call' dirty', .queued call' dirty' ∈ Entry.queued call dirty :: log → call' < call + 1 := by
  intro call' dirty' hmem
  rcases List.mem_cons.mp hmem with heq | hmem
  · cases heq
    omega
  · have hlt := hfresh call' dirty' hmem
    omega

theorem Active.queue (h : Active s runner) (basePath : Path) (dirty : Bool) :
    Active (queueIndexRebuild s basePath dirty) runner := by
  constructor
  · simp only [queueIndexRebuild, h.running, if_true, h.runners]
  · rfl
  · exact h.ok.queue h.fresh
  · intro request hrequest
    cases hrequest
    exact merges_queue h.pending h.none h.fresh
  · intro hnone
    cases hnone
  · exact fresh_queue h.fresh
  · intro call dirty' hmem
    rcases List.mem_cons.mp hmem with heq | hmem
    · cases heq
      exact Or.inl (List.mem_cons_self ..)
    · rcases h.queued call dirty' hmem with hwait | hdue | hbegun
      · exact Or.inl (List.mem_cons_of_mem _ hwait)
      · exact Or.inr (Or.inl hdue)
      · exact Or.inr (Or.inr hbegun.cons)
  · exact h.marks.cons (fun calls hcalls => Or.inl hcalls) (fun calls heq => by cases heq)

theorem Idle.queue (h : Idle s) (basePath : Path) (dirty : Bool) :
    Active (queueIndexRebuild s basePath dirty) .starting := by
  constructor
  · simp [queueIndexRebuild, h.running, h.runners]
  · rfl
  · exact trivial
  · intro request hrequest
    cases hrequest
    refine merges_queue ?_ (fun _ => h.waiting) h.fresh
    intro request hrequest
    cases h.pending.symm.trans hrequest
  · intro hnone
    cases hnone
  · exact fresh_queue h.fresh
  · intro call dirty' hmem
    rcases List.mem_cons.mp hmem with heq | hmem
    · cases heq
      exact Or.inl (List.mem_cons_self ..)
    · exact Or.inr (Or.inr (h.queued call dirty' hmem).cons)
  · exact h.marks.cons (fun calls hcalls => hcalls.elim) (fun calls heq => by cases heq)

theorem next_turn (hrunners : s.runners = [runner]) (ok : Bool) :
    next s (.turn 0 ok) =
      { (runIndexRebuilds s ok runner).1 with runners := (runIndexRebuilds s ok runner).2 } := by
  simp [next, hrunners]

theorem next_turn_other {i : ℕ} (hrunners : s.runners = [runner]) (hi : i ≠ 0) (ok : Bool) :
    next s (.turn i ok) = s := by
  obtain ⟨j, rfl⟩ := Nat.exists_eq_succ_of_ne_zero hi
  simp [next, hrunners]

theorem queued_of_cons {e : Entry} {dirty : Bool} (h : .queued call dirty ∈ e :: log)
    (he : ∀ call dirty, e ≠ .queued call dirty) : .queued call dirty ∈ log := by
  rcases List.mem_cons.mp h with rfl | h
  · exact absurd rfl (he call dirty)
  · exact h

theorem Active.note {e : Entry} {runner' : Runner} (h : Active s runner) (dirtyNow : Bool)
    (he : ∀ call dirty, e ≠ .queued call dirty) (hok : RunnerOk (e :: s.log) runner')
    (hdue : ∀ call ∈ runner.due, call ∈ runner'.due ∨ Begun call (e :: s.log))
    (hmarks : Marks runner'.marks (e :: s.log)) :
    Active { s with isDirty := dirtyNow, log := e :: s.log, runners := [runner'] } runner' := by
  constructor
  · rfl
  · exact h.running
  · exact hok
  · exact fun request hrequest => (h.pending request hrequest).cons fun call _ => he call true
  · exact h.none
  · exact fun call dirty hmem => h.fresh call dirty (queued_of_cons hmem he)
  · intro call dirty hmem
    rcases h.queued call dirty (queued_of_cons hmem he) with hwait | hcall | hbegun
    · exact Or.inl hwait
    · exact Or.inr (hdue call hcall)
    · exact Or.inr (Or.inr hbegun.cons)
  · exact hmarks

theorem Active.pass {runner' : Runner} (h : Active s runner) (hok : RunnerOk s.log runner')
    (hdue : runner.due = []) (hmarks : ∀ calls, runner.marks calls → ¬Dirty s.log calls) :
    Active { s with runners := [runner'] } runner' := by
  constructor
  · rfl
  · exact h.running
  · exact hok
  · exact h.pending
  · exact h.none
  · exact h.fresh
  · intro call dirty hmem
    rcases h.queued call dirty hmem with hwait | hcall | hbegun
    · exact Or.inl hwait
    · simp [hdue] at hcall
    · exact Or.inr (Or.inr hbegun)
  · intro newer calls older heq hdirty
    rcases h.marks newer calls older heq hdirty with hmem | hcalls
    · exact Or.inl hmem
    · obtain ⟨call, hcall, hqueued⟩ := hdirty
      refine absurd ⟨call, hcall, ?_⟩ (hmarks calls hcalls)
      rw [heq]
      exact List.mem_append_right _ (List.mem_cons_of_mem _ hqueued)

theorem Active.take (h : Active s .taking) (ok : Bool) : Inv (next s (.turn 0 ok)) := by
  rw [next_turn h.runners]
  cases hnext : s.rebuildNext with
  | none =>
    have hwaiting := h.none hnext
    refine Or.inl ?_
    simp only [runIndexRebuilds, hnext]
    constructor
    · rfl
    · rfl
    · rfl
    · exact hwaiting
    · exact h.fresh
    · intro call dirty hmem
      rcases h.queued call dirty hmem with hwait | hdue | hbegun
      · simp [hwaiting] at hwait
      · cases hdue
      · exact hbegun
    · exact h.marks
  | some request =>
    refine Or.inr ⟨.taken request s.waiting, ?_⟩
    simp only [runIndexRebuilds, hnext]
    constructor
    · rfl
    · exact h.running
    · exact h.pending request hnext
    · intro request' hrequest'
      cases hrequest'
    · exact fun _ => rfl
    · exact h.fresh
    · intro call dirty hmem
      rcases h.queued call dirty hmem with hwait | hdue | hbegun
      · exact Or.inr (Or.inl hwait)
      · cases hdue
      · exact Or.inr (Or.inr hbegun)
    · exact h.marks

theorem begun_self (h : Merges log request calls) (hcall : call ∈ calls) :
    Begun call (.scanBegan calls :: log) := by
  obtain ⟨dirty, hmem⟩ := h.1 call hcall
  exact ⟨[], calls, log, dirty, rfl, hcall, hmem⟩

theorem Active.turn (h : Active s runner) (ok : Bool) : Inv (next s (.turn 0 ok)) := by
  cases runner with
  | starting =>
    rw [next_turn h.runners]
    exact Or.inr ⟨.taking, h.pass trivial rfl fun _ hcalls => hcalls.elim⟩
  | taking => exact h.take ok
  | taken request calls =>
    rw [next_turn h.runners]
    refine Or.inr ⟨.scanning request calls, h.note s.isDirty ?_ ?_ ?_ ?_⟩
    · exact fun _ _ heq => by cases heq
    · exact Merges.cons h.ok fun _ _ heq => by cases heq
    · exact fun call hcall => Or.inr (begun_self h.ok hcall)
    · exact h.marks.cons (fun calls hcalls => Or.inl hcalls) fun _ heq => by cases heq
  | scanning request calls =>
    rw [next_turn h.runners]
    refine Or.inr ⟨.scanned request calls ok, h.note s.isDirty ?_ ?_ ?_ ?_⟩
    · exact fun _ _ heq => by cases heq
    · exact Merges.cons h.ok fun _ _ heq => by cases heq
    · exact fun call hcall => by cases hcall
    · refine h.marks.cons (fun calls hcalls => hcalls.elim) ?_
      intro calls' heq _
      cases heq
      rfl
  | scanned request calls ended =>
    rw [next_turn h.runners]
    unfold runIndexRebuilds
    dsimp only
    split
    · refine Or.inr ⟨.taking, h.note true ?_ trivial ?_ ?_⟩
      · exact fun _ _ heq => by cases heq
      · exact fun call hcall => by cases hcall
      · exact h.marks.cons (fun _ _ => Or.inr rfl) fun _ heq => by cases heq
    · rename_i hclean
      refine Or.inr ⟨.taking, h.pass trivial rfl ?_⟩
      intro calls' hcalls hdirty
      cases ended with
      | false => exact hcalls
      | true =>
        cases hcalls
        exact hclean (h.ok.2 hdirty)

theorem Inv.step (h : Inv s) (step : Step) : Inv (next s step) := by
  cases step with
  | queueIndexRebuild basePath dirty =>
    rcases h with h | ⟨runner, h⟩
    · exact Or.inr ⟨.starting, h.queue basePath dirty⟩
    · exact Or.inr ⟨runner, h.queue basePath dirty⟩
  | turn i ok =>
    rcases h with h | ⟨runner, h⟩
    · refine Or.inl ?_
      simpa [next, h.runners] using h
    · by_cases hi : i = 0
      · subst hi
        exact h.turn ok
      · rw [next_turn_other h.runners hi]
        exact Or.inr ⟨runner, h⟩
  | setDirty value =>
    rcases h with h | ⟨runner, h⟩
    · exact Or.inl ⟨h.runners, h.running, h.pending, h.waiting, h.fresh, h.queued, h.marks⟩
    · exact Or.inr ⟨runner, h.runners, h.running, h.ok, h.pending, h.none, h.fresh, h.queued,
        h.marks⟩

theorem inv_initial (isDirty : Bool) : Inv (initial isDirty) := by
  refine Or.inl ⟨rfl, rfl, rfl, rfl, ?_, ?_, ?_⟩
  · exact fun call dirty hmem => by cases hmem
  · exact fun call dirty hmem => by cases hmem
  · intro newer calls older heq
    simp [initial] at heq

theorem log_grows (s : State) (step : Step) : ∃ newer, (next s step).log = newer ++ s.log := by
  cases step with
  | queueIndexRebuild basePath dirty => exact ⟨[_], rfl⟩
  | setDirty value => exact ⟨[], rfl⟩
  | turn i ok =>
    unfold next
    dsimp only
    split
    · exact ⟨[], rfl⟩
    · rename_i runner _
      cases runner with
      | starting => exact ⟨[], rfl⟩
      | taking =>
        cases hnext : s.rebuildNext with
        | none => exact ⟨[], by simp [runIndexRebuilds, hnext]⟩
        | some request => exact ⟨[], by simp [runIndexRebuilds, hnext]⟩
      | taken request calls => exact ⟨[_], rfl⟩
      | scanning request calls => exact ⟨[_], rfl⟩
      | scanned request calls ended =>
        by_cases hdirty : (ended && request.dirty) = true
        · exact ⟨[.markedDirty], by simp [runIndexRebuilds, hdirty]⟩
        · exact ⟨[], by simp [runIndexRebuilds, hdirty]⟩

theorem Begun.append {newer : List Entry} (h : Begun call log) : Begun call (newer ++ log) := by
  induction newer with
  | nil => exact h
  | cons e newer ih => exact ih.cons

/-- The scan of a call begins within `n` turns. -/
def BeginsWithin (call n : ℕ) (s : State) : Prop :=
  Begun call s.log ∨ ∃ runner, s.runners = [runner] ∧
    (call ∈ runner.due ∧ 1 ≤ n ∨ call ∈ s.waiting ∧ runner.distance ≤ n)

theorem Inv.active (h : Inv s) (hrunners : s.runners = [runner]) : Active s runner := by
  rcases h with h | ⟨runner', h⟩
  · simp [h.runners] at hrunners
  · have heq := h.runners.symm.trans hrunners
    cases heq
    exact h

theorem BeginsWithin.turn {n : ℕ} (hinv : Inv s) (ok : Bool) (h : BeginsWithin call n s) :
    BeginsWithin call (n - 1) (next s (.turn 0 ok)) := by
  rcases h with hbegun | ⟨runner, hrunners, h⟩
  · obtain ⟨newer, hlog⟩ := log_grows s (.turn 0 ok)
    refine Or.inl ?_
    rw [hlog]
    exact hbegun.append
  · have hactive := hinv.active hrunners
    rw [next_turn hrunners]
    rcases h with ⟨hdue, -⟩ | ⟨hwait, hdistance⟩
    · cases runner with
      | taken request calls => exact Or.inl (begun_self hactive.ok hdue)
      | starting => cases hdue
      | taking => cases hdue
      | scanning request calls => cases hdue
      | scanned request calls ended => cases hdue
    · cases runner with
      | starting =>
        simp only [Runner.distance] at hdistance
        exact Or.inr ⟨.taking, rfl, Or.inr ⟨hwait, by simp only [Runner.distance]; omega⟩⟩
      | taking =>
        cases hnext : s.rebuildNext with
        | none => simp [hactive.none hnext] at hwait
        | some request =>
          simp only [Runner.distance] at hdistance
          simp only [runIndexRebuilds, hnext]
          exact Or.inr ⟨_, rfl, Or.inl ⟨hwait, by omega⟩⟩
      | taken request calls =>
        simp only [Runner.distance] at hdistance
        exact Or.inr ⟨_, rfl, Or.inr ⟨hwait, by simp only [Runner.distance]; omega⟩⟩
      | scanning request calls =>
        simp only [Runner.distance] at hdistance
        exact Or.inr ⟨_, rfl, Or.inr ⟨hwait, by simp only [Runner.distance]; omega⟩⟩
      | scanned request calls ended =>
        simp only [Runner.distance] at hdistance
        refine Or.inr ⟨.taking, ?_, Or.inr ⟨?_, by simp only [Runner.distance]; omega⟩⟩
        · unfold runIndexRebuilds
          dsimp only
          split <;> rfl
        · unfold runIndexRebuilds
          dsimp only
          split <;> exact hwait

theorem next_other {step : Step} (hactive : Active s runner) (hother : ∀ ok, step ≠ .turn 0 ok) :
    (next s step).runners = s.runners ∧ ∀ call ∈ s.waiting, call ∈ (next s step).waiting := by
  cases step with
  | queueIndexRebuild basePath dirty =>
    have hrunners : (queueIndexRebuild s basePath dirty).runners = s.runners := by
      simp only [queueIndexRebuild, hactive.running, if_true]
    exact ⟨hrunners, fun call hcall => List.mem_cons_of_mem _ hcall⟩
  | turn i ok =>
    have hi : i ≠ 0 := by
      rintro rfl
      exact hother ok rfl
    rw [next_turn_other hactive.runners hi]
    exact ⟨rfl, fun _ => id⟩
  | setDirty value => exact ⟨rfl, fun _ => id⟩

theorem BeginsWithin.other {n : ℕ} {step : Step} (hinv : Inv s) (hother : ∀ ok, step ≠ .turn 0 ok)
    (h : BeginsWithin call n s) : BeginsWithin call n (next s step) := by
  rcases h with hbegun | ⟨runner, hrunners, h⟩
  · obtain ⟨newer, hlog⟩ := log_grows s step
    refine Or.inl ?_
    rw [hlog]
    exact hbegun.append
  · obtain ⟨hsame, hwaiting⟩ := next_other (hinv.active hrunners) hother
    refine Or.inr ⟨runner, hsame.trans hrunners, ?_⟩
    exact h.imp_right fun hwait => ⟨hwaiting call hwait.1, hwait.2⟩

/-- The index is marked within `n` turns after the scan that ended on top of `older`. -/
def MarksWithin (calls : List ℕ) (older : List Entry) (n : ℕ) (s : State) : Prop :=
  ∃ later, s.log = later ++ .scanEnded calls true :: older ∧
    (.markedDirty ∈ later ∨ 1 ≤ n ∧ ∃ request, s.runners = [.scanned request calls true] ∧
      request.dirty = true)

theorem MarksWithin.grow {older newer : List Entry} {n m : ℕ} (h : MarksWithin calls older n s)
    (hlog : t.log = newer ++ s.log)
    (hwait : ∀ request, s.runners = [.scanned request calls true] → request.dirty = true →
      .markedDirty ∈ newer ∨ 1 ≤ m ∧ t.runners = s.runners ∨ n = 0) :
    MarksWithin calls older m t := by
  obtain ⟨later, hold, h⟩ := h
  refine ⟨newer ++ later, by rw [hlog, hold, List.append_assoc], ?_⟩
  rcases h with hmem | ⟨hn, request, hrunners, hdirty⟩
  · exact Or.inl (List.mem_append_right newer hmem)
  · rcases hwait request hrunners hdirty with hmem | ⟨hm, hsame⟩ | hzero
    · exact Or.inl (List.mem_append_left later hmem)
    · exact Or.inr ⟨hm, request, hsame.trans hrunners, hdirty⟩
    · omega

theorem MarksWithin.turn {older : List Entry} {n : ℕ} (ok : Bool)
    (h : MarksWithin calls older n s) : MarksWithin calls older (n - 1) (next s (.turn 0 ok)) := by
  obtain ⟨newer, hlog⟩ := log_grows s (.turn 0 ok)
  refine h.grow hlog ?_
  intro request hrunners hdirty
  rw [next_turn hrunners] at hlog
  simp only [runIndexRebuilds, hdirty, Bool.and_self, if_true] at hlog
  have hnewer : newer = [.markedDirty] :=
    List.append_cancel_right (hlog.symm.trans (List.singleton_append ..).symm)
  exact Or.inl (by simp [hnewer])

theorem MarksWithin.other {older : List Entry} {n : ℕ} {step : Step} (hinv : Inv s)
    (hother : ∀ ok, step ≠ .turn 0 ok) (h : MarksWithin calls older n s) :
    MarksWithin calls older n (next s step) := by
  obtain ⟨newer, hlog⟩ := log_grows s step
  refine h.grow hlog ?_
  intro request hrunners _
  rcases Nat.eq_zero_or_pos n with hn | hn
  · exact Or.inr (Or.inr hn)
  · exact Or.inr (Or.inl ⟨hn, (next_other (hinv.active hrunners) hother).1⟩)

theorem due_of_run (due : ℕ → State → Prop)
    (hturn : ∀ n s ok, Inv s → due n s → due (n - 1) (next s (.turn 0 ok)))
    (hother : ∀ n s step, Inv s → (∀ ok, step ≠ .turn 0 ok) → due n s → due n (next s step))
    {n : ℕ} (steps : List Step) (hinv : Inv s) (h : due n s) :
    due (n - turns steps) (steps.foldl next s) := by
  refine Runs.countdown (fun s step hs => hs.step step) ?_ steps hinv h
  intro n s step hs hdue
  split
  · exact hturn n s _ hs hdue
  · rename_i hother'
    exact hother n s step hs hother' hdue

theorem Inv.beginsWithin (h : Inv s) {dirty : Bool} (hqueued : .queued call dirty ∈ s.log) :
    BeginsWithin call 5 s := by
  rcases h with h | ⟨runner, h⟩
  · exact Or.inl (h.queued call dirty hqueued)
  · rcases h.queued call dirty hqueued with hwait | hdue | hbegun
    · refine Or.inr ⟨runner, h.runners, Or.inr ⟨hwait, ?_⟩⟩
      cases runner <;> simp [Runner.distance]
    · exact Or.inr ⟨runner, h.runners, Or.inl ⟨hdue, by omega⟩⟩
    · exact Or.inl hbegun

theorem Inv.marksWithin (h : Inv s) {newer older : List Entry}
    (hlog : s.log = newer ++ .scanEnded calls true :: older) (hdirty : Dirty older calls) :
    MarksWithin calls older 5 s := by
  refine ⟨newer, hlog, ?_⟩
  rcases h with h | ⟨runner, h⟩
  · exact Or.inl ((h.marks newer calls older hlog hdirty).resolve_right id)
  · rcases h.marks newer calls older hlog hdirty with hmem | hmarks
    · exact Or.inl hmem
    · cases runner with
      | scanned request calls' ended =>
        cases ended with
        | true =>
          cases hmarks
          obtain ⟨call, hcall, hqueued⟩ := hdirty
          refine Or.inr ⟨by omega, request, h.runners, h.ok.2 ⟨call, hcall, ?_⟩⟩
          rw [hlog]
          exact List.mem_append_right newer (List.mem_cons_of_mem _ hqueued)
        | false => cases hmarks
      | starting => cases hmarks
      | taking => cases hmarks
      | taken request calls' => cases hmarks
      | scanning request calls' => cases hmarks

theorem Inv.served {steps : List Step} (h : Inv s) (hturns : 5 ≤ turns steps) :
    Served s (steps.foldl next s) := by
  have hzero : 5 - turns steps = 0 := by omega
  constructor
  · intro call dirty hqueued
    have hdue := due_of_run (BeginsWithin call)
      (fun n s ok hs hdue => hdue.turn hs ok) (fun n s step hs hne hdue => hdue.other hs hne) steps h
      (h.beginsWithin hqueued)
    rw [hzero] at hdue
    rcases hdue with hbegun | ⟨runner, -, ⟨-, hn⟩ | ⟨-, hn⟩⟩
    · exact hbegun
    · omega
    · cases runner <;> simp [Runner.distance] at hn
  · intro newer calls older hlog hdirty
    have hdue := due_of_run (MarksWithin calls older)
      (fun n s ok _ hdue => hdue.turn ok) (fun n s step hs hne hdue => hdue.other hs hne) steps h
      (h.marksWithin hlog hdirty)
    rw [hzero] at hdue
    obtain ⟨later, hlater, hmem | ⟨hn, -⟩⟩ := hdue
    · exact ⟨later, hlater, hmem⟩
    · omega

end RenoP.Index.RebuildQueue
