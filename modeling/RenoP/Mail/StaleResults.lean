import RenoP.Mail.Submission
import RenoP.Lib.Runs

/-!
# Results that are stored late

A completion that could not be stored is kept, and stored after other workers have had the lease.
-/

namespace RenoP.Mail

open RenoP.Database (Text)

/-- What a completion was decided from: neither a submission nor a check, or one of these. -/
inductive Origin where
  | prepared
  | checked
  | submitted
  deriving DecidableEq

def System.decides (s : System) (action : Action) : Option Origin :=
  match action, (s.workers.load action.owner).map Worker.phase with
  | .process _ _ answers, some (.picked _ _ job) =>
    some (if job.status = .checking ∧ answers.lookup.isSome then .checked else .prepared)
  | .submit _ _ _, some (.submitting _) => some .submitted
  | _, _ => none

def System.stores (s : System) (action : Action) : Option Completion :=
  match action, s.workers.load action.owner with
  | .save owner outcome, some ⟨.storing, some pending, _⟩ =>
    if outcome ≠ .failed ∧
        (s.queue.saveMailAttempt owner pending.job pending.nextSendAt).isOk = true then
      some pending
    else none
  | _, _ => none

/-- Beside the system, the origin of the completion that a worker has, and of the one stored last
for a job. -/
structure Traced where
  sys : System
  origin : Text → Origin
  source : Text → Option Origin

def Traced.start (clock : ℤ) : Traced := ⟨System.start clock, fun _ => .prepared, fun _ => none⟩

def Traced.next (lib : Library) (t : Traced) (action : Action) : Traced where
  sys := t.sys.next lib action
  origin := match t.sys.decides action with
    | some origin => Function.update t.origin action.owner origin
    | none => t.origin
  source := match t.sys.stores action with
    | some pending => Function.update t.source pending.job.id (some (t.origin action.owner))
    | none => t.source

/-- A job given to a provider ends as the submission or a check of it says, or unknown. -/
def Truthful (t : Traced) : Prop :=
  ∀ id ∈ t.sys.submissions, ∀ row ∈ t.sys.queue.jobs.load id, row.open = false →
    row.status = .unknown ∨ t.source id = some .checked ∨ t.source id = some .submitted

/-- What was decided before any submission is stored in a row that none was begun for. -/
def Fresh (t : Traced) (action : Action) : Prop :=
  ∀ pending ∈ t.sys.stores action, t.origin action.owner = .prepared →
    pending.job.status ≠ .unknown → ∀ row ∈ t.sys.queue.jobs.load pending.job.id,
      row.status = .queued ∨ row.status = .paused

instance decidableTruthful (t : Traced) : Decidable (Truthful t) :=
  inferInstanceAs (Decidable (∀ id ∈ t.sys.submissions, ∀ row ∈ t.sys.queue.jobs.load id, _))

instance decidableFresh (t : Traced) (action : Action) : Decidable (Fresh t action) :=
  inferInstanceAs (Decidable (∀ pending ∈ t.sys.stores action, _))

def Settled (jobs : GoMap Text Job) (begun : List Text) (source : Text → Option Origin) : Prop :=
  ∀ id row, jobs.load id = some row → row.open = false →
    row.status = .unknown ∨ ∃ o, source id = some o ∧ (o = .prepared → id ∉ begun)

variable {q : Queue} {jobs : GoMap Text Job} {begun : List Text} {source source' : Text → Option Origin}
  {job row : Job} {s : System} {t : Traced} {owner : Text} {w : Worker}

theorem Settled.queueMailJob (h : Settled q.jobs begun source) (job : Job) (refused : Bool) :
    Settled (q.queueMailJob job refused).jobs begun source := by
  unfold Queue.queueMailJob
  split_ifs
  · exact h
  · intro id row hload hclosed
    rcases (GoMap.moves_store q.jobs job.id job.queued).cases hload with ⟨-, hnew⟩ | ⟨-, hold⟩
    · cases hnew
      cases hclosed
    · exact h id row hold hclosed

theorem Settled.recover (h : Settled jobs begun source) (now : ℤ) :
    Settled (jobs.updateWhere (fun _ row => decide (row.status = .sending)) fun _ row =>
      { row with status := .unknown, result := interruptedResult, updatedAt := now })
      begun source := by
  intro id row hload hclosed
  rw [GoMap.load_updateWhere, Option.map_eq_some_iff] at hload
  obtain ⟨old, hold, rfl⟩ := hload
  split_ifs at hclosed ⊢
  · exact Or.inl rfl
  · exact h id old hold hclosed

theorem Settled.store (h : Settled jobs begun source)
    (hsource : ∀ id, id ≠ job.id → source' id = source id)
    (hnew : job.open = false →
      job.status = .unknown ∨ ∃ o, source' job.id = some o ∧ (o = .prepared → job.id ∉ begun)) :
    Settled (jobs.store job.id (row.attempted job))
      (if job.status = .sending then job.id :: begun else begun) source' := by
  intro id row' hload hclosed
  rcases (GoMap.moves_store jobs job.id (row.attempted job)).cases hload with
    ⟨rfl, heq⟩ | ⟨hid, hold⟩
  · cases heq
    have hne : job.status ≠ .sending := by
      intro hsending
      replace hclosed : job.open = false := hclosed
      unfold Job.open at hclosed
      rw [hsending] at hclosed
      cases hclosed
    rw [if_neg hne]
    exact hnew hclosed
  · rcases h id row' hold hclosed with hunknown | ⟨o, ho, hfree⟩
    · exact Or.inl hunknown
    · refine Or.inr ⟨o, (hsource id hid).trans ho, fun hprepared hbegun => ?_⟩
      split_ifs at hbegun
      · rcases List.mem_cons.mp hbegun with heq | hin
        · exact hid heq
        · exact hfree hprepared hin
      · exact hfree hprepared hbegun

def Phase.Working : Phase → Prop
  | .picked _ _ job | .saving job =>
    job.status = .queued ∨ job.status = .paused ∨ job.status = .checking
  | .claiming job _ => job.status = .sending
  | _ => True

abbrev Working (s : System) : Prop := GoMap.All (fun w => w.phase.Working) s.workers

theorem open_of_working
    (h : job.status = .queued ∨ job.status = .paused ∨ job.status = .checking) :
    job.open = true := by
  unfold Job.open
  rcases h with h | h | h <;> rw [h] <;> rfl

theorem Working.process (h : Working s) (lib : Library) (hsafe : Safe s)
    (hw : s.workers.load owner = some w) (cfg : Config) (answers : Answers) :
    Working (s.act lib owner w (.process owner cfg answers)) := by
  simp only [System.act]
  split
  · rename_i control now job hphase
    have hready := (hsafe.ready owner w hw).phase
    have hworking := h owner w hw
    rw [hphase] at hready hworking
    have hsound := @process_sound lib cfg answers s.clock now control job hready.1
    apply GoMap.All.store h
    cases hdecision : Mail.process lib cfg answers s.clock control now job with
    | stop => trivial
    | complete pending => trivial
    | save j =>
      rw [hdecision] at hsound
      obtain ⟨-, -, hsame | ⟨-, hpaused⟩⟩ := hsound
      · show j.status = .queued ∨ j.status = .paused ∨ j.status = .checking
        rw [hsame]
        exact hworking
      · exact Or.inr (Or.inl hpaused)
    | claim j state nextSendAt =>
      rw [hdecision] at hsound
      exact hsound.2.2
  · exact h

theorem Working.act (h : Working s) (lib : Library) (hsafe : Safe s)
    (hw : s.workers.load owner = some w) (action : Action) :
    Working (s.act lib owner w action) := by
  have hput : ∀ {s' : System} {w' : Worker}, s'.workers = s.workers → w'.phase.Working →
      Working (s'.put owner w') := by
    intro s' w' hsame hw'
    show GoMap.All _ (s'.workers.store owner w')
    rw [hsame]
    exact GoMap.All.store h owner hw'
  cases action with
  | process _ cfg answers => exact h.process lib hsafe hw cfg answers
  | next _ =>
    simp only [System.act]
    split
    · split
      · rename_i job hnext
        exact hput rfl (nextMailJob_row hsafe.rows hnext).2
      · exact hput rfl trivial
    · exact h
  | save _ outcome =>
    have hsaved : ∀ {job nextSendAt s' r} {w' : Worker},
        s.saveMailAttempt owner outcome job nextSendAt = (s', r) → w'.phase.Working →
        Working (s'.put owner w') :=
      fun hsave => hput (congrArg (fun r => r.1.workers) hsave).symm
    simp only [System.act]
    split
    · exact hput rfl trivial
    · split
      · exact hsaved ‹_› trivial
      · exact hsaved ‹_› trivial
    · split
      · exact hsaved ‹_› trivial
      · exact hsaved ‹_› trivial
      · exact hsaved ‹_› trivial
    · exact h
  | _ =>
    simp only [System.act]
    repeat' split
    all_goals first
      | exact h
      | exact hput rfl trivial

theorem Working.next (h : Working s) (lib : Library) (hsafe : Safe s) (action : Action) :
    Working (s.next lib action) := by
  have hact : action.ofWorker → Working (s.next lib action) := by
    intro hworker
    rcases next_cases lib s hworker with ⟨w, hw, heq⟩ | ⟨-, heq⟩
    · rw [heq]
      exact h.act lib hsafe hw action
    · rw [heq]
      exact h
  cases action with
  | tick now =>
    simp only [System.next]
    split_ifs <;> exact h
  | queueMailJob job refused => exact h
  | start owner =>
    simp only [System.next]
    split_ifs
    · exact h
    · exact GoMap.All.store h owner trivial
  | crash owner => exact GoMap.All.delete h owner
  | release owner outcome =>
    simp only [System.next]
    repeat' split
    all_goals first
      | exact h
      | exact GoMap.All.delete h owner
  | _ => exact hact trivial

structure Traced.Ok (t : Traced) : Prop where
  safe : Safe t.sys
  working : Working t.sys
  settled : Settled t.sys.queue.jobs t.sys.begun t.source

theorem Settled.save (h : Settled s.queue.jobs s.begun source) (hopen : job.open = true)
    (outcome : Outcome) (nextSendAt : ℤ) :
    Settled (s.saveMailAttempt owner outcome job nextSendAt).1.queue.jobs
      (s.saveMailAttempt owner outcome job nextSendAt).1.begun source := by
  rcases saveMailAttempt_cases s owner outcome job nextSendAt with ⟨hsame, -⟩ | hstored
  · rw [hsame]
    exact h
  · obtain ⟨row, -, hjobs⟩ := hstored.row
    rw [hjobs, hstored.begun]
    refine h.store (fun _ _ => rfl) fun hclosed => ?_
    rw [hopen] at hclosed
    cases hclosed

theorem Traced.Ok.store (h : t.Ok) {pending : Completion} {recovered : Bool}
    (hw : t.sys.workers.load owner = some ⟨.storing, some pending, recovered⟩) (outcome : Outcome)
    (hfresh : Fresh t (.save owner outcome)) {lib : Library} :
    Settled (t.sys.saveMailAttempt owner outcome pending.job pending.nextSendAt).1.queue.jobs
      (t.sys.saveMailAttempt owner outcome pending.job pending.nextSendAt).1.begun
      (t.next lib (.save owner outcome)).source := by
  have hspec := saveMailAttempt_spec t.sys owner outcome pending.job pending.nextSendAt
  by_cases hcommitted : outcome ≠ .failed ∧
      (t.sys.queue.saveMailAttempt owner pending.job pending.nextSendAt).isOk = true
  · rw [if_pos hcommitted] at hspec
    have hstores : t.sys.stores (.save owner outcome) = some pending := by
      simp only [System.stores, Action.owner, hw]
      rw [if_pos hcommitted]
    have hsource : (t.next lib (.save owner outcome)).source =
        Function.update t.source pending.job.id (some (t.origin owner)) := by
      simp only [Traced.next, hstores, Action.owner]
    obtain ⟨row, hrow, hjobs⟩ := hspec.row
    rw [hjobs, hspec.begun, hsource]
    apply h.settled.store fun id hid => Function.update_of_ne hid ..
    intro _
    by_cases hunknown : pending.job.status = .unknown
    · exact Or.inl hunknown
    · refine Or.inr ⟨_, Function.update_self .., fun hprepared hbegun => ?_⟩
      have hpast := h.safe.rows.past _ row hrow hbegun
      rcases hfresh pending hstores hprepared hunknown row hrow with heq | heq
      · exact hpast.1 heq
      · exact hpast.2 heq
  · rw [if_neg hcommitted] at hspec
    have hsource : (t.next lib (.save owner outcome)).source = t.source := by
      simp only [Traced.next, System.stores, Action.owner, hw]
      rw [if_neg hcommitted]
    rw [hspec.1, hsource]
    exact h.settled

theorem Traced.Ok.act_save (h : t.Ok) (lib : Library) (hw : t.sys.workers.load owner = some w)
    (outcome : Outcome) (hfresh : Fresh t (.save owner outcome)) :
    Settled (t.sys.act lib owner w (.save owner outcome)).queue.jobs
      (t.sys.act lib owner w (.save owner outcome)).begun
      (t.next lib (.save owner outcome)).source := by
  have hworking := h.working owner w hw
  have hsaves : ∀ {job nextSendAt source s' r} (w' : Worker),
      Settled (t.sys.saveMailAttempt owner outcome job nextSendAt).1.queue.jobs
        (t.sys.saveMailAttempt owner outcome job nextSendAt).1.begun source →
      t.sys.saveMailAttempt owner outcome job nextSendAt = (s', r) →
      Settled (s'.put owner w').queue.jobs (s'.put owner w').begun source := by
    intro job nextSendAt source s' r w' hsettled hsave
    rw [hsave] at hsettled
    exact hsettled
  obtain ⟨phase, kept, recovered⟩ := w
  have hsource : (∀ pending, phase = .storing → kept = some pending → False) →
      (t.next lib (.save owner outcome)).source = t.source := by
    intro hother
    have hstores : t.sys.stores (.save owner outcome) = none := by
      simp only [System.stores, Action.owner, hw]
      split
      · rename_i heq
        cases heq
        exact (hother _ rfl rfl).elim
      · rfl
    simp only [Traced.next, hstores]
  simp only [System.act]
  split
  · rw [hsource fun _ hstoring => Phase.noConfusion hstoring]
    exact h.settled.save (open_of_working hworking) outcome 0
  · rename_i job nextSendAt
    have hopen : job.open = true := by
      unfold Job.open
      rw [show job.status = .sending from hworking]
      rfl
    rw [hsource fun _ hstoring => Phase.noConfusion hstoring]
    split
    · exact hsaves _ (h.settled.save hopen outcome nextSendAt) ‹_›
    · exact hsaves _ (h.settled.save hopen outcome nextSendAt) ‹_›
  · have hsettled := @Traced.Ok.store t owner h _ _ hw outcome hfresh lib
    split
    · exact hsaves _ hsettled ‹_›
    · exact hsaves _ hsettled ‹_›
    · exact hsaves _ hsettled ‹_›
  · rename_i hother
    rw [hsource hother]
    exact h.settled

theorem Traced.Ok.act (h : t.Ok) (lib : Library) {action : Action}
    (hw : t.sys.workers.load action.owner = some w) (hfresh : Fresh t action) :
    Settled (t.sys.act lib action.owner w action).queue.jobs
      (t.sys.act lib action.owner w action).begun (t.next lib action).source := by
  cases action with
  | save owner outcome => exact h.act_save lib hw outcome hfresh
  | acquire owner outcome =>
    simp only [System.act]
    split
    · rename_i hacquire
      exact (acquireMailLease_some hacquire).1 ▸ h.settled
    · rename_i hacquire
      exact (acquireMailLease_some hacquire).1 ▸ h.settled
    · exact h.settled
  | recover owner outcome =>
    have hqueue : ∀ {now : ℤ} {q r}, transact outcome t.sys.queue
        (t.sys.queue.recoverMailAttempts owner now) = (q, r) →
        Settled q.jobs t.sys.begun t.source := by
      intro now q r htransact
      rcases transact_cases outcome t.sys.queue (t.sys.queue.recoverMailAttempts owner now) with
        hsame | ⟨q', hq, happlied⟩
      · rw [htransact] at hsame
        cases hsame
        exact h.settled
      · rw [htransact] at happlied
        cases happlied
        unfold Queue.recoverMailAttempts at hq
        obtain ⟨u, -, hq⟩ := Fallible.bind_ok hq
        cases hq
        exact h.settled.recover now
    simp only [System.act]
    split
    · split
      · exact hqueue ‹_›
      · exact hqueue ‹_›
    · exact h.settled
  | _ =>
    simp only [System.act]
    repeat' split
    all_goals exact h.settled

theorem Traced.Ok.next (h : t.Ok) (lib : Library) (action : Action) (hfresh : Fresh t action) :
    (t.next lib action).Ok := by
  refine ⟨h.safe.next lib action, h.working.next lib h.safe action, ?_⟩
  have hact : action.ofWorker → Settled (t.sys.next lib action).queue.jobs
      (t.sys.next lib action).begun (t.next lib action).source := by
    intro hworker
    rcases next_cases lib t.sys hworker with ⟨w, hw, heq⟩ | ⟨hw, heq⟩
    · rw [heq]
      exact h.act lib hw hfresh
    · have hstores : t.sys.stores action = none := by
        unfold System.stores
        rw [hw]
        cases action <;> rfl
      rw [heq]
      simp only [Traced.next, hstores]
      exact h.settled
  cases action with
  | tick now =>
    simp only [Traced.next, System.next]
    split_ifs <;> exact h.settled
  | queueMailJob job refused => exact h.settled.queueMailJob job refused
  | start owner =>
    simp only [Traced.next, System.next]
    split_ifs <;> exact h.settled
  | crash owner => exact h.settled
  | release owner outcome =>
    show Settled (t.sys.next lib (.release owner outcome)).queue.jobs
      (t.sys.next lib (.release owner outcome)).begun t.source
    simp only [System.next, Queue.releaseMailLease]
    repeat' split
    all_goals exact h.settled
  | _ => exact hact trivial

theorem ok_start (clock : ℤ) : (Traced.start clock).Ok := by
  refine ⟨safe_start clock, GoMap.all_empty, ?_⟩
  intro id row hload
  cases (GoMap.load_empty id).symm.trans hload

theorem Traced.Ok.truthful (h : t.Ok) : Truthful t := by
  intro id hid row hload hclosed
  rcases h.settled id row hload hclosed with hunknown | ⟨o, ho, hfree⟩
  · exact Or.inl hunknown
  · right
    cases o with
    | prepared => exact absurd (h.safe.rows.first id hid) (hfree rfl)
    | checked => exact Or.inl ho
    | submitted => exact Or.inr ho

/-- Whatever workers do and whatever fails, a job that was submitted ends as the submission or a
check of it says or unknown, as long as what was decided before is stored in time. -/
theorem stale_results_truthful (lib : Library) (clock : ℤ) {actions : List Action}
    (hfresh : Runs.Along (Traced.next lib) Fresh (Traced.start clock) actions) :
    Runs.Through (Traced.next lib) Truthful (Traced.start clock) actions :=
  Runs.Along.through (fun _ => Traced.Ok.truthful)
    (fun _ action h hf => h.next lib action hf) (ok_start clock) hfresh

def smtpConfig : Config where
  accounts := [{
    id := ['a']
    enabled := true
    accessToken := ['t']
    clientId := []
    credits := ⟨"smtp".toList, [], [], [], [], [], ⟨0, .month⟩, false, ⟨0, .month⟩,
      ⟨"USD".toList, .proportional, []⟩, none, false, []⟩ }]
  accountRate := ⟨50, 60000⟩
  delay := 5000
  calibration := 0

def welcome : Job :=
  ⟨['j'], ['a'], [], "test".toList, .empty, 100, 0, 0, 86400000, 0, ⟨[], [], []⟩, .empty, .empty⟩

def freshAnswers : Answers := ⟨true, none, none, none, some .empty, none, false, none⟩

def unprepared : List Action :=
  [.queueMailJob welcome false, .start ['w'], .acquire ['w'] .committed,
    .recover ['w'] .committed, .next ['w'], .process ['w'] smtpConfig freshAnswers,
    .complete ['w'] none, .save ['w'] .failed]

def takenOver : List Action :=
  [.tick 100000, .start ['v'], .acquire ['v'] .committed, .recover ['v'] .committed, .next ['v'],
    .process ['v'] smtpConfig { freshAnswers with credentials := some false },
    .save ['v'] .committed, .submit ['v'] smtpConfig (.taken [] false true), .complete ['v'] none,
    .save ['v'] .committed]

def retried : List Action :=
  [.tick 200000, .acquire ['w'] .committed, .complete ['w'] none, .save ['w'] .committed]

abbrev library : Library := ⟨id, fun s t => s == t⟩

theorem stale_failure_stored :
    ¬Runs.Through (Traced.next library) Truthful (Traced.start 200)
      (unprepared ++ takenOver ++ retried) := by
  intro hthrough
  exact absurd hthrough.last (by decide +kernel)

def lookedUp : List Action :=
  [.tick 110000, .acquire ['v'] .committed, .next ['v'],
    .process ['v'] smtpConfig
      { freshAnswers with
        credentials := some false, lookup := some ⟨some .delivered, [], [], false, false⟩ },
    .complete ['v'] none, .save ['v'] .committed]

theorem lookup_stored :
    Runs.Through (Traced.next library) Truthful (Traced.start 200)
      (unprepared ++ takenOver ++ lookedUp ++ retried) :=
  stale_results_truthful library 200 (by decide +kernel)

end RenoP.Mail
