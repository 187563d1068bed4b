import RenoP.Mail.Decisions

/-!
# Any number of mail workers

The steps of the workers one transaction at a time. A worker is at a phase of `worker.step`; it may
wait at each of them for any time, or end there.
-/

namespace RenoP.Mail

open RenoP.Database (Text)

inductive Outcome where
  | committed
  | lost
  | failed
  deriving DecidableEq

inductive Phase where
  | idle
  | leased (control : Control) (now : ℤ)
  | picked (control : Control) (now : ℤ) (job : Job)
  | saving (job : Job)
  | claiming (job : Job) (nextSendAt : ℤ)
  | submitting (job : Job)
  | completing
  | storing

structure Worker where
  phase : Phase
  pending : Option Completion
  recovered : Bool

def Worker.new : Worker := ⟨.idle, none, false⟩

def Worker.goto (w : Worker) (phase : Phase) : Worker := { w with phase := phase }

structure System where
  queue : Queue
  clock : ℤ
  workers : GoMap Text Worker
  /-- the owner names that workers have had -/
  owners : List Text
  begun : List Text
  submissions : List Text

def System.start (clock : ℤ) : System where
  queue := ⟨⟨[], 0, 0⟩, ∅⟩
  clock := clock
  workers := ∅
  owners := []
  begun := []
  submissions := []

inductive Action where
  | tick (now : ℤ)
  | queueMailJob (job : Job) (refused : Bool)
  | start (owner : Text)
  | crash (owner : Text)
  /-- the end of a worker that is shut down -/
  | release (owner : Text) (outcome : Outcome)
  | acquire (owner : Text) (outcome : Outcome)
  | recover (owner : Text) (outcome : Outcome)
  /-- an error, or work on other tables, ends the step -/
  | leave (owner : Text)
  | next (owner : Text)
  | process (owner : Text) (cfg : Config) (answers : Answers)
  | save (owner : Text) (outcome : Outcome)
  | submit (owner : Text) (cfg : Config) (reply : Reply)
  /-- `worker.complete` up to its transaction; a refund loads the account -/
  | complete (owner : Text) (account : Option AccountState)

def transact (outcome : Outcome) (q : Queue) (tx : Except TxError Queue) :
    Queue × Except TxError Unit :=
  match outcome, tx with
  | .failed, _ => (q, .error .database)
  | _, .error e => (q, .error e)
  | .committed, .ok q' => (q', .ok ())
  | .lost, .ok q' => (q', .error .database)

def System.put (s : System) (owner : Text) (w : Worker) : System :=
  { s with workers := s.workers.store owner w }

/-- A `SaveMailAttempt` with what its caller is told. -/
def System.saveMailAttempt (s : System) (owner : Text) (outcome : Outcome) (job : Job)
    (nextSendAt : ℤ) : System × Except TxError Unit :=
  let tx := s.queue.saveMailAttempt owner job nextSendAt
  let (queue, result) := transact outcome s.queue tx
  let stored := decide (outcome ≠ .failed) && tx.isOk && decide (job.status = .sending)
  ({ s with queue := queue, begun := if stored then job.id :: s.begun else s.begun }, result)

/-- The phase after `process`. A completion is kept until it is saved. -/
def Worker.decide (w : Worker) : Decision → Worker
  | .stop => w.goto .idle
  | .save job => w.goto (.saving job)
  | .claim job _ nextSendAt => w.goto (.claiming job nextSendAt)
  | .complete pending => { w with phase := .completing, pending := some pending }

def System.act (lib : Library) (s : System) (owner : Text) (w : Worker) : Action → System
  | .acquire _ outcome =>
    match w.phase, s.queue.acquireMailLease owner s.clock, outcome with
    | .idle, some queue, .committed =>
      { s with queue := queue }.put owner (w.goto (.leased queue.control s.clock))
    | .idle, some queue, .lost => { s with queue := queue }.put owner (w.goto .idle)
    | _, _, _ => s
  | .recover _ outcome =>
    match w.phase, w.pending with
    | .leased control now, none =>
      match transact outcome s.queue (s.queue.recoverMailAttempts owner now) with
      | (queue, .ok _) =>
        { s with queue := queue }.put owner
          { w with phase := .leased control now, recovered := true }
      | (queue, .error _) => { s with queue := queue }.put owner (w.goto .idle)
    | _, _ => s
  | .leave _ =>
    match w.phase, w.pending with
    | .leased _ _, none | .picked _ _ _, none => s.put owner (w.goto .idle)
    | _, _ => s
  | .next _ =>
    match w.phase, w.pending, w.recovered with
    | .leased control now, none, true =>
      match s.queue.nextMailJob now with
      | some job => s.put owner (w.goto (.picked control now job))
      | none => s.put owner (w.goto .idle)
    | _, _, _ => s
  | .process _ cfg answers =>
    match w.phase with
    | .picked control now job =>
      s.put owner (w.decide (Mail.process lib cfg answers s.clock control now job))
    | _ => s
  | .save _ outcome =>
    match w.phase, w.pending with
    | .saving job, _ => (s.saveMailAttempt owner outcome job 0).1.put owner (w.goto .idle)
    | .claiming job nextSendAt, _ =>
      match s.saveMailAttempt owner outcome job nextSendAt with
      | (s, .ok _) => s.put owner (w.goto (.submitting job))
      | (s, .error _) => s.put owner (w.goto .idle)
    | .storing, some pending =>
      match s.saveMailAttempt owner outcome pending.job pending.nextSendAt with
      | (s, .ok _) | (s, .error .finalized) =>
        s.put owner { w with phase := .idle, pending := none }
      | (s, .error _) => s.put owner (w.goto .idle)
    | _, _ => s
  | .submit _ cfg reply =>
    match w.phase with
    | .submitting job =>
      { s with submissions := job.id :: s.submissions }.put owner
        { w with phase := .completing, pending := some (submitted cfg s.clock job reply) }
    | _ => s
  | .complete _ account =>
    match w.phase, w.pending with
    | .leased _ _, some pending | .completing, some pending =>
      if pending.refund && account.isNone then s.put owner (w.goto .idle)
      else
        let pending := pending.prepared s.clock
        s.put owner { w with phase := .storing, pending := some pending }
    | _, _ => s
  | _ => s

def Action.owner : Action → Text
  | .tick _ | .queueMailJob _ _ => []
  | .start owner | .crash owner | .release owner _ | .acquire owner _ | .recover owner _
  | .leave owner | .next owner | .process owner _ _ | .save owner _ | .submit owner _ _
  | .complete owner _ => owner

def System.next (lib : Library) (s : System) (action : Action) : System :=
  match action with
  | .tick now => if s.clock ≤ now then { s with clock := now } else s
  | .queueMailJob job refused => { s with queue := s.queue.queueMailJob job refused }
  | .start owner =>
    if owner = [] ∨ owner ∈ s.owners then s
    else { s with workers := s.workers.store owner .new, owners := owner :: s.owners }
  | .crash owner => { s with workers := s.workers.delete owner }
  | .release owner outcome =>
    match s.workers.load owner with
    | some w =>
      match w.phase with
      | .idle =>
        { s with
          queue := if outcome = .failed then s.queue else s.queue.releaseMailLease owner
          workers := s.workers.delete owner }
      | _ => s
    | none => s
  | action =>
    match s.workers.load action.owner with
    | some w => s.act lib action.owner w action
    | none => s

end RenoP.Mail

/-!
## Rows of the mail queue

The jobs for which a submission was begun, against the status of their rows.
-/

namespace RenoP.Mail

open RenoP.Database (Text)
open Fallible (refuse_bind_ok)

structure Rows (jobs : GoMap Text Job) (begun submissions : List Text) : Prop where
  keyed : ∀ id row, jobs.load id = some row → row.id = id
  told : ∀ id row, jobs.load id = some row → Told row
  past : ∀ id row, jobs.load id = some row → id ∈ begun →
    row.status ≠ .queued ∧ row.status ≠ .paused
  known : ∀ id ∈ begun, jobs.has id = true
  first : ∀ id ∈ submissions, id ∈ begun
  once : submissions.Nodup

variable {jobs : GoMap Text Job} {begun submissions : List Text} {q q' : Queue} {owner : Text}
  {job row : Job} {now : ℤ}

theorem Rows.queueMailJob (h : Rows q.jobs begun submissions) (job : Job) (refused : Bool) :
    Rows (q.queueMailJob job refused).jobs begun submissions := by
  unfold Queue.queueMailJob
  split_ifs with hrefused
  · exact h
  · have hnew : q.jobs.has job.id = false := by
      rw [Bool.or_eq_true, not_or] at hrefused
      exact Bool.eq_false_iff.mpr hrefused.1
    have hmoves := GoMap.moves_store q.jobs job.id job.queued
    constructor
    · intro id row hrow
      rcases hmoves.cases hrow with ⟨hid, hqueued⟩ | ⟨-, hold⟩
      · cases hqueued
        exact hid.symm
      · exact h.keyed id row hold
    · intro id row hrow
      rcases hmoves.cases hrow with ⟨-, hqueued⟩ | ⟨-, hold⟩
      · cases hqueued
        exact @told_of_ne job.queued (by intro heq; cases heq)
      · exact h.told id row hold
    · intro id row hrow hbegun
      rcases hmoves.cases hrow with ⟨hid, -⟩ | ⟨-, hold⟩
      · rw [hid] at hbegun
        rw [h.known _ hbegun] at hnew
        cases hnew
      · exact h.past id row hold hbegun
    · intro id hbegun
      obtain ⟨row, hrow⟩ := (GoMap.has_eq_true _ _).mp (h.known id hbegun)
      rw [GoMap.has_eq_true]
      by_cases hid : id = job.id
      · exact ⟨job.queued, by rw [hmoves.load, if_pos hid]⟩
      · exact ⟨row, by rw [hmoves.load, if_neg hid]; exact hrow⟩
    · exact h.first
    · exact h.once

theorem Rows.recover (h : Rows jobs begun submissions) (now : ℤ) :
    Rows (jobs.updateWhere (fun _ row => decide (row.status = .sending)) fun _ row =>
      { row with status := .unknown, result := interruptedResult, updatedAt := now })
      begun submissions := by
  constructor
  · intro id row hrow
    rw [GoMap.load_updateWhere, Option.map_eq_some_iff] at hrow
    obtain ⟨row', hload, rfl⟩ := hrow
    split_ifs
    · exact h.keyed id row' hload
    · exact h.keyed id row' hload
  · intro id row hrow
    rw [GoMap.load_updateWhere, Option.map_eq_some_iff] at hrow
    obtain ⟨row', hload, rfl⟩ := hrow
    split_ifs
    · exact told_of_ne (by intro heq; cases heq)
    · exact h.told id row' hload
  · intro id row hrow hbegun
    rw [GoMap.load_updateWhere, Option.map_eq_some_iff] at hrow
    obtain ⟨row', hload, rfl⟩ := hrow
    split_ifs
    · exact ⟨(by intro heq; cases heq), (by intro heq; cases heq)⟩
    · exact h.past id row' hload hbegun
  · intro id hbegun
    rw [GoMap.has_updateWhere]
    exact h.known id hbegun
  · exact h.first
  · exact h.once

theorem Rows.store (h : Rows jobs begun submissions) (hrow : jobs.load job.id = some row)
    (htold : Told job)
    (hpast : job.id ∈ begun → job.status ≠ .queued ∧ job.status ≠ .paused) :
    Rows (jobs.store job.id (row.attempted job))
      (if job.status = .sending then job.id :: begun else begun) submissions := by
  have hmoves := GoMap.moves_store jobs job.id (row.attempted job)
  have hbegun : ∀ {id}, id ∈ (if job.status = .sending then job.id :: begun else begun) →
      id = job.id ∧ job.status = .sending ∨ id ∈ begun := by
    intro id hid
    split_ifs at hid with hsending
    · rcases List.mem_cons.mp hid with heq | hold
      · exact Or.inl ⟨heq, hsending⟩
      · exact Or.inr hold
    · exact Or.inr hid
  constructor
  · intro id row' hload
    rcases hmoves.cases hload with ⟨hid, hnew⟩ | ⟨-, hold⟩
    · cases hnew
      rw [hid]
      exact h.keyed job.id row hrow
    · exact h.keyed id row' hold
  · intro id row' hload
    rcases hmoves.cases hload with ⟨-, hnew⟩ | ⟨-, hold⟩
    · cases hnew
      exact htold
    · exact h.told id row' hold
  · intro id row' hload hid
    rcases hmoves.cases hload with ⟨hkey, hnew⟩ | ⟨hkey, hold⟩
    · cases hnew
      show job.status ≠ .queued ∧ job.status ≠ .paused
      rcases hbegun hid with ⟨-, hsending⟩ | hin
      · rw [hsending]
        decide
      · rw [hkey] at hin
        exact hpast hin
    · rcases hbegun hid with ⟨heq, -⟩ | hin
      · exact absurd heq hkey
      · exact h.past id row' hold hin
  · intro id hid
    rw [GoMap.has_eq_true]
    by_cases hkey : id = job.id
    · exact ⟨row.attempted job, by rw [hmoves.load, if_pos hkey]⟩
    · rcases hbegun hid with ⟨heq, -⟩ | hin
      · exact absurd heq hkey
      · obtain ⟨row', hload⟩ := (GoMap.has_eq_true _ _).mp (h.known id hin)
        exact ⟨row', by rw [hmoves.load, if_neg hkey]; exact hload⟩
  · intro id hid
    have hin := h.first id hid
    split_ifs
    · exact List.mem_cons_of_mem _ hin
    · exact hin
  · exact h.once

theorem nextMailJob_row (h : Rows q.jobs begun submissions)
    (hnext : q.nextMailJob now = some job) :
    q.jobs.load job.id = some job ∧
      (job.status = .queued ∨ job.status = .paused ∨ job.status = .checking) := by
  unfold Queue.nextMailJob at hnext
  obtain ⟨row, hfind, hscanned⟩ := Option.map_eq_some_iff.mp hnext
  obtain ⟨hmem, hdue⟩ := List.mem_filter.mp (List.mem_of_find?_eq_some hfind)
  obtain ⟨e, he, hrow⟩ := List.mem_map.mp hmem
  have hload : q.jobs.load e.1 = some row := by
    rw [← hrow]
    exact (GoMap.mem_entries_iff _ _ _).mp he
  have hstatus : row.status = .queued ∨ row.status = .paused ∨ row.status = .checking := by
    unfold Job.due at hdue
    simp only [Bool.and_eq_true, Bool.or_eq_true, decide_eq_true_eq, or_assoc] at hdue
    exact hdue.1
  have hsame : row.scanned = row := by
    unfold Job.scanned
    rw [if_neg]
    rintro ⟨hprovider, -⟩
    rw [hprovider] at hstatus
    rcases hstatus with heq | heq | heq <;> cases heq
  rw [hsame] at hscanned
  cases hscanned
  rw [h.keyed e.1 _ hload]
  exact ⟨hload, hstatus⟩

theorem queue_saveMailAttempt_ok {nextSendAt : ℤ}
    (h : q.saveMailAttempt owner job nextSendAt = .ok q') :
    q.control.owner = owner ∧ q'.control.owner = owner ∧
      ∃ row, q.jobs.load job.id = some row ∧
        q'.jobs = q.jobs.store job.id (row.attempted job) := by
  unfold Queue.saveMailAttempt Queue.requireMailLeaseTx at h
  obtain ⟨-, h⟩ := refuse_bind_ok h
  obtain ⟨hlease, h⟩ := refuse_bind_ok h
  have howner : q.control.owner = owner := not_not.mp (not_or.mp hlease).1
  cases hload : q.jobs.load job.id with
  | none =>
    rw [hload] at h
    cases h
  | some row =>
    rw [hload] at h
    obtain ⟨-, h⟩ := refuse_bind_ok h
    cases h
    refine ⟨howner, ?_, row, rfl, rfl⟩
    dsimp only
    split_ifs
    · exact howner
    · exact howner

structure Stored (s : System) (owner : Text) (job : Job) (s' : System) : Prop where
  lease : s.queue.control.owner = owner
  after : s'.queue.control.owner = owner
  row : ∃ row, s.queue.jobs.load job.id = some row ∧
    s'.queue.jobs = s.queue.jobs.store job.id (row.attempted job)
  begun : s'.begun = if job.status = .sending then job.id :: s.begun else s.begun
  workers : s'.workers = s.workers
  submissions : s'.submissions = s.submissions

theorem saveMailAttempt_spec (s : System) (owner : Text) (outcome : Outcome) (job : Job)
    (nextSendAt : ℤ) :
    if outcome ≠ .failed ∧ (s.queue.saveMailAttempt owner job nextSendAt).isOk = true then
      Stored s owner job (s.saveMailAttempt owner outcome job nextSendAt).1
    else (s.saveMailAttempt owner outcome job nextSendAt).1 = s ∧
      ∀ u, (s.saveMailAttempt owner outcome job nextSendAt).2 ≠ .ok u := by
  unfold System.saveMailAttempt transact
  cases htx : s.queue.saveMailAttempt owner job nextSendAt with
  | error e =>
    rw [if_neg (fun h => Bool.noConfusion h.2)]
    cases outcome with
    | committed => exact ⟨rfl, by intro u h; cases h⟩
    | lost => exact ⟨rfl, by intro u h; cases h⟩
    | failed => exact ⟨rfl, by intro u h; cases h⟩
  | ok q' =>
    obtain ⟨hlease, hafter, hrow⟩ := queue_saveMailAttempt_ok htx
    have hbegun : ∀ o : Outcome, o ≠ .failed →
        (if (decide (o ≠ .failed) && (Except.ok q' : Except TxError Queue).isOk &&
          decide (job.status = .sending)) = true then job.id :: s.begun else s.begun) =
          if job.status = .sending then job.id :: s.begun else s.begun := by
      intro o ho
      rw [decide_eq_true ho]
      simp only [Except.isOk, Except.toBool, Bool.and_self, Bool.true_and, decide_eq_true_eq]
    cases outcome with
    | failed =>
      rw [if_neg (fun h => h.1 rfl)]
      exact ⟨rfl, by intro u h; cases h⟩
    | committed =>
      rw [if_pos ⟨by decide, rfl⟩]
      exact ⟨hlease, hafter, hrow, hbegun .committed (by decide), rfl, rfl⟩
    | lost =>
      rw [if_pos ⟨by decide, rfl⟩]
      exact ⟨hlease, hafter, hrow, hbegun .lost (by decide), rfl, rfl⟩

theorem saveMailAttempt_cases (s : System) (owner : Text) (outcome : Outcome) (job : Job)
    (nextSendAt : ℤ) :
    ((s.saveMailAttempt owner outcome job nextSendAt).1 = s ∧
        ∀ u, (s.saveMailAttempt owner outcome job nextSendAt).2 ≠ .ok u) ∨
      Stored s owner job (s.saveMailAttempt owner outcome job nextSendAt).1 := by
  have hspec := saveMailAttempt_spec s owner outcome job nextSendAt
  split_ifs at hspec
  · exact Or.inr hspec
  · exact Or.inl hspec

end RenoP.Mail
