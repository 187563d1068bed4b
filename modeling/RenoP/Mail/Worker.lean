import Mathlib.Data.Char
import Mathlib.Data.List.Lex
import RenoP.Mail.Accounting

/-!
# Mail queue

The durable queue, `internal/database/mail.go`: the lease of the worker and the rows of
`mail_jobs`. Every function here is one transaction.
-/

namespace RenoP.Mail

open RenoP.Database (Text)
open Fallible (refuse)

inductive Status where
  | empty
  | queued
  | paused
  | sending
  | checking
  | accepted
  | sent
  | delivered
  | failed
  | unknown
  | expired
  | cancelled
  | queuedProvider
  deriving DecidableEq

structure Message where
  recipient : Text
  text : Text
  html : Text

structure Result where
  messageId : Text
  status : Status
  code : Text
  detail : Text
  check : Bool
  notCharged : Bool

def Result.empty : Result := ⟨[], .empty, [], [], false, false⟩

def Reservation.empty : Reservation :=
  ⟨fun _ => none, 0, false, false, false, 0, none, []⟩

structure Job where
  id : Text
  accountId : Text
  userId : Text
  scene : Text
  status : Status
  createdAt : ℤ
  updatedAt : ℤ
  nextAt : ℤ
  expiresAt : ℤ
  checks : ℤ
  message : Message
  result : Result
  reservation : Reservation

structure Control where
  owner : Text
  leaseUntil : ℤ
  nextSendAt : ℤ

structure Queue where
  control : Control
  jobs : GoMap Text Job

inductive TxError where
  | invalid
  | leaseLost
  | finalized
  | database
  deriving DecidableEq

def leaseMs : ℤ := 90000

/-- `AcquireMailLease`; no value is a lease that another owner holds, or an invalid owner. -/
def Queue.acquireMailLease (q : Queue) (owner : Text) (now : ℤ) : Option Queue :=
  if owner = [] ∨ 64 < owner.length then none
  else if q.control.owner ≠ owner ∧ now < q.control.leaseUntil then none
  else some { q with control := { q.control with owner := owner, leaseUntil := now + leaseMs } }

def Queue.releaseMailLease (q : Queue) (owner : Text) : Queue :=
  if q.control.owner = owner then
    { q with control := { q.control with owner := [], leaseUntil := 0 } }
  else q

def Queue.requireMailLeaseTx (q : Queue) (owner : Text) (now : ℤ) : Except TxError Unit :=
  refuse (q.control.owner ≠ owner ∨ q.control.leaseUntil ≤ now) .leaseLost

def Job.queued (job : Job) : Job :=
  { job with
    status := .queued
    updatedAt := job.createdAt
    nextAt := job.createdAt
    checks := 0
    result := .empty
    reservation := .empty }

/-- `QueueMailJob`, whose bounds may refuse the job. -/
def Queue.queueMailJob (q : Queue) (job : Job) (refused : Bool) : Queue :=
  if q.jobs.has job.id || refused then q
  else { q with jobs := q.jobs.store job.id job.queued }

def Job.scanned (job : Job) : Job :=
  if job.status = .queuedProvider ∧ job.result.check = false then
    { job with status := .accepted, result := { job.result with status := .accepted } }
  else job

def Job.due (now : ℤ) (job : Job) : Bool :=
  (decide (job.status = .queued) || decide (job.status = .paused) ||
    decide (job.status = .checking)) && (decide (job.nextAt ≤ now) || decide (job.expiresAt ≤ now))

def Job.before (j k : Job) : Bool :=
  decide (j.nextAt < k.nextAt) || decide (j.nextAt = k.nextAt) &&
    (decide (j.createdAt < k.createdAt) ||
      decide (j.createdAt = k.createdAt) && decide (j.id ≤ k.id))

def Queue.nextMailJob (q : Queue) (now : ℤ) : Option Job :=
  let due := (q.jobs.entries.map fun e => e.2).filter (Job.due now)
  (due.find? fun j => due.all (Job.before j)).map Job.scanned

def interruptedCode : Text := "mail_submission_interrupted".toList

/-- The search of `"mail_submission_interrupted"` in a result: a value of its document ends with
the code after a quotation mark. -/
def Result.interrupted (r : Result) : Bool :=
  [r.messageId, r.code, r.detail].any fun value =>
    ('"' :: interruptedCode).isSuffixOf ('"' :: value)

def Job.open (job : Job) : Bool :=
  decide (job.status = .queued) || decide (job.status = .paused) ||
    decide (job.status = .sending) || decide (job.status = .checking) ||
    decide (job.status = .unknown) && job.result.interrupted

def Job.attempted (row job : Job) : Job :=
  { row with
    status := job.status
    message := job.message
    reservation := job.reservation
    result := job.result
    checks := job.checks
    updatedAt := job.updatedAt
    nextAt := job.nextAt }

/-- `SaveMailAttempt`. The state of the account that it may save is in another table. -/
def Queue.saveMailAttempt (q : Queue) (owner : Text) (job : Job) (nextSendAt : ℤ) :
    Except TxError Queue := do
  refuse (job.status = .empty) .invalid
  q.requireMailLeaseTx owner job.updatedAt
  match q.jobs.load job.id with
  | none => .error .finalized
  | some row => do
    refuse (row.open = false) .finalized
    return {
      control := if 0 < nextSendAt then { q.control with nextSendAt := nextSendAt } else q.control
      jobs := q.jobs.store job.id (row.attempted job) }

def interruptedResult : Result := { Result.empty with status := .unknown, code := interruptedCode }

def Queue.recoverMailAttempts (q : Queue) (owner : Text) (now : ℤ) : Except TxError Queue := do
  q.requireMailLeaseTx owner now
  return { q with
    jobs := q.jobs.updateWhere (fun _ row => decide (row.status = .sending)) fun _ row =>
      { row with status := .unknown, result := interruptedResult, updatedAt := now } }

end RenoP.Mail

/-!
## Mail worker

What a worker decides about a job, `worker.process` of
`internal/service/mailqueue/worker.go`. What it asks the provider, the other tables and the rules
for recipients is given with the call.
-/

namespace RenoP.Mail

open RenoP.Database (Text)
open Fallible (refuse)

structure Sender where
  id : Text
  enabled : Bool
  accessToken : Text
  clientId : Text
  credits : Account

structure Config where
  accounts : List Sender
  accountRate : Rate
  delay : ℤ
  calibration : ℤ

inductive Delivery where
  | accepted
  | sent
  | delivered
  | failed
  deriving DecidableEq

def Delivery.status : Delivery → Status
  | .accepted => .accepted
  | .sent => .sent
  | .delivered => .delivered
  | .failed => .failed

/-- What `Check` finds: a new outcome or none, with the other fields of the result. -/
structure Lookup where
  outcome : Option Delivery
  code : Text
  detail : Text
  check : Bool
  notCharged : Bool

/-- What the worker is told while it processes a job; no value is an error. -/
structure Answers where
  allows : Bool
  /-- `GetUserProfileByID`: the name -/
  profile : Option (Option Text)
  /-- `GetTokenByName`: the time of deletion -/
  token : Option (Option ℤ)
  /-- `GetAccountSecurity`: the address -/
  security : Option (Option Text)
  account : Option AccountState
  /-- `PrepareToken`: whether the credentials have changed -/
  credentials : Option Bool
  /-- `SaveMailAccount` of changed credentials -/
  credentialsSaved : Bool
  lookup : Option Lookup

structure Completion where
  job : Job
  account : Option AccountState
  refund : Bool
  reservation : Reservation
  nextSendAt : ℤ

inductive Decision where
  | stop
  | save (job : Job)
  /-- save the job, then submit it -/
  | claim (job : Job) (state : AccountState) (nextSendAt : ℤ)
  | complete (pending : Completion)

def secondMs : ℤ := 1000
def minuteMs : ℤ := 60 * secondMs

def finish (job : Job) (status : Status) (code : Text) (refund : Bool) : Decision :=
  .complete {
    job := { job with
      status := status
      result := { job.result with status := status, code := code, check := false } }
    account := none
    refund := refund
    reservation := job.reservation
    nextSendAt := 0 }

def pause (clock : ℤ) (job : Job) (code : Text) (until_ : ℤ) : Decision :=
  .save { job with
    status := .paused
    result := { Result.empty with status := .paused, code := code }
    updatedAt := clock
    nextAt := until_ }

def failPreparation (cfg : Config) (clock : ℤ) (job : Job) (state : AccountState) (code : Text) :
    Decision :=
  let checking := decide (job.status = .checking)
  let status := if checking then Status.unknown else .failed
  .complete {
    job := { job with
      status := status
      result := { job.result with status := status, code := code } }
    account := if checking then state
      else some { state with rate := state.rate.add 1, attempts := state.attempts + 1 }
    refund := false
    reservation := .empty
    nextSendAt := if checking then 0 else clock + cfg.delay }

def hasCalibration (a : Account) : Bool :=
  a.provider == "ses".toList || a.provider == "sendgrid".toList || a.provider == "aliyun".toList ||
    a.provider == "tencent".toList && a.fetchBalance

def Sender.usesToken (s : Sender) : Bool :=
  s.credits.provider == "graph".toList || s.credits.provider == "gmail".toList ||
    s.credits.provider == "feishu".toList || s.credits.provider == "smtp".toList &&
      (decide (s.accessToken ≠ []) || decide (s.clientId ≠ []))

def addressScenes : List Text :=
  ["email_verify".toList, "email_changed".toList, "test".toList]

/-- Why the user of a job gets no mail: the code of a cancellation, or an error. -/
def recipientRefused (lib : Library) (answers : Answers) (job : Job) : Option (Option Text) := do
  let profile ← answers.profile
  if profile = none then return some "mail_account_unavailable".toList
  let token ← answers.token
  if token.all (0 < ·) then return some "mail_account_unavailable".toList
  if job.scene ∈ addressScenes then return none
  let security ← answers.security
  if security.all fun email => !lib.equalFold email job.message.recipient then
    return some "mail_recipient_changed".toList
  return none

def prepareToken (answers : Answers) (sender : Sender) : Option Text :=
  if sender.usesToken then
    match answers.credentials with
    | none => some "mail_oauth_refresh_failed".toList
    | some changed =>
      if changed && !answers.credentialsSaved then some "mail_oauth_state_unavailable".toList
      else none
  else none

/-- The result after a lookup, as `Check` returns it. -/
def Result.after (previous : Result) (found : Lookup) : Result :=
  { previous with
    status := (found.outcome.map Delivery.status).getD previous.status
    code := found.code
    detail := found.detail
    check := found.check
    notCharged := found.notCharged }

def Result.terminal (r : Result) : Bool :=
  !r.check || decide (r.status ∈ [Status.delivered, .failed, .sent, .unknown])

def checkStatus (clock : ℤ) (answers : Answers) (job : Job) : Decision :=
  let job := { job with checks := job.checks + 1 }
  let again (job : Job) : Decision := .save { job with
    updatedAt := clock
    nextAt := clock + min (5 * 2 ^ (min job.checks 6).toNat) 300 * secondMs }
  match answers.lookup with
  | none =>
    let job := { job with result := { job.result with code := "mail_status_lookup_failed".toList } }
    if 8 ≤ job.checks then finish job .unknown "mail_status_unknown".toList false else again job
  | some found =>
    let result := job.result.after found
    let job := { job with result := result }
    if result.terminal then finish job result.status result.code result.notCharged else again job

def claim (lib : Library) (cfg : Config) (sender : Sender) (clock now : ℤ) (job : Job)
    (state : AccountState) : Decision :=
  match state.reserve lib sender.credits cfg.accountRate now with
  | (state, .error refusal) =>
    let until_ := if refusal = .accountRateLimited then state.rate.start + cfg.accountRate.interval
      else now + minuteMs
    pause clock job refusal.reason.toList until_
  | (state, .ok reservation) =>
    .claim { job with
      reservation := reservation
      status := .sending
      updatedAt := clock
      nextAt := 0 } state (clock + 30 * secondMs + cfg.delay)

def attempt (lib : Library) (cfg : Config) (answers : Answers) (sender : Sender) (clock now : ℤ)
    (job : Job) (state : AccountState) : Decision :=
  match prepareToken answers sender with
  | some code => failPreparation cfg clock job state code
  | none =>
    if job.status = .checking then checkStatus clock answers job
    else claim lib cfg sender clock now job state

/-- `worker.process` up to its transaction. The lease was taken at `now`, and the clock has been
read again since. -/
def process (lib : Library) (cfg : Config) (answers : Answers) (clock : ℤ) (control : Control)
    (now : ℤ) (job : Job) : Decision :=
  let checking := decide (job.status = .checking)
  if job.expiresAt ≤ now then
    if checking then finish job .unknown "mail_status_unknown".toList false
    else finish job .expired "mail_expired".toList false
  else
    match cfg.accounts.find? fun sender => decide (sender.id = job.accountId) with
    | none =>
      if checking then finish job .unknown "mail_no_account".toList false
      else finish job .cancelled "mail_no_account".toList false
    | some sender =>
      if sender.enabled = false then
        if checking then .save { job with nextAt := now + minuteMs, updatedAt := now }
        else pause clock job "mail_account_disabled".toList (now + minuteMs)
      else if !checking && !answers.allows then
        finish job .cancelled "mail_recipient_blocked".toList false
      else
        match if !checking && decide (job.userId ≠ []) then recipientRefused lib answers job
            else some none with
        | none => .stop
        | some (some code) => finish job .cancelled code false
        | some none =>
          if !checking && decide (now < control.nextSendAt) then
            .save { job with nextAt := control.nextSendAt, updatedAt := now }
          else
            match answers.account with
            | none => .stop
            | some state =>
              let state := state.normalize lib sender.credits cfg.accountRate now
              if !checking && decide (0 < cfg.calibration) && hasCalibration sender.credits &&
                  decide (state.calibrationAt = 0) then .stop
              else if !checking && decide (cfg.accountRate.limit ≤ state.rate.used) then
                pause clock job "mail_account_rate_limited".toList
                  (state.rate.start + cfg.accountRate.interval)
              else attempt lib cfg answers sender clock now job state

inductive Reply where
  | refused (code : Text) (uncertain chargeable : Bool)
  | taken (messageId : Text) (delivered check : Bool)

def Reply.result : Reply → Result
  | .refused code uncertain _ =>
    { Result.empty with status := if uncertain then .unknown else .failed, code := code }
  | .taken messageId delivered check =>
    { Result.empty with
      messageId := messageId
      status := if delivered then .delivered else .accepted
      check := check }

def submitted (cfg : Config) (clock : ℤ) (job : Job) (reply : Reply) : Completion :=
  let result := reply.result
  { job := { job with
      result := result
      updatedAt := clock
      status := if result.check then .checking else result.status
      nextAt := if result.check then clock + 5 * secondMs else job.nextAt }
    account := none
    refund := match reply with
      | .refused _ _ chargeable => !chargeable
      | .taken _ _ _ => false
    reservation := job.reservation
    nextSendAt := clock + cfg.delay }

def Completion.prepared (c : Completion) (clock : ℤ) : Completion :=
  let job := if c.job.status = .checking then c.job
    else { c.job with
      message := { c.job.message with text := [], html := [] }
      reservation := .empty
      nextAt := 0 }
  { c with job := { job with updatedAt := clock } }

end RenoP.Mail
