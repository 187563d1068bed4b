import RenoP.Accounts.LastLogin
import RenoP.Lib.FixedWindow
import RenoP.Lib.Runs

/-!
# One-time codes

The codes that the calls of an account evaluate, `consumeMFACodeTx`: a step is accepted once under a
revision, and a revision takes five wrong codes in a window of five minutes.
-/

namespace RenoP.Accounts

open RenoP.Database (Text)
open Fallible (refuse refuse_bind_ok bind_ok)

structure CodeAttempt extends Code where
  valid : Bool
  deriving DecidableEq

def evaluated (d : Digests) (a : Account) (o : Outside) (call : LoginCall) : Option CodeAttempt :=
  match call.code a, call.transaction d a o with
  | some code, .ok (_, valid) => some ⟨code, valid⟩
  | _, _ => none

/-- An account with the time of the last code, the revisions that it has had and the codes that it
has evaluated. -/
structure CodeHistory where
  account : Account
  clock : ℤ
  revisions : List Text
  attempts : List CodeAttempt

def CodeHistory.start (a : Account) (clock : ℤ) : CodeHistory where
  account := a
  clock := clock
  revisions := (a.mfa.map (·.revision)).toList
  attempts := []

def CodeHistory.next (d : Digests) (s : CodeHistory) (c : Outside × LoginCall) : CodeHistory where
  account := (c.2.run d s.account c.1).1
  clock := ((c.2.code s.account).map (·.now)).getD s.clock
  revisions := s.revisions ++ c.2.drawn.toList
  attempts := s.attempts ++ (evaluated d s.account c.1 c.2).toList

/-- Clocks do not go back, and `id.New` draws no revision twice. -/
def Timely (s : CodeHistory) (c : Outside × LoginCall) : Prop :=
  (∀ code ∈ c.2.code s.account, s.clock ≤ code.now) ∧
    ∀ revision ∈ c.2.drawn, revision ∉ s.revisions

instance (s : CodeHistory) (c : Outside × LoginCall) : Decidable (Timely s c) :=
  inferInstanceAs (Decidable (_ ∧ _))

def acceptedSteps (attempts : List CodeAttempt) (revision : Text) : List ℤ :=
  (attempts.filter fun x => x.valid && decide (x.revision = revision)).map (·.step)

def wrongIn (revision : Text) (since : ℤ) (x : CodeAttempt) : Bool :=
  !x.valid && decide (x.revision = revision) &&
    decide (since ≤ x.now ∧ x.now ≤ since + failureWindow)

def wrongCodes (attempts : List CodeAttempt) (revision : Text) (since : ℤ) : ℕ :=
  attempts.countP (wrongIn revision since)

def Blocked (a : Account) (now : ℤ) : Prop :=
  ∃ m ∈ a.mfa, maxFailures ≤ m.failures ∧ now - m.windowStart < failureWindow

structure CodesBounded (d : Digests) (s : CodeHistory) : Prop where
  increasing : ∀ revision, (acceptedSteps s.attempts revision).Pairwise (· < ·)
  blocked : ∀ (o : Outside) (call : LoginCall) (code : Code), call.code s.account = some code →
    Blocked s.account code.now → (call.run d s.account o).1 = s.account ∧
      (call.run d s.account o).2 ≠ none ∧ evaluated d s.account o call = none
  guesses : ∀ revision since, wrongCodes s.attempts revision since ≤ 10

def MFARow.window (m : MFARow) : FixedWindow := ⟨m.windowStart, m.failures⟩

theorem rolled_window (m : MFARow) (now : ℤ) :
    (m.rolled now).window = m.window.roll failureWindow now := by
  unfold MFARow.rolled FixedWindow.roll MFARow.window
  split_ifs with hover
  · rfl
  · rfl

theorem window_lastStep (m : MFARow) (step : ℤ) :
    ({ m with lastStep := step } : MFARow).window = m.window := rfl

theorem window_failures (m : MFARow) :
    ({ m with failures := m.failures + 1 } : MFARow).window = m.window.charge := rfl

theorem rolled_lastStep (m : MFARow) (now : ℤ) : (m.rolled now).lastStep = m.lastStep := by
  unfold MFARow.rolled
  split_ifs with hover
  · rfl
  · rfl

theorem storeCounters_mfa {a : Account} {m m' : MFARow} {revision : Text} {step now : ℤ}
    {valid : Bool} (hrow : a.mfa = some m)
    (h : consumeMFACodeTx m revision step now = .ok (m', valid)) :
    (storeCounters a m').mfa = some m' := by
  obtain ⟨_, _, _, _, rfl⟩ := consumeMFACodeTx_ok h
  unfold storeCounters MFARow.rolled
  rw [hrow]
  split_ifs <;> rfl

theorem consumeMFACodeTx_revision {m m' : MFARow} {revision : Text} {step now : ℤ} {valid : Bool}
    (h : consumeMFACodeTx m revision step now = .ok (m', valid)) : m'.revision = revision := by
  obtain ⟨_, hrevision, _, _, rfl⟩ := consumeMFACodeTx_ok h
  unfold MFARow.rolled
  split_ifs <;> exact hrevision

theorem Effect.mfa {d : Digests} {a a' : Account} {code : Option Code} {drawn : Option Text}
    {valid : Bool} (h : Effect d a code drawn valid a') :
    (code = none ∧ (a'.mfa = a.mfa ∨ a'.mfa = none)) ∨
      (code = none ∧ ∃ m, a'.mfa = some m ∧ drawn = some m.revision) ∨
      ∃ c m m', code = some c ∧ a.mfa = some m ∧ a'.mfa = some m' ∧
        consumeMFACodeTx m c.revision c.step c.now = .ok (m', valid) := by
  cases h with
  | recovery passwordHash now hset => exact Or.inl ⟨rfl, Or.inr rfl⟩
  | secondFactors secret revision passkey lastStep hpasskey =>
    exact Or.inr (Or.inl ⟨rfl, _, rfl, rfl⟩)
  | code c m m' valid hrow hcode =>
    exact Or.inr (Or.inr ⟨c, m, m', rfl, hrow, storeCounters_mfa hrow hcode, hcode⟩)
  | codeAndPassword c m m' passwordHash now hset hrow hcode =>
    exact Or.inr (Or.inr ⟨c, m, m', rfl, hrow, storeCounters_mfa hrow hcode, hcode⟩)
  | refreshOAuth changed identity now =>
    cases changed with
    | false => exact Or.inl ⟨rfl, Or.inl rfl⟩
    | true => exact Or.inl ⟨rfl, Or.inl rfl⟩
  | linkGitHub changed now row =>
    cases changed with
    | false => exact Or.inl ⟨rfl, Or.inl rfl⟩
    | true => exact Or.inl ⟨rfl, Or.inl rfl⟩
  | _ => exact Or.inl ⟨rfl, Or.inl rfl⟩

theorem transaction_blocked {d : Digests} {a a' : Account} {o : Outside} {call : LoginCall}
    {code : Code} {valid : Bool} (hcode : call.code a = some code) (hblocked : Blocked a code.now) :
    call.transaction d a o ≠ .ok (a', valid) := by
  intro h
  obtain ⟨m, hm, hfull, hcurrent⟩ := hblocked
  have heffect := transaction_effect h
  rw [hcode] at heffect
  rcases heffect.mfa with ⟨hnone, _⟩ | ⟨hnone, _⟩ | ⟨c, n, m', hc, hrow, _, hconsumed⟩
  · cases hnone
  · cases hnone
  · cases hc
    rw [Option.mem_def, hrow] at hm
    cases hm
    have hopen := (consumeMFACodeTx_ok hconsumed).2.2.1
    rw [MFARow.rolled, if_neg (by omega)] at hopen
    omega

theorem evaluated_eq_some {d : Digests} {a a' : Account} {o : Outside} {call : LoginCall}
    {valid : Bool} (h : call.transaction d a o = .ok (a', valid)) :
    evaluated d a o call = (call.code a).map fun code => ⟨code, valid⟩ := by
  unfold evaluated
  rw [h]
  cases call.code a with
  | none => rfl
  | some code => rfl

theorem evaluated_eq_none {d : Digests} {a : Account} {o : Outside} {call : LoginCall}
    (h : ∀ a' valid, call.transaction d a o ≠ .ok (a', valid)) : evaluated d a o call = none := by
  unfold evaluated
  split
  next code a' valid _ htransaction => exact absurd htransaction (h a' valid)
  next => rfl

theorem blocked_unchanged (d : Digests) (a : Account) (o : Outside) (call : LoginCall) (code : Code)
    (hcode : call.code a = some code) (hblocked : Blocked a code.now) :
    (call.run d a o).1 = a ∧ (call.run d a o).2 ≠ none ∧ evaluated d a o call = none := by
  have hnone : ∀ a' valid, call.transaction d a o ≠ .ok (a', valid) :=
    fun a' valid => transaction_blocked hcode hblocked
  cases htransaction : call.transaction d a o with
  | ok result => exact absurd htransaction (hnone result.1 result.2)
  | error err =>
    have hrun : call.run d a o = (a, some err) := by
      rw [LoginCall.run, htransaction]
      rfl
    rw [hrun]
    exact ⟨rfl, Option.some_ne_none err, evaluated_eq_none hnone⟩

def left (s : CodeHistory) (revision : Text) (since : ℤ) : ℕ :=
  match s.account.mfa with
  | none => 0
  | some m =>
    if m.revision = revision then m.window.remaining failureWindow maxFailures s.clock since else 0

structure Tracked (s : CodeHistory) : Prop where
  known : ∀ m, s.account.mfa = some m → m.revision ∈ s.revisions
  seen : ∀ x ∈ s.attempts, x.revision ∈ s.revisions
  increasing : ∀ revision, (acceptedSteps s.attempts revision).Pairwise (· < ·)
  last : ∀ m, s.account.mfa = some m → ∀ step ∈ acceptedSteps s.attempts m.revision,
    step ≤ m.lastStep
  bounded : ∀ revision since, wrongCodes s.attempts revision since + left s revision since ≤ 10

theorem left_of_row {s : CodeHistory} {m : MFARow} (h : s.account.mfa = some m) (revision : Text)
    (since : ℤ) : left s revision since = if m.revision = revision then
      m.window.remaining failureWindow maxFailures s.clock since else 0 := by
  rw [left, h]

theorem left_le (s : CodeHistory) (revision : Text) (since : ℤ) : left s revision since ≤ 10 := by
  have hmax (m : MFARow) := @FixedWindow.remaining_le failureWindow maxFailures m.window s.clock since
  unfold left
  split
  · omega
  next m _ =>
    split
    · exact hmax m
    · omega

theorem tracked_start (a : Account) (clock : ℤ) : Tracked (CodeHistory.start a clock) where
  known := by
    intro m hm
    have hrow : a.mfa = some m := hm
    simp only [CodeHistory.start, hrow, Option.map_some, Option.toList_some, List.mem_singleton]
  seen := by
    intro x hx
    cases hx
  increasing := fun _ => List.Pairwise.nil
  last := by
    intro m _ step hstep
    cases hstep
  bounded := by
    intro revision since
    rw [show wrongCodes (CodeHistory.start a clock).attempts revision since = 0 from rfl,
      Nat.zero_add]
    exact left_le _ revision since

theorem Tracked.idle {s s' : CodeHistory} (hs : Tracked s)
    (hmfa : s'.account.mfa = s.account.mfa ∨ s'.account.mfa = none) (hclock : s.clock ≤ s'.clock)
    (hrevisions : ∀ revision ∈ s.revisions, revision ∈ s'.revisions)
    (hattempts : s'.attempts = s.attempts) : Tracked s' := by
  have hrow : ∀ m, s'.account.mfa = some m → s.account.mfa = some m := by
    intro m hm
    rcases hmfa with hsame | hnone
    · rw [← hsame, hm]
    · rw [hnone] at hm
      cases hm
  constructor
  · intro m hm
    exact hrevisions _ (hs.known m (hrow m hm))
  · rw [hattempts]
    intro x hx
    exact hrevisions _ (hs.seen x hx)
  · rw [hattempts]
    exact hs.increasing
  · rw [hattempts]
    intro m hm
    exact hs.last m (hrow m hm)
  · intro revision since
    have hleft : left s' revision since ≤ left s revision since := by
      cases hm : s'.account.mfa with
      | none =>
        rw [left, hm]
        exact Nat.zero_le _
      | some m =>
        rw [left_of_row hm, left_of_row (hrow m hm)]
        split
        · exact FixedWindow.remaining_later hclock m.window since
        · omega
    have hbounded := hs.bounded revision since
    rw [hattempts]
    omega

theorem wrongCodes_unseen {s : CodeHistory} (hs : Tracked s) {revision : Text}
    (hfresh : revision ∉ s.revisions) (since : ℤ) : wrongCodes s.attempts revision since = 0 := by
  unfold wrongCodes
  rw [List.countP_eq_zero]
  intro x hx hwrong
  simp only [wrongIn, Bool.and_eq_true, decide_eq_true_eq] at hwrong
  exact hfresh (hwrong.1.2 ▸ hs.seen x hx)

theorem acceptedSteps_unseen {s : CodeHistory} (hs : Tracked s) {revision : Text}
    (hfresh : revision ∉ s.revisions) : acceptedSteps s.attempts revision = [] := by
  unfold acceptedSteps
  rw [List.map_eq_nil_iff, List.filter_eq_nil_iff]
  intro x hx haccepted
  simp only [Bool.and_eq_true, decide_eq_true_eq] at haccepted
  exact hfresh (haccepted.2 ▸ hs.seen x hx)

theorem Tracked.redrawn {s s' : CodeHistory} (hs : Tracked s) {m : MFARow}
    (hmfa : s'.account.mfa = some m) (hfresh : m.revision ∉ s.revisions)
    (hrevisions : s'.revisions = s.revisions ++ [m.revision])
    (hattempts : s'.attempts = s.attempts) : Tracked s' := by
  constructor
  · intro n hn
    rw [hmfa] at hn
    cases hn
    rw [hrevisions]
    exact List.mem_append_right _ (List.mem_singleton_self _)
  · rw [hattempts, hrevisions]
    intro x hx
    exact List.mem_append_left _ (hs.seen x hx)
  · rw [hattempts]
    exact hs.increasing
  · intro n hn step hstep
    rw [hmfa] at hn
    cases hn
    rw [hattempts, acceptedSteps_unseen hs hfresh] at hstep
    cases hstep
  · intro revision since
    have hbounded := hs.bounded revision since
    have hmax := left_le s' revision since
    rw [hattempts]
    by_cases hcurrent : m.revision = revision
    · rw [wrongCodes_unseen hs (hcurrent ▸ hfresh)]
      omega
    · rw [left_of_row hmfa, if_neg hcurrent]
      omega

theorem acceptedSteps_append (attempts : List CodeAttempt) (x : CodeAttempt) (revision : Text) :
    acceptedSteps (attempts ++ [x]) revision = acceptedSteps attempts revision ++
      if x.valid = true ∧ x.revision = revision then [x.step] else [] := by
  unfold acceptedSteps
  rw [List.filter_append, List.map_append, List.filter_singleton]
  congr 1
  by_cases haccepted : x.valid = true ∧ x.revision = revision
  · simp only [haccepted, decide_true, Bool.and_self, cond_true, List.map_cons, List.map_nil,
      and_self, if_true]
  · have hfalse : (x.valid && decide (x.revision = revision)) = false := by
      rw [Bool.eq_false_iff]
      intro htrue
      simp only [Bool.and_eq_true, decide_eq_true_eq] at htrue
      exact haccepted htrue
    rw [if_neg haccepted, hfalse]
    rfl

theorem wrongCodes_append (attempts : List CodeAttempt) (x : CodeAttempt) (revision : Text)
    (since : ℤ) : wrongCodes (attempts ++ [x]) revision since =
      wrongCodes attempts revision since + if wrongIn revision since x = true then 1 else 0 := by
  unfold wrongCodes
  rw [List.countP_append, List.countP_singleton]

theorem window_paid {m m' : MFARow} {c : Code} {valid : Bool} {clock : ℤ} (hclock : clock ≤ c.now)
    (h : consumeMFACodeTx m c.revision c.step c.now = .ok (m', valid)) (since : ℤ) :
    (if wrongIn c.revision since ⟨c, valid⟩ = true then 1 else 0) +
        m'.window.remaining failureWindow maxFailures c.now since ≤
      m.window.remaining failureWindow maxFailures clock since := by
  obtain ⟨_, _, hopen, rfl, rfl⟩ := consumeMFACodeTx_ok h
  have hwindow := rolled_window m c.now
  cases hvalid : (m.rolled c.now).accepts c.step with
  | true =>
    have hroll := @FixedWindow.remaining_roll failureWindow maxFailures _ _ hclock m.window since
    rw [if_pos rfl, window_lastStep, hwindow]
    simpa only [wrongIn, Bool.not_true, Bool.false_and, Bool.false_eq_true, if_false, Nat.zero_add]
      using hroll
  | false =>
    have hcharge := @FixedWindow.remaining_charge failureWindow maxFailures _ _ (by decide) hclock
      m.window since (by rw [← hwindow]; exact hopen)
    rw [if_neg Bool.false_ne_true, window_failures, hwindow]
    simpa only [wrongIn, Bool.not_false, Bool.true_and, decide_true, decide_eq_true_eq]
      using hcharge

theorem Tracked.counted {s s' : CodeHistory} (hs : Tracked s) {c : Code} {m m' : MFARow}
    {valid : Bool} (hrow : s.account.mfa = some m) (hmfa : s'.account.mfa = some m')
    (h : consumeMFACodeTx m c.revision c.step c.now = .ok (m', valid)) (hnow : s.clock ≤ c.now)
    (hclock : s'.clock = c.now) (hrevisions : ∀ revision ∈ s.revisions, revision ∈ s'.revisions)
    (hattempts : s'.attempts = s.attempts ++ [⟨c, valid⟩]) : Tracked s' := by
  obtain ⟨_, hrevision, _, hvalid, hm'⟩ := consumeMFACodeTx_ok h
  have hrevision' := consumeMFACodeTx_revision h
  have hknown : c.revision ∈ s.revisions := hrevision ▸ hs.known m hrow
  have hold : ∀ step ∈ acceptedSteps s.attempts c.revision, step ≤ m.lastStep := by
    rw [← hrevision]
    exact hs.last m hrow
  have hlater : valid = true → m.lastStep < c.step := by
    intro haccepted
    rw [hvalid, MFARow.accepts, decide_eq_true_eq, rolled_lastStep] at haccepted
    exact haccepted.1
  have hlast : m'.lastStep = if valid = true then c.step else m.lastStep := by
    rw [hm', hvalid]
    split
    · rfl
    · exact rolled_lastStep m c.now
  constructor
  · intro n hn
    rw [hmfa] at hn
    cases hn
    rw [hrevision']
    exact hrevisions _ hknown
  · rw [hattempts]
    intro x hx
    rcases List.mem_append.mp hx with hx | hx
    · exact hrevisions _ (hs.seen x hx)
    · rw [List.mem_singleton.mp hx]
      exact hrevisions _ hknown
  · intro revision
    rw [hattempts, acceptedSteps_append, List.pairwise_append]
    refine ⟨hs.increasing revision, ?_, ?_⟩
    · split
      · exact List.pairwise_singleton _ _
      · exact List.Pairwise.nil
    · intro step hstep new hnew
      split at hnew
      next haccepted =>
        have hbefore := hold step (haccepted.2 ▸ hstep)
        have hafter := hlater haccepted.1
        rw [List.mem_singleton.mp hnew]
        show step < c.step
        omega
      next => cases hnew
  · intro n hn step hstep
    rw [hmfa] at hn
    cases hn
    rw [hattempts, hrevision', acceptedSteps_append] at hstep
    rw [hlast]
    rcases List.mem_append.mp hstep with hstep | hstep
    · have hbefore := hold step hstep
      split
      next haccepted =>
        have hafter := hlater haccepted
        omega
      next => exact hbefore
    · split at hstep
      next haccepted =>
        rw [if_pos haccepted.1, List.mem_singleton.mp hstep]
      next => cases hstep
  · intro revision since
    have hbounded := hs.bounded revision since
    rw [left_of_row hrow, hrevision] at hbounded
    rw [hattempts, wrongCodes_append, left_of_row hmfa, hrevision', hclock]
    split at hbounded
    next hcurrent =>
      have hpaid := window_paid hnow h since
      rw [if_pos hcurrent, ← hcurrent]
      rw [← hcurrent] at hbounded
      omega
    next hother =>
      have hnot : ¬wrongIn revision since ⟨c, valid⟩ = true := by
        intro hwrong
        simp only [wrongIn, Bool.and_eq_true, decide_eq_true_eq] at hwrong
        exact hother hwrong.1.2
      rw [if_neg hother, if_neg hnot]
      omega

theorem next_clock {d : Digests} {s : CodeHistory} {c : Outside × LoginCall} (h : Timely s c) :
    s.clock ≤ (s.next d c).clock := by
  unfold CodeHistory.next
  cases hcode : c.2.code s.account with
  | none => exact Int.le_refl _
  | some code => exact h.1 code hcode

theorem Tracked.next {d : Digests} {s : CodeHistory} {c : Outside × LoginCall} (hs : Tracked s)
    (h : Timely s c) : Tracked (s.next d c) := by
  have hclock := next_clock (d := d) h
  have hrevisions : ∀ revision ∈ s.revisions, revision ∈ (s.next d c).revisions :=
    fun revision hmem => List.mem_append_left _ hmem
  rcases run_effect d s.account c.1 c.2 with ⟨hsame, hnone⟩ | ⟨valid, htransaction, heffect⟩
  · have hattempts : (s.next d c).attempts = s.attempts := by
      rw [CodeHistory.next, evaluated_eq_none hnone]
      exact List.append_nil _
    exact hs.idle (Or.inl (congrArg Account.mfa hsame)) hclock hrevisions hattempts
  · have hevaluated := evaluated_eq_some htransaction
    rcases heffect.mfa with ⟨hcode, hmfa⟩ | ⟨hcode, m, hmfa, hdrawn⟩ |
      ⟨code, m, m', hcode, hrow, hmfa, hconsumed⟩
    · have hattempts : (s.next d c).attempts = s.attempts := by
        rw [CodeHistory.next, hevaluated, hcode]
        exact List.append_nil _
      exact hs.idle hmfa hclock hrevisions hattempts
    · have hattempts : (s.next d c).attempts = s.attempts := by
        rw [CodeHistory.next, hevaluated, hcode]
        exact List.append_nil _
      have hdrawnRevisions : (s.next d c).revisions = s.revisions ++ [m.revision] := by
        rw [CodeHistory.next, hdrawn]
        rfl
      exact hs.redrawn hmfa (h.2 m.revision hdrawn) hdrawnRevisions hattempts
    · have hattempts : (s.next d c).attempts = s.attempts ++ [⟨code, valid⟩] := by
        rw [CodeHistory.next, hevaluated, hcode]
        rfl
      have hnow : (s.next d c).clock = code.now := by
        rw [CodeHistory.next, hcode]
        rfl
      exact hs.counted hrow hmfa hconsumed (h.1 code hcode) hnow hrevisions hattempts

theorem one_time_codes (d : Digests) (a : Account) (clock : ℤ) (calls : List (Outside × LoginCall))
    (h : Runs.Along (CodeHistory.next d) Timely (CodeHistory.start a clock) calls) :
    CodesBounded d (calls.foldl (CodeHistory.next d) (CodeHistory.start a clock)) := by
  have htracked : Tracked (calls.foldl (CodeHistory.next d) (CodeHistory.start a clock)) :=
    Runs.Along.invariant (fun s c hs hc => hs.next hc) (tracked_start a clock) h
  constructor
  · exact htracked.increasing
  · intro o call code
    exact blocked_unchanged d _ o call code
  · intro revision since
    have hbounded := htracked.bounded revision since
    omega

def totpRow (revision : Text) : MFARow := ⟨['k'], revision, false, 0, 0, 0⟩

def totpAccount : Account := { passwordAccount with mfa := some (totpRow ['0']) }

def codes (revision : Text) (calls : List (ℤ × ℤ)) : List (Outside × LoginCall) :=
  calls.map fun c => (oneSession, .consumeMFACode revision c.1 c.2)

def renew (old new : Text) (lastStep : ℤ) : Outside × LoginCall :=
  (oneSession,
    .updateMFA (revisionDigests.snapshot ⟨[], [], true, 0, none, old, 0, 0, 0⟩) ['k'] false lastStep
      ['s'] new)

def guessedTwice : List (Outside × LoginCall) :=
  codes ['0'] ([(1, 300000), (1, 300000)] ++ List.replicate 5 (-1, 300001) ++
    [(2, 300002), (2, 600000)])

theorem guessedTwice_codes : CodesBounded revisionDigests
    (guessedTwice.foldl (CodeHistory.next revisionDigests) (CodeHistory.start totpAccount 0)) :=
  one_time_codes revisionDigests totpAccount 0 guessedTwice (by decide +kernel)

def renewedWindows : List (Outside × LoginCall) :=
  codes ['0'] (List.replicate 5 (-1, 300000)) ++ [renew ['0'] ['1'] 0] ++
    codes ['1'] (List.replicate 5 (-1, 300001)) ++ [renew ['1'] ['2'] 0] ++
    codes ['2'] (List.replicate 5 (-1, 300002))

def renewedStep : List (Outside × LoginCall) :=
  codes ['0'] [(1, 300000)] ++ [renew ['0'] ['1'] 0] ++ codes ['1'] [(1, 300000)]

/-- Fifteen wrong codes are evaluated within three milliseconds, and a step is accepted again under
the next revision of the same secret. -/
theorem renewed_codes :
    Runs.Along (CodeHistory.next revisionDigests) Timely (CodeHistory.start totpAccount 0)
        renewedWindows ∧
      ((renewedWindows.foldl (CodeHistory.next revisionDigests)
        (CodeHistory.start totpAccount 0)).attempts.countP fun x =>
          !x.valid && decide (300000 ≤ x.now ∧ x.now ≤ 300002)) = 15 ∧
      Runs.Along (CodeHistory.next revisionDigests) Timely (CodeHistory.start totpAccount 0)
        renewedStep ∧
      (renewedStep.foldl (CodeHistory.next revisionDigests)
        (CodeHistory.start totpAccount 0)).attempts =
          [⟨⟨['0'], 1, 300000⟩, true⟩, ⟨⟨['1'], 1, 300000⟩, true⟩] := by
  decide +kernel

end RenoP.Accounts
