import RenoP.Mail.Worker

/-!
# What a mail worker may decide

A job that is checked stays checked or ends, and a completion never asks for a submission.
-/

namespace RenoP.Mail

open RenoP.Database (Text)

def Told (job : Job) : Prop :=
  job.status = .checking → ∃ d : Delivery, job.result.status = d.status

def Status.Past (status : Status) : Prop :=
  status ≠ .queued ∧ status ≠ .paused ∧ status ≠ .sending

instance (status : Status) : Decidable status.Past := instDecidableAnd

theorem Delivery.past (d : Delivery) : d.status.Past := by
  cases d <;> decide

def Ended (job : Job) : Prop := job.status.Past ∧ Told job

def Decision.Sound (job : Job) : Decision → Prop
  | .stop => True
  | .save j => j.id = job.id ∧ Told j ∧
    (j.status = job.status ∨ job.status ≠ .checking ∧ j.status = .paused)
  | .claim j _ _ => j.id = job.id ∧ job.status ≠ .checking ∧ j.status = .sending
  | .complete pending => Ended pending.job

variable {lib : Library} {cfg : Config} {answers : Answers} {sender : Sender} {clock now : ℤ}
  {control : Control} {job : Job} {state : AccountState} {code : Text}

theorem told_of_ne (h : job.status ≠ .checking) : Told job := fun hchecking => absurd hchecking h

theorem ended_of {status : Status} (h : job.status = status) (hpast : status.Past)
    (hne : status ≠ .checking) : Ended job := by
  rw [← h] at hpast hne
  exact ⟨hpast, told_of_ne hne⟩

theorem finish_sound {status : Status} (hpast : status.Past) (hne : status ≠ .checking)
    (refund : Bool) : (finish job status code refund).Sound job :=
  ended_of rfl hpast hne

theorem pause_sound (hne : job.status ≠ .checking) (until_ : ℤ) :
    (pause clock job code until_).Sound job :=
  ⟨rfl, @told_of_ne _ (by intro h; cases h), Or.inr ⟨hne, rfl⟩⟩

theorem failPreparation_sound : (failPreparation cfg clock job state code).Sound job := by
  unfold failPreparation
  cases decide (job.status = .checking) with
  | true => exact @ended_of _ .unknown rfl (by decide) (by decide)
  | false => exact @ended_of _ .failed rfl (by decide) (by decide)

theorem checkStatus_sound (htold : Told job) (hchecking : job.status = .checking) :
    (checkStatus clock answers job).Sound job := by
  obtain ⟨d, hd⟩ := htold hchecking
  unfold checkStatus
  dsimp only
  cases answers.lookup with
  | none =>
    dsimp only
    split_ifs
    · exact finish_sound (by decide) (by decide) _
    · exact ⟨rfl, fun _ => ⟨d, hd⟩, Or.inl rfl⟩
  | some found =>
    have hafter : ∃ d : Delivery, (job.result.after found).status = d.status := by
      unfold Result.after
      cases found.outcome with
      | none => exact ⟨d, hd⟩
      | some d' => exact ⟨d', rfl⟩
    dsimp only
    obtain ⟨d', hd'⟩ := hafter
    split_ifs
    · have hne : d'.status ≠ .checking := by cases d' <;> decide
      rw [hd']
      exact finish_sound d'.past hne _
    · exact ⟨rfl, fun _ => ⟨d', hd'⟩, Or.inl rfl⟩

theorem claim_sound (hne : job.status ≠ .checking) :
    (claim lib cfg sender clock now job state).Sound job := by
  unfold claim
  cases (state.reserve lib sender.credits cfg.accountRate now) with
  | mk state result =>
    cases result with
    | error refusal => exact pause_sound hne _
    | ok reservation => exact ⟨rfl, hne, rfl⟩

theorem attempt_sound (htold : Told job) :
    (attempt lib cfg answers sender clock now job state).Sound job := by
  unfold attempt
  cases prepareToken answers sender with
  | some code => exact failPreparation_sound
  | none =>
    dsimp only
    split_ifs with hchecking
    · exact checkStatus_sound htold hchecking
    · exact claim_sound hchecking

theorem process_sound (htold : Told job) :
    (process lib cfg answers clock control now job).Sound job := by
  have hsame : ∀ nextAt,
      Decision.Sound job (.save { job with nextAt := nextAt, updatedAt := now }) :=
    fun _ => ⟨rfl, htold, Or.inl rfl⟩
  have hnot : ∀ {b : Bool}, (!decide (job.status = .checking) && b) = true →
      job.status ≠ .checking := by
    intro b hb
    rw [Bool.and_eq_true, Bool.not_eq_true', decide_eq_false_iff_not] at hb
    exact hb.1
  unfold process
  dsimp only
  split
  · split
    · exact finish_sound (by decide) (by decide) _
    · exact finish_sound (by decide) (by decide) _
  split
  · split
    · exact finish_sound (by decide) (by decide) _
    · exact finish_sound (by decide) (by decide) _
  split
  · split
    · exact hsame _
    · rename_i hchecking
      exact pause_sound (fun heq => hchecking (decide_eq_true heq)) _
  split
  · exact finish_sound (by decide) (by decide) _
  split
  · trivial
  · exact finish_sound (by decide) (by decide) _
  split
  · exact hsame _
  split
  · trivial
  split
  · trivial
  split
  · rename_i hlimit
    exact pause_sound (hnot hlimit) _
  · exact attempt_sound htold

theorem submitted_ended (cfg : Config) (clock : ℤ) (job : Job) (reply : Reply) :
    Ended (submitted cfg clock job reply).job := by
  unfold submitted Reply.result
  cases reply with
  | refused code uncertain chargeable =>
    cases uncertain with
    | false => exact @ended_of _ .failed rfl (by decide) (by decide)
    | true => exact @ended_of _ .unknown rfl (by decide) (by decide)
  | taken messageId delivered check =>
    cases check with
    | false =>
      cases delivered with
      | false => exact @ended_of _ .accepted rfl (by decide) (by decide)
      | true => exact @ended_of _ .delivered rfl (by decide) (by decide)
    | true =>
      have hpast : Status.checking.Past := by decide
      cases delivered with
      | false => exact ⟨hpast, fun _ => ⟨.accepted, rfl⟩⟩
      | true => exact ⟨hpast, fun _ => ⟨.delivered, rfl⟩⟩

theorem prepared_ended {c : Completion} (h : Ended c.job) (clock : ℤ) :
    Ended (c.prepared clock).job := by
  unfold Completion.prepared
  dsimp only
  split_ifs
  · exact h
  · exact h

end RenoP.Mail
