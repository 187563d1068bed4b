import RenoP.Mail.JobRows

/-!
# An email is submitted at most once

A worker that still holds the lease has seen every change of a job since it took the lease, so
that the job it claims was not claimed before.
-/

namespace RenoP.Mail

open RenoP.Database (Text)
open Fallible (bind_ok)

variable {begun submissions : List Text} {q : Queue} {owner : Text} {job : Job} {now : ℤ}

def Phase.Ready (holds : Prop) (begun submissions : List Text) : Phase → Prop
  | .picked _ _ job | .saving job =>
    Told job ∧ job.status ≠ .sending ∧ (job.status ≠ .checking → holds → job.id ∉ begun)
  | .claiming job _ => job.status = .sending ∧ (holds → job.id ∉ begun)
  | .submitting job => job.id ∈ begun ∧ job.id ∉ submissions
  | .idle | .leased _ _ | .completing | .storing => True

structure Ready (lease : Text) (begun submissions : List Text) (owner : Text) (w : Worker) :
    Prop where
  phase : w.phase.Ready (lease = owner) begun submissions
  pending : ∀ c, w.pending = some c → Ended c.job

theorem Phase.Ready.frame {phase : Phase} {holds holds' : Prop}
    {begun begun' submissions submissions' : List Text}
    (h : phase.Ready holds begun submissions) (hholds : holds' → holds ∧ begun' = begun)
    (hbegun : ∀ id ∈ begun, id ∈ begun')
    (hsubmissions : ∀ job, phase = .submitting job → job.id ∉ submissions') :
    phase.Ready holds' begun' submissions' := by
  cases phase with
  | picked control now job =>
    refine ⟨h.1, h.2.1, fun hne hheld => ?_⟩
    obtain ⟨hheld, heq⟩ := hholds hheld
    rw [heq]
    exact h.2.2 hne hheld
  | saving job =>
    refine ⟨h.1, h.2.1, fun hne hheld => ?_⟩
    obtain ⟨hheld, heq⟩ := hholds hheld
    rw [heq]
    exact h.2.2 hne hheld
  | claiming job nextSendAt =>
    refine ⟨h.1, fun hheld => ?_⟩
    obtain ⟨hheld, heq⟩ := hholds hheld
    rw [heq]
    exact h.2 hheld
  | submitting job => exact ⟨hbegun _ h.1, hsubmissions job rfl⟩
  | idle => trivial
  | leased control now => trivial
  | completing => trivial
  | storing => trivial

structure Safe (s : System) : Prop where
  rows : Rows s.queue.jobs s.begun s.submissions
  named : ∀ owner w, s.workers.load owner = some w → owner ≠ []
  ready : ∀ owner w, s.workers.load owner = some w →
    Ready s.queue.control.owner s.begun s.submissions owner w
  apart : ∀ owner owner' w w' job job', s.workers.load owner = some w →
    s.workers.load owner' = some w' → w.phase = .submitting job → w'.phase = .submitting job' →
    job.id = job'.id → owner = owner'

variable {s s' : System} {w w' : Worker}

theorem Safe.moves (h : Safe s) (hw : s.workers.load owner = some w)
    (hworkers : s'.workers = s.workers.store owner w')
    (hrows : Rows s'.queue.jobs s'.begun s'.submissions)
    (hlease : ∀ o, o ≠ owner → o ≠ [] → s'.queue.control.owner = o →
      s.queue.control.owner = o ∧ s'.begun = s.begun)
    (hbegun : ∀ id ∈ s.begun, id ∈ s'.begun)
    (hsubmissions : ∀ o w₁ job, o ≠ owner → s.workers.load o = some w₁ →
      w₁.phase = .submitting job → job.id ∉ s'.submissions)
    (hready : Ready s'.queue.control.owner s'.begun s'.submissions owner w')
    (hapart : ∀ job, w'.phase = .submitting job → ∀ o w₁ job₁, o ≠ owner →
      s.workers.load o = some w₁ → w₁.phase = .submitting job₁ → job₁.id ≠ job.id) : Safe s' := by
  have hcases : ∀ {o w₁}, s'.workers.load o = some w₁ →
      o = owner ∧ w₁ = w' ∨ o ≠ owner ∧ s.workers.load o = some w₁ := by
    intro o w₁ hload
    rw [hworkers] at hload
    rcases (GoMap.moves_store s.workers owner w').cases hload with ⟨ho, hnew⟩ | hold
    · cases hnew
      exact Or.inl ⟨ho, rfl⟩
    · exact Or.inr hold
  constructor
  · exact hrows
  · intro o w₁ hload
    rcases hcases hload with ⟨ho, -⟩ | ⟨-, hold⟩
    · rw [ho]
      exact h.named owner w hw
    · exact h.named o w₁ hold
  · intro o w₁ hload
    rcases hcases hload with ⟨ho, hnew⟩ | ⟨ho, hold⟩
    · rw [ho, hnew]
      exact hready
    · have hwaits := h.ready o w₁ hold
      refine ⟨hwaits.phase.frame (hlease o ho (h.named o w₁ hold)) hbegun ?_, hwaits.pending⟩
      exact fun job hphase => hsubmissions o w₁ job ho hold hphase
  · intro o o' w₁ w₂ job job' hload hload' hphase hphase' hid
    rcases hcases hload with ⟨ho, hnew⟩ | ⟨ho, hold⟩
    · rcases hcases hload' with ⟨ho', -⟩ | ⟨ho', hold'⟩
      · rw [ho, ho']
      · rw [hnew] at hphase
        exact absurd hid.symm (hapart job hphase o' w₂ job' ho' hold' hphase')
    · rcases hcases hload' with ⟨ho', hnew'⟩ | ⟨ho', hold'⟩
      · rw [hnew'] at hphase'
        exact absurd hid (hapart job' hphase' o w₁ job ho hold hphase)
      · exact h.apart o o' w₁ w₂ job job' hold hold' hphase hphase' hid

theorem Safe.put_queue (h : Safe s) (hw : s.workers.load owner = some w)
    (hrows : Rows q.jobs s.begun s.submissions)
    (hlease : ∀ o, o ≠ owner → o ≠ [] → q.control.owner = o → s.queue.control.owner = o)
    (hready : Ready q.control.owner s.begun s.submissions owner w')
    (hphase : ∀ job, w'.phase ≠ .submitting job) :
    Safe (System.put { s with queue := q } owner w') := by
  refine @Safe.moves owner s (System.put { s with queue := q } owner w') w w' h hw rfl hrows
    ?_ ?_ ?_ hready ?_
  · exact fun o ho hnamed heq => ⟨hlease o ho hnamed heq, rfl⟩
  · exact fun id hid => hid
  · intro o w₁ job _ hload hsubmitting
    have hwaits := (h.ready o w₁ hload).phase
    rw [hsubmitting] at hwaits
    exact hwaits.2
  · exact fun job hsubmitting => absurd hsubmitting (hphase job)

theorem Safe.put (h : Safe s) (hw : s.workers.load owner = some w)
    (hready : Ready s.queue.control.owner s.begun s.submissions owner w')
    (hphase : ∀ job, w'.phase ≠ .submitting job) : Safe (s.put owner w') :=
  h.put_queue hw h.rows (fun _ _ _ ho => ho) hready hphase

theorem Safe.idle (h : Safe s) (hw : s.workers.load owner = some w)
    (hpending : ∀ c, w'.pending = some c → Ended c.job) (hidle : w'.phase = .idle) :
    Safe (s.put owner w') := by
  have hready : Ready s.queue.control.owner s.begun s.submissions owner w' := by
    refine ⟨?_, hpending⟩
    rw [hidle]
    trivial
  apply h.put hw hready
  intro job hsubmitting
  rw [hidle] at hsubmitting
  cases hsubmitting

theorem acquireMailLease_some (h : s.queue.acquireMailLease owner now = some q) :
    q.jobs = s.queue.jobs ∧ q.control.owner = owner := by
  unfold Queue.acquireMailLease at h
  split_ifs at h
  cases h
  exact ⟨rfl, rfl⟩

theorem recoverMailAttempts_ok (h : s.queue.recoverMailAttempts owner now = .ok q) :
    q.control = s.queue.control ∧
      (Rows s.queue.jobs begun submissions → Rows q.jobs begun submissions) := by
  unfold Queue.recoverMailAttempts at h
  obtain ⟨u, -, h⟩ := bind_ok h
  cases h
  exact ⟨rfl, fun hrows => hrows.recover now⟩

theorem transact_cases (outcome : Outcome) (q : Queue) (tx : Except TxError Queue) :
    (transact outcome q tx).1 = q ∨ ∃ q', tx = .ok q' ∧ (transact outcome q tx).1 = q' := by
  unfold transact
  cases tx with
  | error e => cases outcome <;> exact Or.inl rfl
  | ok q' =>
    cases outcome with
    | committed => exact Or.inr ⟨q', rfl, rfl⟩
    | lost => exact Or.inr ⟨q', rfl, rfl⟩
    | failed => exact Or.inl rfl

theorem Safe.put_rest (h : Safe s) (hw : s.workers.load owner = some w)
    (hrows : Rows q.jobs s.begun s.submissions)
    (hlease : ∀ o, o ≠ owner → o ≠ [] → q.control.owner = o → s.queue.control.owner = o)
    (hpending : w'.pending = w.pending)
    (hrest : w'.phase = .idle ∨ ∃ control now, w'.phase = .leased control now) :
    Safe (System.put { s with queue := q } owner w') := by
  refine h.put_queue hw hrows hlease ⟨?_, hpending ▸ (h.ready owner w hw).pending⟩ ?_
  · rcases hrest with heq | ⟨control, now, heq⟩ <;> rw [heq] <;> trivial
  · intro job hsubmitting
    rcases hrest with heq | ⟨control, now, heq⟩ <;> rw [heq] at hsubmitting <;> cases hsubmitting

theorem Safe.act_acquire (lib : Library) (h : Safe s)
    (hw : s.workers.load owner = some w) (outcome : Outcome) :
    Safe (s.act lib owner w (.acquire owner outcome)) := by
  simp only [System.act]
  split
  · rename_i queue _ hacquire
    obtain ⟨hjobs, hlease⟩ := acquireMailLease_some hacquire
    exact h.put_rest hw (hjobs ▸ h.rows) (fun o ho _ heq => absurd (heq.symm.trans hlease) ho) rfl
      (Or.inr ⟨_, _, rfl⟩)
  · rename_i queue _ hacquire
    obtain ⟨hjobs, hlease⟩ := acquireMailLease_some hacquire
    exact h.put_rest hw (hjobs ▸ h.rows) (fun o ho _ heq => absurd (heq.symm.trans hlease) ho) rfl
      (Or.inl rfl)
  · exact h

theorem Safe.act_recover (lib : Library) (h : Safe s)
    (hw : s.workers.load owner = some w) (outcome : Outcome) :
    Safe (s.act lib owner w (.recover owner outcome)) := by
  have hqueue : ∀ {now : ℤ} {q r}, transact outcome s.queue
      (s.queue.recoverMailAttempts owner now) = (q, r) →
      q.control = s.queue.control ∧ Rows q.jobs s.begun s.submissions := by
    intro now q r htransact
    rcases transact_cases outcome s.queue (s.queue.recoverMailAttempts owner now) with
      hsame | ⟨q', hq, happlied⟩
    · rw [htransact] at hsame
      cases hsame
      exact ⟨rfl, h.rows⟩
    · rw [htransact] at happlied
      cases happlied
      obtain ⟨hcontrol, hrows⟩ := @recoverMailAttempts_ok s.begun s.submissions _ _ _ _ hq
      exact ⟨hcontrol, hrows h.rows⟩
  simp only [System.act]
  split
  · rename_i hphase hpending
    split
    · rename_i htransact
      obtain ⟨hcontrol, hrows⟩ := hqueue htransact
      exact h.put_rest hw hrows (fun o _ _ heq => by rw [← heq, hcontrol]) rfl
        (Or.inr ⟨_, _, rfl⟩)
    · rename_i htransact
      obtain ⟨hcontrol, hrows⟩ := hqueue htransact
      exact h.put_rest hw hrows (fun o _ _ heq => by rw [← heq, hcontrol]) rfl (Or.inl rfl)
  · exact h

theorem Safe.act_next (lib : Library) (h : Safe s)
    (hw : s.workers.load owner = some w) :
    Safe (s.act lib owner w (.next owner)) := by
  have hready := h.ready owner w hw
  simp only [System.act]
  split
  · rename_i control now hphase hpending hrecovered
    split
    · rename_i job hnext
      obtain ⟨hload, hstatus⟩ := nextMailJob_row h.rows hnext
      refine h.put hw ⟨⟨h.rows.told _ _ hload, ?_, ?_⟩, hready.pending⟩ ?_
      · intro hsending
        rw [hsending] at hstatus
        rcases hstatus with heq | heq | heq <;> cases heq
      · intro hne _ hbegun
        have hpast := h.rows.past _ _ hload hbegun
        rcases hstatus with heq | heq | heq
        · exact hpast.1 heq
        · exact hpast.2 heq
        · exact hne heq
      · intro job' heq
        cases heq
    · exact h.idle hw hready.pending rfl
  · exact h

theorem Safe.act_process (lib : Library) (h : Safe s)
    (hw : s.workers.load owner = some w) (cfg : Config)
    (answers : Answers) : Safe (s.act lib owner w (.process owner cfg answers)) := by
  have hready := h.ready owner w hw
  simp only [System.act]
  split
  · rename_i control now job hphase
    have hpicked := hready.phase
    rw [hphase] at hpicked
    obtain ⟨htold, hsending, hfree⟩ := hpicked
    have hsound := @process_sound lib cfg answers s.clock now control job htold
    cases hdecision : Mail.process lib cfg answers s.clock control now job with
    | stop => exact h.idle hw hready.pending rfl
    | save j =>
      rw [hdecision] at hsound
      obtain ⟨hid, hjtold, hstatus⟩ := hsound
      refine h.put hw ⟨⟨hjtold, ?_, ?_⟩, hready.pending⟩ (by intro job' heq; cases heq)
      · rcases hstatus with heq | ⟨-, heq⟩
        · rw [heq]
          exact hsending
        · rw [heq]
          decide
      · intro hne hholds
        rw [hid]
        rcases hstatus with heq | ⟨hnot, -⟩
        · rw [heq] at hne
          exact hfree hne hholds
        · exact hfree hnot hholds
    | claim j state nextSendAt =>
      rw [hdecision] at hsound
      obtain ⟨hid, hne, hstatus⟩ := hsound
      refine h.put hw ⟨⟨hstatus, ?_⟩, hready.pending⟩ (by intro job' heq; cases heq)
      intro hholds
      rw [hid]
      exact hfree hne hholds
    | complete pending =>
      rw [hdecision] at hsound
      refine h.put hw ⟨trivial, ?_⟩ (by intro job' heq; cases heq)
      intro c hc
      cases hc
      exact hsound
  · exact h

theorem Safe.act_complete (lib : Library) (h : Safe s)
    (hw : s.workers.load owner = some w) (account : Option AccountState) :
    Safe (s.act lib owner w (.complete owner account)) := by
  have hready := h.ready owner w hw
  have hprepare : ∀ {pending : Completion}, w.pending = some pending →
      Safe (s.put owner { w with
        phase := .storing, pending := some (pending.prepared s.clock) }) := by
    intro pending hpending
    refine h.put hw ⟨trivial, ?_⟩ (by intro job' heq; cases heq)
    intro c hc
    cases hc
    exact prepared_ended (hready.pending pending hpending) s.clock
  simp only [System.act]
  split
  · rename_i hpending
    split_ifs
    · exact h.idle hw hready.pending rfl
    · exact hprepare hpending
  · rename_i hpending
    split_ifs
    · exact h.idle hw hready.pending rfl
    · exact hprepare hpending
  · exact h

theorem Safe.stored (h : Safe s) (hw : s.workers.load owner = some w)
    (hstored : Stored s owner job s') (htold : Told job)
    (hfree : job.status = .queued ∨ job.status = .paused ∨ job.status = .sending →
      job.id ∉ s.begun)
    (hpending : ∀ c, w'.pending = some c → Ended c.job)
    (hphase : w'.phase = .idle ∨ w'.phase = .submitting job ∧ job.status = .sending) :
    Safe (s'.put owner w') := by
  obtain ⟨row, hrow, hjobs⟩ := hstored.row
  have hmono : ∀ id ∈ s.begun, id ∈ s'.begun := by
    intro id hid
    rw [hstored.begun]
    split_ifs
    · exact List.mem_cons_of_mem _ hid
    · exact hid
  have hwaiting : ∀ {o w₁ job₁}, s.workers.load o = some w₁ → w₁.phase = .submitting job₁ →
      job₁.id ∈ s.begun ∧ job₁.id ∉ s.submissions := by
    intro o w₁ job₁ hload hsubmitting
    have hwaits := (h.ready o w₁ hload).phase
    rw [hsubmitting] at hwaits
    exact hwaits
  refine @Safe.moves owner s (s'.put owner w') w w' h hw ?_ ?_ ?_ hmono ?_ ?_ ?_
  · show s'.workers.store owner w' = _
    rw [hstored.workers]
  · show Rows s'.queue.jobs s'.begun s'.submissions
    rw [hjobs, hstored.begun, hstored.submissions]
    apply h.rows.store hrow htold
    intro hbegun
    constructor
    · exact fun heq => hfree (Or.inl heq) hbegun
    · exact fun heq => hfree (Or.inr (Or.inl heq)) hbegun
  · intro o ho _ hlease
    exact absurd (hlease.symm.trans hstored.after) ho
  · intro o w₁ job₁ _ hload hsubmitting
    show job₁.id ∉ s'.submissions
    rw [hstored.submissions]
    exact (hwaiting hload hsubmitting).2
  · refine ⟨?_, hpending⟩
    rcases hphase with hidle | ⟨hsubmitting, hsending⟩
    · rw [hidle]
      trivial
    · rw [hsubmitting]
      show job.id ∈ s'.begun ∧ job.id ∉ s'.submissions
      constructor
      · rw [hstored.begun, if_pos hsending]
        exact List.mem_cons_self ..
      · rw [hstored.submissions]
        exact fun hin => hfree (Or.inr (Or.inr hsending)) (h.rows.first _ hin)
  · intro job' hsubmitting o w₁ job₁ _ hload hphase₁ hid
    rcases hphase with hidle | ⟨hmine, hsending⟩
    · rw [hidle] at hsubmitting
      cases hsubmitting
    · rw [hmine] at hsubmitting
      cases hsubmitting
      exact hfree (Or.inr (Or.inr hsending)) (hid ▸ (hwaiting hload hphase₁).1)

theorem Safe.after_save (h : Safe s) (hw : s.workers.load owner = some w) (outcome : Outcome)
    (nextSendAt : ℤ) (htold : Told job)
    (hfree : job.status = .queued ∨ job.status = .paused ∨ job.status = .sending →
      s.queue.control.owner = owner → job.id ∉ s.begun)
    (hpending : ∀ c, w'.pending = some c → Ended c.job) (hidle : w'.phase = .idle) :
    Safe ((s.saveMailAttempt owner outcome job nextSendAt).1.put owner w') := by
  rcases saveMailAttempt_cases s owner outcome job nextSendAt with ⟨hsame, -⟩ | hstored
  · rw [hsame]
    exact h.idle hw hpending hidle
  · exact h.stored hw hstored htold (fun hstatus => hfree hstatus hstored.lease) hpending
      (Or.inl hidle)

theorem Safe.act_save (lib : Library) (h : Safe s)
    (hw : s.workers.load owner = some w) (outcome : Outcome) :
    Safe (s.act lib owner w (.save owner outcome)) := by
  have hready := h.ready owner w hw
  simp only [System.act]
  split
  · rename_i job hphase
    have hsaving := hready.phase
    rw [hphase] at hsaving
    obtain ⟨htold, hsending, hfree⟩ := hsaving
    refine h.after_save hw outcome 0 htold ?_ hready.pending rfl
    rintro (heq | heq | heq) hlease
    · exact hfree (by rw [heq]; decide) hlease
    · exact hfree (by rw [heq]; decide) hlease
    · exact absurd heq hsending
  · rename_i job nextSendAt hphase
    have hclaiming := hready.phase
    rw [hphase] at hclaiming
    obtain ⟨hsending, hfree⟩ := hclaiming
    have htold : Told job := told_of_ne (by rw [hsending]; decide)
    have hidle := @Safe.after_save owner job s w (w.goto .idle) h hw outcome nextSendAt htold
      (fun _ => hfree) hready.pending rfl
    have hcases := saveMailAttempt_cases s owner outcome job nextSendAt
    split
    · rename_i s' u hsave
      rw [hsave] at hcases
      rcases hcases with ⟨-, herror⟩ | hstored
      · exact absurd rfl (herror u)
      · exact h.stored hw hstored htold (fun _ => hfree hstored.lease) hready.pending
          (Or.inr ⟨rfl, hsending⟩)
    · rename_i s' e hsave
      rw [hsave] at hidle
      exact hidle
  · rename_i pending _ hpending
    have hended := hready.pending pending hpending
    have hpast : ∀ {w' : Worker}, (∀ c, w'.pending = some c → Ended c.job) → w'.phase = .idle →
        Safe ((s.saveMailAttempt owner outcome pending.job pending.nextSendAt).1.put owner w') := by
      intro w' hpending' hidle
      refine h.after_save hw outcome pending.nextSendAt hended.2 ?_ hpending' hidle
      rintro (heq | heq | heq) _
      · exact absurd heq hended.1.1
      · exact absurd heq hended.1.2.1
      · exact absurd heq hended.1.2.2
    split
    · rename_i s' u hsave
      rw [hsave] at hpast
      exact hpast (by intro c hc; cases hc) rfl
    · rename_i s' hsave
      rw [hsave] at hpast
      exact hpast (by intro c hc; cases hc) rfl
    · rename_i s' e _ hsave
      rw [hsave] at hpast
      exact hpast hready.pending rfl
  · exact h

theorem Safe.act_submit (lib : Library) (h : Safe s)
    (hw : s.workers.load owner = some w) (cfg : Config)
    (reply : Reply) : Safe (s.act lib owner w (.submit owner cfg reply)) := by
  have hready := h.ready owner w hw
  simp only [System.act]
  split
  · rename_i job hphase
    have hsubmitting := hready.phase
    rw [hphase] at hsubmitting
    obtain ⟨hbegun, hfirst⟩ := hsubmitting
    refine @Safe.moves owner s (System.put { s with submissions := job.id :: s.submissions } owner
      { w with phase := .completing, pending := some (submitted cfg s.clock job reply) }) w _ h hw
      rfl ?_ ?_ ?_ ?_ ?_ ?_
    · constructor
      · exact h.rows.keyed
      · exact h.rows.told
      · exact h.rows.past
      · exact h.rows.known
      · intro id hid
        rcases List.mem_cons.mp hid with heq | hold
        · rw [heq]
          exact hbegun
        · exact h.rows.first id hold
      · exact List.nodup_cons.mpr ⟨hfirst, h.rows.once⟩
    · exact fun o _ _ heq => ⟨heq, rfl⟩
    · exact fun id hid => hid
    · intro o w₁ job₁ ho hload hphase₁ hin
      have hwaits := (h.ready o w₁ hload).phase
      rw [hphase₁] at hwaits
      rcases List.mem_cons.mp hin with heq | hold
      · exact ho (h.apart o owner w₁ w job₁ job hload hw hphase₁ hphase heq)
      · exact hwaits.2 hold
    · refine ⟨trivial, ?_⟩
      intro c hc
      cases hc
      exact submitted_ended cfg s.clock job reply
    · intro job' heq
      cases heq
  · exact h

theorem Safe.remove (h : Safe s) (owner : Text) (hrows : Rows q.jobs s.begun s.submissions)
    (hlease : ∀ o, o ≠ owner → o ≠ [] → q.control.owner = o → s.queue.control.owner = o) :
    Safe { s with queue := q, workers := s.workers.delete owner } := by
  have hold : ∀ {o w}, (s.workers.delete owner).load o = some w →
      o ≠ owner ∧ s.workers.load o = some w := by
    intro o w hload
    rcases (GoMap.moves_delete s.workers owner).cases hload with ⟨-, hnone⟩ | hrest
    · cases hnone
    · exact hrest
  constructor
  · exact hrows
  · exact fun o w hload => h.named o w (hold hload).2
  · intro o w hload
    obtain ⟨ho, hload⟩ := hold hload
    have hwaits := h.ready o w hload
    refine ⟨hwaits.phase.frame ?_ (fun id hid => hid) ?_, hwaits.pending⟩
    · exact fun heq => ⟨hlease o ho (h.named o w hload) heq, rfl⟩
    · intro job hsubmitting
      have hphase := hwaits.phase
      rw [hsubmitting] at hphase
      exact hphase.2
  · exact fun o o' w w' job job' hload hload' =>
      h.apart o o' w w' job job' (hold hload).2 (hold hload').2

theorem Safe.start_worker (h : Safe s) (hnamed : owner ≠ []) :
    Safe { s with workers := s.workers.store owner .new, owners := owner :: s.owners } := by
  have hcases : ∀ {o w}, (s.workers.store owner .new).load o = some w →
      o = owner ∧ w = .new ∨ s.workers.load o = some w := by
    intro o w hload
    rcases (GoMap.moves_store s.workers owner .new).cases hload with ⟨ho, hnew⟩ | ⟨-, hold⟩
    · cases hnew
      exact Or.inl ⟨ho, rfl⟩
    · exact Or.inr hold
  constructor
  · exact h.rows
  · intro o w hload
    rcases hcases hload with ⟨ho, -⟩ | hold
    · rw [ho]
      exact hnamed
    · exact h.named o w hold
  · intro o w hload
    rcases hcases hload with ⟨-, hnew⟩ | hold
    · rw [hnew]
      exact ⟨trivial, fun c hc => by cases hc⟩
    · exact h.ready o w hold
  · intro o o' w w' job job' hload hload' hphase hphase' hid
    rcases hcases hload with ⟨-, hnew⟩ | hold
    · rw [hnew] at hphase
      cases hphase
    · rcases hcases hload' with ⟨-, hnew⟩ | hold'
      · rw [hnew] at hphase'
        cases hphase'
      · exact h.apart o o' w w' job job' hold hold' hphase hphase' hid

theorem Safe.act (lib : Library) (h : Safe s) (hw : s.workers.load owner = some w)
    (action : Action) : Safe (s.act lib owner w action) := by
  cases action with
  | acquire _ outcome => exact h.act_acquire lib hw outcome
  | recover _ outcome => exact h.act_recover lib hw outcome
  | next _ => exact h.act_next lib hw
  | process _ cfg answers => exact h.act_process lib hw cfg answers
  | save _ outcome => exact h.act_save lib hw outcome
  | submit _ cfg reply => exact h.act_submit lib hw cfg reply
  | complete _ account => exact h.act_complete lib hw account
  | leave _ =>
    have hpending := (h.ready owner w hw).pending
    simp only [System.act]
    split
    · exact h.idle hw hpending rfl
    · exact h.idle hw hpending rfl
    · exact h
  | tick _ => exact h
  | queueMailJob _ _ => exact h
  | start _ => exact h
  | crash _ => exact h
  | release _ _ => exact h

def Action.ofWorker : Action → Prop
  | .tick _ | .queueMailJob _ _ | .start _ | .crash _ | .release _ _ => False
  | _ => True

theorem next_cases (lib : Library) (s : System) {action : Action} (h : action.ofWorker) :
    (∃ w, s.workers.load action.owner = some w ∧
      s.next lib action = s.act lib action.owner w action) ∨
      s.workers.load action.owner = none ∧ s.next lib action = s := by
  cases hw : s.workers.load action.owner with
  | some w =>
    refine Or.inl ⟨w, rfl, ?_⟩
    cases action <;> first | exact h.elim | simp only [System.next, hw]
  | none =>
    refine Or.inr ⟨rfl, ?_⟩
    cases action <;> first | exact h.elim | simp only [System.next, hw]

theorem Safe.next (lib : Library) (h : Safe s) (action : Action) : Safe (s.next lib action) := by
  have hact : action.ofWorker → Safe (s.next lib action) := by
    intro hworker
    rcases next_cases lib s hworker with ⟨w, hw, heq⟩ | ⟨-, heq⟩
    · rw [heq]
      exact h.act lib hw action
    · rw [heq]
      exact h
  cases action with
  | tick now =>
    simp only [System.next]
    split_ifs
    · exact ⟨h.rows, h.named, h.ready, h.apart⟩
    · exact h
  | queueMailJob job refused =>
    have hcontrol : (s.queue.queueMailJob job refused).control = s.queue.control := by
      unfold Queue.queueMailJob
      split_ifs <;> rfl
    refine ⟨h.rows.queueMailJob job refused, h.named, ?_, h.apart⟩
    intro o w hload
    show Ready (s.queue.queueMailJob job refused).control.owner _ _ o w
    rw [hcontrol]
    exact h.ready o w hload
  | start owner =>
    simp only [System.next]
    split_ifs with hused
    · exact h
    · exact h.start_worker (not_or.mp hused).1
  | crash owner => exact h.remove owner h.rows fun o _ _ heq => heq
  | release owner outcome =>
    simp only [System.next]
    split
    · split
      · apply h.remove owner
        · unfold Queue.releaseMailLease
          split_ifs
          · exact h.rows
          · exact h.rows
          · exact h.rows
        · intro o ho hnamed heq
          unfold Queue.releaseMailLease at heq
          split_ifs at heq
          · exact heq
          · exact absurd heq.symm hnamed
          · exact heq
      · exact h
    · exact h
  | _ => exact hact trivial

theorem safe_start (clock : ℤ) : Safe (System.start clock) := by
  have hnone : ∀ {V : Type} {k : Text} {v : V} {P : Prop},
      (∅ : GoMap Text V).load k = some v → P := by
    intro V k v P hload
    cases (GoMap.load_empty k).symm.trans hload
  constructor
  · constructor
    · exact fun id row hload => hnone hload
    · exact fun id row hload => hnone hload
    · exact fun id row hload => hnone hload
    · exact fun id hid => absurd hid List.not_mem_nil
    · exact fun id hid => absurd hid List.not_mem_nil
    · exact List.nodup_nil
  · exact fun o w hload => hnone hload
  · exact fun o w hload => hnone hload
  · exact fun o o' w w' job job' hload => hnone hload

/-- Any run of any number of workers submits every job at most once, and a job for which a
submission was begun does not wait for another. -/
theorem mail_submitted_once (lib : Library) (clock : ℤ) (actions : List Action) :
    let s := actions.foldl (System.next lib) (System.start clock)
    s.submissions.Nodup ∧ ∀ id ∈ s.begun, ∀ row, s.queue.jobs.load id = some row →
      row.status ≠ .queued ∧ row.status ≠ .paused := by
  have hsafe : ∀ (actions : List Action) {s : System}, Safe s →
      Safe (actions.foldl (System.next lib) s) := by
    intro actions
    induction actions with
    | nil => exact fun h => h
    | cons action actions ih => exact fun h => ih (h.next lib action)
  have h := hsafe actions (safe_start clock)
  exact ⟨h.rows.once, fun id hid row hrow => h.rows.past id row hrow hid⟩

end RenoP.Mail
