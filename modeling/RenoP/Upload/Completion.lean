import RenoP.Upload.Session

/-!
# A completed upload is whole and frozen

A chunk in state `writing` belongs to one client, which is the only one to write its bytes or to
change its state.
-/

namespace RenoP.Upload

variable {plan : SessionPlan} {s s' : Upload} {t : ℕ}

def Pc.holding : Pc → Option ChunkWrite
  | .writing w _ => some w
  | .finishing w => some w
  | .releasing w => some w
  | _ => none

def Pc.progress (plan : SessionPlan) : Pc → Option (ChunkWrite × ℤ)
  | .writing w n => some (w, n)
  | .finishing w => some (w, plan.expected w.index)
  | _ => none

def Pc.aborts : Pc → Bool
  | .aborting => true
  | .closing _ _ => true
  | .removing _ => true
  | _ => false

/-- A claimed chunk is in state `writing`. -/
def HolderOk (plan : SessionPlan) (received : ℕ → ChunkState) (pc : Pc) : Prop :=
  ∀ w, pc.holding = some w → w.index < plan.chunkCount ∧ received w.index = .writing

def ProgressOk (plan : SessionPlan) (disk : ℤ → Option ℕ) (pc : Pc) : Prop :=
  ∀ w n, pc.progress plan = some (w, n) → 0 ≤ n ∧ n ≤ plan.expected w.index ∧
    ∀ b, plan.offset w.index ≤ b → b < plan.offset w.index + n → disk b = some w.attempt

structure Inv (plan : SessionPlan) (s : Upload) : Prop where
  holder : ∀ t, HolderOk plan s.received (s.threads t)
  exclusive : ∀ t u w v, (s.threads t).holding = some w → (s.threads u).holding = some v →
    w.index = v.index → t = u
  progress : ∀ t, ProgressOk plan s.disk (s.threads t)
  chunkDone : ∀ i, i < plan.chunkCount → s.received i = .done →
    ∃ w ∈ s.accepted, w.index = i ∧ ∀ b, plan.InChunk i b → s.disk b = some w.attempt
  completing : ∀ t, s.threads t = .completing → s.managerHeld = some t ∧ s.inMap = true
  mapped : s.inMap = true →
    s.completions = 0 ∧ s.removed = false ∧ ∀ t, (s.threads t).aborts = false
  completed : 0 < s.completions → s.completions = 1 ∧ AllReceived plan s ∧ s.removed = false ∧
    ∀ t, (s.threads t).aborts = false

theorem start_inv (plan : SessionPlan) : Inv plan Upload.start where
  holder := by
    intro t w h
    cases h
  exclusive := by
    intro t u w v h
    cases h
  progress := by
    intro t w n h
    cases h
  chunkDone := by
    intro i _ h
    cases h
  completing := by
    intro t h
    cases h
  mapped := fun _ => ⟨rfl, rfl, fun _ => rfl⟩
  completed := fun h => absurd h (Nat.lt_irrefl 0)

theorem forall_update (p : Pc → Prop) {threads : ℕ → Pc} {pc : Pc} (hpc : p pc)
    (hold : ∀ u, u ≠ t → p (threads u)) (u : ℕ) : p (Function.update threads t pc u) := by
  by_cases hu : u = t
  · rw [hu, Function.update_self]
    exact hpc
  · rw [Function.update_of_ne hu]
    exact hold u hu

theorem exclusive_update {threads : ℕ → Pc} {pc : Pc}
    (hex : ∀ t u w v, (threads t).holding = some w → (threads u).holding = some v →
      w.index = v.index → t = u)
    (hpc : ∀ w, pc.holding = some w → ∀ u v, u ≠ t → (threads u).holding = some v →
      w.index ≠ v.index) (a b : ℕ) (w v : ChunkWrite)
    (ha : (Function.update threads t pc a).holding = some w)
    (hb : (Function.update threads t pc b).holding = some v) (hwv : w.index = v.index) : a = b := by
  by_cases hat : a = t
  · by_cases hbt : b = t
    · rw [hat, hbt]
    · rw [hat, Function.update_self] at ha
      rw [Function.update_of_ne hbt] at hb
      exact absurd hwv (hpc w ha b v hbt hb)
  · by_cases hbt : b = t
    · rw [hbt, Function.update_self] at hb
      rw [Function.update_of_ne hat] at ha
      exact absurd hwv.symm (hpc v hb a w hat ha)
    · rw [Function.update_of_ne hat] at ha
      rw [Function.update_of_ne hbt] at hb
      exact hex a b w v ha hb hwv

theorem Inv.other_index (hi : Inv plan s) {w : ChunkWrite} (hw : (s.threads t).holding = some w)
    {u : ℕ} {v : ChunkWrite} (hu : u ≠ t) (hv : (s.threads u).holding = some v) :
    w.index ≠ v.index := by
  intro heq
  exact hu (hi.exclusive t u w v hw hv heq).symm

/-- What a step of a client to `pc` leaves alone when it only moves flags. -/
structure Move (t : ℕ) (pc : Pc) (s s' : Upload) : Prop where
  threads : s'.threads = Function.update s.threads t pc
  received : s'.received = s.received
  disk : s'.disk = s.disk
  accepted : s'.accepted = s.accepted
  removed : s'.removed = s.removed
  completions : s'.completions = s.completions
  inMap : s'.inMap = s.inMap

theorem Inv.chunks (hi : Inv plan s) (t : ℕ) (pc : Pc)
    (hholding : ∀ w, pc.holding = some w → (s.threads t).holding = some w)
    (hprogress : ∀ w n, pc.progress plan = some (w, n) →
      (s.threads t).progress plan = some (w, n)) :
    (∀ u, HolderOk plan s.received (Function.update s.threads t pc u)) ∧
      (∀ a b w v, (Function.update s.threads t pc a).holding = some w →
        (Function.update s.threads t pc b).holding = some v → w.index = v.index → a = b) ∧
      ∀ u, ProgressOk plan s.disk (Function.update s.threads t pc u) := by
  refine ⟨forall_update (HolderOk plan s.received) ?_ fun u _ => hi.holder u,
    exclusive_update hi.exclusive ?_, forall_update (ProgressOk plan s.disk) ?_ fun u _ =>
      hi.progress u⟩
  · intro w hw
    exact hi.holder t w (hholding w hw)
  · intro w hw u v hu hv
    exact hi.other_index (hholding w hw) hu hv
  · intro w n hw
    exact hi.progress t w n (hprogress w n hw)

theorem Move.inv (hi : Inv plan s) {pc : Pc} (h : Move t pc s s')
    (hholding : ∀ w, pc.holding = some w → (s.threads t).holding = some w)
    (hprogress : ∀ w n, pc.progress plan = some (w, n) → (s.threads t).progress plan = some (w, n))
    (haborts : pc.aborts = true → (s.threads t).aborts = true)
    (hcompleting : ∀ u, s'.threads u = .completing → s'.managerHeld = some u ∧ s.inMap = true) :
    Inv plan s' where
  holder := by
    rw [h.threads, h.received]
    exact (hi.chunks t pc hholding hprogress).1
  exclusive := by
    rw [h.threads]
    exact (hi.chunks t pc hholding hprogress).2.1
  progress := by
    rw [h.threads, h.disk]
    exact (hi.chunks t pc hholding hprogress).2.2
  chunkDone := by
    rw [h.received, h.disk, h.accepted]
    exact hi.chunkDone
  completing := by
    rw [h.inMap]
    exact hcompleting
  mapped := by
    rw [h.inMap, h.completions, h.removed, h.threads]
    intro hmap
    obtain ⟨h1, h2, h3⟩ := hi.mapped hmap
    refine ⟨h1, h2, ?_⟩
    apply forall_update (fun pc => pc.aborts = false)
    · apply Bool.eq_false_iff.mpr
      intro hpc
      rw [h3 t] at haborts
      exact absurd (haborts hpc) (by decide)
    · intro u _
      exact h3 u
  completed := by
    rw [h.completions, h.removed, h.threads]
    intro hc
    obtain ⟨h1, h2, h3, h4⟩ := hi.completed hc
    refine ⟨h1, ?_, h3, ?_⟩
    · unfold AllReceived
      rw [h.received]
      exact h2
    · apply forall_update (fun pc => pc.aborts = false)
      · apply Bool.eq_false_iff.mpr
        intro hpc
        rw [h4 t] at haborts
        exact absurd (haborts hpc) (by decide)
      · intro u _
        exact h4 u

theorem Inv.completing_before (hi : Inv plan s) {pc : Pc}
    (ht : s'.threads = Function.update s.threads t pc) (hpc : pc ≠ .completing)
    (hheld : s'.managerHeld = s.managerHeld) (u : ℕ) (hu : s'.threads u = .completing) :
    s'.managerHeld = some u ∧ s.inMap = true := by
  rw [hheld]
  rw [ht] at hu
  by_cases hut : u = t
  · rw [hut, Function.update_self] at hu
    exact absurd hu hpc
  · rw [Function.update_of_ne hut] at hu
    exact hi.completing u hu

theorem Inv.mapped_before (hi : Inv plan s) {pc : Pc} (hpc : pc.aborts = false)
    (hmap : s.inMap = true) : s.completions = 0 ∧ s.removed = false ∧
      ∀ u, (Function.update s.threads t pc u).aborts = false := by
  obtain ⟨h1, h2, h3⟩ := hi.mapped hmap
  exact ⟨h1, h2, forall_update (fun pc => pc.aborts = false) hpc fun u _ => h3 u⟩

theorem Inv.completing_alone (hi : Inv plan s) (h : s.threads t = .completing) {pc : Pc}
    (hpc : pc ≠ .completing) (u : ℕ) : Function.update s.threads t pc u ≠ .completing := by
  intro hu
  by_cases hut : u = t
  · rw [hut, Function.update_self] at hu
    exact hpc hu
  · rw [Function.update_of_ne hut] at hu
    have h1 := (hi.completing t h).1
    rw [(hi.completing u hu).1] at h1
    exact hut (Option.some.inj h1)

theorem Inv.move (hi : Inv plan s) {pc : Pc} (h : Move t pc s s')
    (hheld : s'.managerHeld = s.managerHeld)
    (hholding : ∀ w, pc.holding = some w → (s.threads t).holding = some w)
    (hprogress : ∀ w n, pc.progress plan = some (w, n) → (s.threads t).progress plan = some (w, n))
    (haborts : pc.aborts = true → (s.threads t).aborts = true) (hpc : pc ≠ .completing) :
    Inv plan s' :=
  h.inv hi hholding hprogress haborts (hi.completing_before h.threads hpc hheld)

theorem Inv.moveFree (hi : Inv plan s) {pc : Pc} (h : Move t pc s s')
    (hheld : s'.managerHeld = s.managerHeld) (hholding : pc.holding = none)
    (hprogress : pc.progress plan = none) (haborts : pc.aborts = false) (hpc : pc ≠ .completing) :
    Inv plan s' := by
  apply hi.move h hheld
  · intro w hw
    rw [hholding] at hw
    cases hw
  · intro w n hw
    rw [hprogress] at hw
    cases hw
  · intro ha
    rw [haborts] at ha
    cases ha
  · exact hpc

theorem claimChunk_ok {index contentLength : ℤ} {n : ℕ}
    (h : claimChunk plan s index contentLength = .ok n) :
    n < plan.chunkCount ∧ s.received n = .free := by
  unfold claimChunk at h
  cases hr : s.received index.toNat with
  | done =>
    rw [hr] at h
    split_ifs at h
  | writing =>
    rw [hr] at h
    split_ifs at h
  | free =>
    rw [hr] at h
    split_ifs at h
    cases h
    exact ⟨by omega, hr⟩

theorem Inv.holder_ne (hi : Inv plan s) {n : ℕ} {state : ChunkState}
    (hn : s.received n = state) (hstate : state ≠ .writing) {u : ℕ} {v : ChunkWrite}
    (hv : (s.threads u).holding = some v) : v.index ≠ n := by
  intro heq
  have h := (hi.holder u v hv).2
  rw [heq, hn] at h
  exact hstate h

theorem Inv.claimed (hi : Inv plan s) {index contentLength : ℤ} {n : ℕ}
    (hok : claimChunk plan s index contentLength = .ok n) :
    Inv plan ({ s.setReceived n .writing with attempts := s.attempts + 1 }.goto t
      (.writing ⟨s.attempts, n, s.file⟩ 0)) := by
  obtain ⟨hn, hfree⟩ := claimChunk_ok hok
  have hne {i : ℕ} (hin : i ≠ n) : Function.update s.received n .writing i = s.received i :=
    Function.update_of_ne hin ..
  exact {
    holder := by
      apply forall_update (HolderOk plan (Function.update s.received n .writing))
      · intro w hw
        cases hw
        exact ⟨hn, Function.update_self ..⟩
      · intro u _ w hw
        obtain ⟨h1, h2⟩ := hi.holder u w hw
        exact ⟨h1, (hne (hi.holder_ne hfree (by decide) hw)).trans h2⟩
    exclusive := by
      apply exclusive_update hi.exclusive
      intro w hw u v _ hv
      cases hw
      exact (hi.holder_ne hfree (by decide) hv).symm
    progress := by
      apply forall_update (ProgressOk plan s.disk)
      · intro w m hw
        cases hw
        exact ⟨le_refl _, plan.expected_nonneg hn, fun b hlo hhi => by omega⟩
      · intro u _
        exact hi.progress u
    chunkDone := by
      intro i hi' hdone
      replace hdone : Function.update s.received n .writing i = .done := hdone
      by_cases hin : i = n
      · rw [hin, Function.update_self] at hdone
        cases hdone
      · rw [hne hin] at hdone
        exact hi.chunkDone i hi' hdone
    completing := hi.completing_before rfl (fun h => by cases h) rfl
    mapped := hi.mapped_before rfl
    completed := by
      intro hc
      -- a completed upload has no free chunk
      have hall := (hi.completed hc).2.1 n hn
      rw [hfree] at hall
      cases hall }

theorem progress_holding {pc : Pc} {w : ChunkWrite} {n : ℤ}
    (h : pc.progress plan = some (w, n)) : pc.holding = some w := by
  cases pc <;> cases h <;> rfl

theorem write_other {w : ChunkWrite} {written n : ℤ} (h0 : 0 ≤ written)
    (hfits : written + n ≤ plan.expected w.index) {i : ℕ} (hw : w.index < plan.chunkCount)
    (hi : i < plan.chunkCount) (hne : w.index ≠ i) {b : ℤ} (hb : plan.InChunk i b) :
    (s.write plan w written n).disk b = s.disk b := by
  apply if_neg
  intro hin
  have hbw : plan.InChunk w.index b := ⟨by omega, by omega⟩
  exact hne (SessionPlan.inChunk_unique hw hi hbw hb)

theorem Inv.writePiece (hi : Inv plan s) {w : ChunkWrite} {written n : ℤ}
    (ht : s.threads t = .writing w written) (hpos : 0 < n)
    (hfits : written + n ≤ plan.expected w.index) :
    Inv plan ((s.write plan w written n).goto t (.writing w (written + n))) := by
  have hprog := hi.progress t
  have hhold := hi.holder t
  rw [ht] at hprog hhold
  obtain ⟨h0, -, hbytes⟩ := hprog w written rfl
  obtain ⟨hw, hstate⟩ := hhold w rfl
  have hown : (s.threads t).holding = some w := by
    rw [ht]
    rfl
  exact {
    holder := by
      apply forall_update (HolderOk plan s.received)
      · intro v hv
        cases hv
        exact ⟨hw, hstate⟩
      · intro u _
        exact hi.holder u
    exclusive := by
      apply exclusive_update hi.exclusive
      intro v hv u x hu hx
      cases hv
      exact hi.other_index hown hu hx
    progress := by
      apply forall_update (ProgressOk plan (s.write plan w written n).disk)
      · intro v m hv
        cases hv
        refine ⟨by omega, hfits, ?_⟩
        intro b hlo hhi
        by_cases hb : plan.offset w.index + written ≤ b
        · exact if_pos ⟨hb, by omega⟩
        · have hold : (s.write plan w written n).disk b = s.disk b := if_neg fun h => hb h.1
          rw [hold]
          exact hbytes b hlo (by omega)
      · intro u hu v m hv
        obtain ⟨hm0, hm, hold⟩ := hi.progress u v m hv
        refine ⟨hm0, hm, ?_⟩
        intro b hlo hhi
        have hvhold := progress_holding hv
        have hne := hi.other_index hown hu hvhold
        have hother := write_other (s := s) h0 hfits hw (hi.holder u v hvhold).1 hne
          ⟨hlo, by omega⟩
        rw [hother]
        exact hold b hlo hhi
    chunkDone := by
      intro i hic hdone
      obtain ⟨v, hv, hvi, hold⟩ := hi.chunkDone i hic hdone
      refine ⟨v, hv, hvi, ?_⟩
      intro b hb
      have hne : w.index ≠ i := by
        intro heq
        replace hdone : s.received i = .done := hdone
        rw [← heq, hstate] at hdone
        cases hdone
      have hother := write_other (s := s) h0 hfits hw hic hne hb
      exact hother.trans (hold b hb)
    completing := hi.completing_before rfl (fun h => by cases h) rfl
    mapped := hi.mapped_before rfl
    completed := by
      intro hc
      -- a completed upload has no claimed chunk
      have hall := (hi.completed hc).2.1 w.index hw
      rw [hstate] at hall
      cases hall }

theorem Inv.letGo (hi : Inv plan s) {w : ChunkWrite} (hown : (s.threads t).holding = some w)
    (state : ChunkState) (hstate : state ≠ .writing) (accepted : List ChunkWrite)
    (hkeep : ∀ v ∈ s.accepted, v ∈ accepted)
    (hdone : state = .done →
      w ∈ accepted ∧ ∀ b, plan.InChunk w.index b → s.disk b = some w.attempt) :
    Inv plan ({ s.setReceived w.index state with accepted := accepted }.goto t .idle) := by
  obtain ⟨hw, hwriting⟩ := hi.holder t w hown
  have hne {i : ℕ} (hin : i ≠ w.index) :
      Function.update s.received w.index state i = s.received i := Function.update_of_ne hin ..
  exact {
    holder := by
      apply forall_update (HolderOk plan (Function.update s.received w.index state))
      · intro v hv
        cases hv
      · intro u hu v hv
        obtain ⟨h1, h2⟩ := hi.holder u v hv
        exact ⟨h1, (hne (hi.other_index hown hu hv).symm).trans h2⟩
    exclusive := by
      apply exclusive_update hi.exclusive
      intro v hv
      cases hv
    progress := by
      apply forall_update (ProgressOk plan s.disk)
      · intro v n hv
        cases hv
      · intro u _
        exact hi.progress u
    chunkDone := by
      intro i hic hd
      replace hd : Function.update s.received w.index state i = .done := hd
      by_cases hin : i = w.index
      · rw [hin, Function.update_self] at hd
        obtain ⟨hmem, hbytes⟩ := hdone hd
        rw [hin]
        exact ⟨w, hmem, rfl, hbytes⟩
      · rw [hne hin] at hd
        obtain ⟨v, hv, hvi, hold⟩ := hi.chunkDone i hic hd
        exact ⟨v, hkeep v hv, hvi, hold⟩
    completing := hi.completing_before rfl (fun h => by cases h) rfl
    mapped := hi.mapped_before rfl
    completed := by
      intro hc
      have hall := (hi.completed hc).2.1 w.index hw
      rw [hwriting] at hall
      cases hall }

theorem Inv.begin (hi : Inv plan s) (hfree : s.managerHeld = none) (hmap : s.inMap = true) :
    Inv plan ({ s with done := true, managerHeld := some t }.goto t .completing) := by
  have hmove : Move t .completing s
      ({ s with done := true, managerHeld := some t }.goto t .completing) :=
    ⟨rfl, rfl, rfl, rfl, rfl, rfl, rfl⟩
  apply hmove.inv hi
  · intro w hw
    cases hw
  · intro w n hw
    cases hw
  · intro ha
    cases ha
  · intro u hu
    replace hu : Function.update s.threads t .completing u = .completing := hu
    by_cases hut : u = t
    · rw [hut]
      exact ⟨rfl, hmap⟩
    · rw [Function.update_of_ne hut] at hu
      have hheld := (hi.completing u hu).1
      rw [hfree] at hheld
      cases hheld

theorem Inv.giveUp (hi : Inv plan s) (ht : s.threads t = .completing)
    (hmove : Move t .idle s s') : Inv plan s' := by
  apply hmove.inv hi
  · intro w hw
    cases hw
  · intro w n hw
    cases hw
  · intro ha
    cases ha
  · intro u hu
    rw [hmove.threads] at hu
    exact absurd hu (hi.completing_alone ht (fun h => by cases h) u)

theorem Inv.complete (hi : Inv plan s) (ht : s.threads t = .completing)
    (hall : AllReceived plan s) :
    Inv plan ({ s with
      managerHeld := none, inMap := false, completions := s.completions + 1 }.goto t .idle) := by
  obtain ⟨-, hmap⟩ := hi.completing t ht
  obtain ⟨hzero, hremoved, haborts⟩ := hi.mapped hmap
  obtain ⟨hholder, hexclusive, hprogress⟩ := hi.chunks t .idle nofun nofun
  exact {
    holder := hholder
    exclusive := hexclusive
    progress := hprogress
    chunkDone := hi.chunkDone
    completing := by
      intro u hu
      exact absurd hu (hi.completing_alone ht (fun h => by cases h) u)
    mapped := by
      intro h
      cases h
    completed := by
      intro _
      have hnone : ∀ u, (Function.update s.threads t .idle u).aborts = false := by
        apply forall_update (fun pc => pc.aborts = false) rfl
        intro u _
        exact haborts u
      refine ⟨?_, hall, hremoved, hnone⟩
      show s.completions + 1 = 1
      omega }

theorem Inv.takeOut (hi : Inv plan s) (hfree : s.managerHeld = none) (hmap : s.inMap = true) :
    Inv plan ({ s with inMap := false }.goto t .aborting) := by
  obtain ⟨hzero, -, -⟩ := hi.mapped hmap
  obtain ⟨hholder, hexclusive, hprogress⟩ := hi.chunks t .aborting nofun nofun
  exact {
    holder := hholder
    exclusive := hexclusive
    progress := hprogress
    chunkDone := hi.chunkDone
    completing := by
      intro u hu
      replace hu : Function.update s.threads t .aborting u = .completing := hu
      by_cases hut : u = t
      · rw [hut, Function.update_self] at hu
        cases hu
      · rw [Function.update_of_ne hut] at hu
        have hheld := (hi.completing u hu).1
        rw [hfree] at hheld
        cases hheld
    mapped := by
      intro h
      cases h
    completed := by
      intro hc
      replace hc : 0 < s.completions := hc
      omega }

theorem Inv.remove (hi : Inv plan s) {path : Bool} (ht : s.threads t = .removing path) :
    Inv plan ({ s with removed := s.removed || path }.goto t .storing) := by
  have habort : (s.threads t).aborts = true := by
    rw [ht]
    rfl
  obtain ⟨hholder, hexclusive, hprogress⟩ := hi.chunks t .storing nofun nofun
  exact {
    holder := hholder
    exclusive := hexclusive
    progress := hprogress
    chunkDone := hi.chunkDone
    completing := hi.completing_before rfl (fun h => by cases h) rfl
    mapped := by
      intro hmap
      have hno := (hi.mapped hmap).2.2 t
      rw [habort] at hno
      cases hno
    completed := by
      intro hc
      have hno := (hi.completed hc).2.2.2 t
      rw [habort] at hno
      cases hno }

theorem Step.inv (hi : Inv plan s) (h : Step plan t s s') : Inv plan s' := by
  have idle (hmove : Move t .idle s s') (hheld : s'.managerHeld = s.managerHeld) : Inv plan s' :=
    hi.moveFree hmove hheld rfl rfl rfl (fun h => by cases h)
  cases h with
  | callChunk index contentLength ht =>
    exact hi.moveFree ⟨rfl, rfl, rfl, rfl, rfl, rfl, rfl⟩ rfl rfl rfl rfl (fun h => by cases h)
  | chunkCompleted ht hdone => exact idle ⟨rfl, rfl, rfl, rfl, rfl, rfl, rfl⟩ rfl
  | chunkOpen ht hdone =>
    exact hi.moveFree ⟨rfl, rfl, rfl, rfl, rfl, rfl, rfl⟩ rfl rfl rfl rfl (fun h => by cases h)
  | refused ht herr => exact idle ⟨rfl, rfl, rfl, rfl, rfl, rfl, rfl⟩ rfl
  | claimed ht hok => exact hi.claimed hok
  | writePiece n ht hopen hpos hfits => exact hi.writePiece ht hpos hfits
  | @writeFailed w written ht =>
    have hmove : Move t (.releasing w) s (s.goto t (.releasing w)) :=
      ⟨rfl, rfl, rfl, rfl, rfl, rfl, rfl⟩
    apply hi.move hmove rfl
    · intro v hv
      rw [ht]
      exact hv
    · intro v n hv
      cases hv
    · intro ha
      cases ha
    · intro h
      cases h
  | @written w n ht hn =>
    have hmove : Move t (.finishing w) s (s.goto t (.finishing w)) :=
      ⟨rfl, rfl, rfl, rfl, rfl, rfl, rfl⟩
    apply hi.move hmove rfl
    · intro v hv
      rw [ht]
      exact hv
    · intro v m hv
      rw [ht, hn]
      exact hv
    · intro ha
      cases ha
    · intro h
      cases h
  | @finishClosed w ht hclosed =>
    have hown : (s.threads t).holding = some w := by
      rw [ht]
      rfl
    apply hi.letGo hown .free (by decide) s.accepted
    · intro v hv
      exact hv
    · intro h
      cases h
  | @finish w ht hclosed haborting =>
    have hown : (s.threads t).holding = some w := by
      rw [ht]
      rfl
    apply hi.letGo hown .done (by decide) (w :: s.accepted)
    · intro v hv
      exact List.mem_cons_of_mem w hv
    · intro _
      have hprog := hi.progress t
      rw [ht] at hprog
      obtain ⟨-, -, hbytes⟩ := hprog w _ rfl
      refine ⟨List.mem_cons_self, ?_⟩
      intro b hb
      exact hbytes b hb.1 hb.2
  | @release w ht hwriting =>
    have hown : (s.threads t).holding = some w := by
      rw [ht]
      rfl
    apply hi.letGo hown .free (by decide) s.accepted
    · intro v hv
      exact hv
    · intro h
      cases h
  | releaseOther ht hwriting => exact idle ⟨rfl, rfl, rfl, rfl, rfl, rfl, rfl⟩ rfl
  | beginRefused owner ht hfree hno => exact idle ⟨rfl, rfl, rfl, rfl, rfl, rfl, rfl⟩ rfl
  | begin owner ht hfree hmap howned hdone => exact hi.begin hfree hmap
  | completeClosed ht hclosed => exact hi.giveUp ht ⟨rfl, rfl, rfl, rfl, rfl, rfl, rfl⟩
  | incomplete ht hclosed haborting hall => exact hi.giveUp ht ⟨rfl, rfl, rfl, rfl, rfl, rfl, rfl⟩
  | complete ht hclosed haborting hall => exact hi.complete ht hall
  | abortRefused owner ht hfree hno => exact idle ⟨rfl, rfl, rfl, rfl, rfl, rfl, rfl⟩ rfl
  | abortOwned owner ht hfree hmap howned => exact hi.takeOut hfree hmap
  | cleanupExpired ht hfree hmap => exact hi.takeOut hfree hmap
  | abortTwice ht haborting => exact idle ⟨rfl, rfl, rfl, rfl, rfl, rfl, rfl⟩ rfl
  | @abort ht haborting =>
    have hmove : Move t (.closing s.file s.tempPath) s ({ s with
        aborting := true, file := false, tempPath := false, closed := true }.goto t
          (.closing s.file s.tempPath)) := ⟨rfl, rfl, rfl, rfl, rfl, rfl, rfl⟩
    apply hi.move hmove rfl
    · intro v hv
      cases hv
    · intro v n hv
      cases hv
    · intro _
      rw [ht]
      rfl
    · intro h
      cases h
  | @close file path ht =>
    have hmove : Move t (.removing path) s
        ({ s with fileOpen := s.fileOpen && !file }.goto t (.removing path)) :=
      ⟨rfl, rfl, rfl, rfl, rfl, rfl, rfl⟩
    apply hi.move hmove rfl
    · intro v hv
      cases hv
    · intro v n hv
      cases hv
    · intro _
      rw [ht]
      rfl
    · intro h
      cases h
  | remove ht => exact hi.remove ht
  | store ht => exact idle ⟨rfl, rfl, rfl, rfl, rfl, rfl, rfl⟩ rfl
  | markCompleted ht =>
    exact hi.moveFree ⟨rfl, rfl, rfl, rfl, rfl, rfl, rfl⟩ rfl rfl rfl rfl (fun h => by cases h)
  | closeFile ht => exact idle ⟨rfl, rfl, rfl, rfl, rfl, rfl, rfl⟩ rfl

theorem Steps.inv (hi : Inv plan s) (h : Steps plan s s') : Inv plan s' := by
  induction h with
  | refl => exact hi
  | tail _ hstep ih =>
    obtain ⟨t, hstep⟩ := hstep
    exact hstep.inv ih

theorem Inv.no_holder (hi : Inv plan s) (hc : 0 < s.completions) (t : ℕ) :
    (s.threads t).holding = none := by
  cases h : (s.threads t).holding with
  | none => rfl
  | some w =>
    obtain ⟨hw, hwriting⟩ := hi.holder t w h
    have hall := (hi.completed hc).2.1 w.index hw
    rw [hwriting] at hall
    cases hall

theorem Step.disk_eq (h : Step plan t s s') (hnone : (s.threads t).holding = none) :
    s'.disk = s.disk := by
  cases h
  case writePiece w written n ht hopen hpos hfits =>
    rw [ht] at hnone
    cases hnone
  all_goals rfl

theorem Step.completions_le (h : Step plan t s s') : s.completions ≤ s'.completions := by
  cases h
  case complete => exact Nat.le_succ s.completions
  all_goals exact le_refl s.completions

theorem Steps.frozen (hi : Inv plan s) (hc : 0 < s.completions) (h : Steps plan s s') :
    0 < s'.completions ∧ s'.disk = s.disk := by
  induction h with
  | refl => exact ⟨hc, rfl⟩
  | tail hsteps hstep ih =>
    obtain ⟨hc', hdisk⟩ := ih
    obtain ⟨t, hstep⟩ := hstep
    have hi' := Steps.inv hi hsteps
    refine ⟨lt_of_lt_of_le hc' hstep.completions_le, ?_⟩
    exact (hstep.disk_eq (hi'.no_holder hc' t)).trans hdisk

/-- At most one completion succeeds. Every byte of the file is then the one that an accepted chunk
write wrote, no client holds a chunk, and no later step of anyone writes to the file, claims a
chunk or deletes the file. -/
theorem completed_upload_frozen (h : Steps plan Upload.start s) :
    s.completions ≤ 1 ∧ (0 < s.completions →
      (∀ b, 0 ≤ b → b < plan.totalSize → ∃ w ∈ s.accepted, w.index < plan.chunkCount ∧
        plan.InChunk w.index b ∧ s.disk b = some w.attempt) ∧
      ∀ s', Steps plan s s' → s'.completions = 1 ∧ s'.disk = s.disk ∧ s'.removed = false ∧
        AllReceived plan s' ∧ ∀ t, (s'.threads t).holding = none) := by
  have hi := Steps.inv (start_inv plan) h
  refine ⟨?_, ?_⟩
  · by_contra hmore
    have hone := (hi.completed (by omega)).1
    omega
  · intro hc
    refine ⟨?_, ?_⟩
    · intro b h0 hb
      obtain ⟨i, hic, hib⟩ := plan.covers h0 hb
      obtain ⟨w, hw, hwi, hbytes⟩ := hi.chunkDone i hic ((hi.completed hc).2.1 i hic)
      rw [← hwi] at hic hib
      exact ⟨w, hw, hic, hib, hbytes b (hwi ▸ hib)⟩
    · intro s' hs'
      obtain ⟨hc', hdisk⟩ := Steps.frozen hi hc hs'
      have hi' := Steps.inv hi hs'
      obtain ⟨hone, hall, hremoved, -⟩ := hi'.completed hc'
      exact ⟨hone, hdisk, hremoved, hall, hi'.no_holder hc'⟩

def smallPlan : SessionPlan where
  owner := "alice"
  totalSize := 1
  chunkSize := 1
  chunkCount := 1
  owner_ne := by decide
  totalSize_nonneg := by decide
  chunkSize_pos := by decide
  chunkCount_eq := by decide

theorem completed_upload_frozen_byte : ∃ s, Steps smallPlan Upload.start s ∧ s.completions = 1 ∧
    ∃ w ∈ s.accepted, s.disk 0 = some w.attempt := by
  have h0 : Steps smallPlan Upload.start Upload.start := Relation.ReflTransGen.refl
  have h1 := Relation.ReflTransGen.tail h0 ⟨0, Step.callChunk 0 1 rfl⟩
  have h2 := Relation.ReflTransGen.tail h1 ⟨0, Step.chunkOpen rfl rfl⟩
  have h3 := Relation.ReflTransGen.tail h2 ⟨0, Step.claimed (n := 0) rfl rfl⟩
  have h4 := Relation.ReflTransGen.tail h3
    ⟨0, Step.writePiece 1 rfl ⟨rfl, rfl⟩ (by decide) (by decide)⟩
  have h5 := Relation.ReflTransGen.tail h4 ⟨0, Step.written rfl (by decide)⟩
  have h6 := Relation.ReflTransGen.tail h5 ⟨0, Step.finish rfl rfl rfl⟩
  have h7 := Relation.ReflTransGen.tail h6 ⟨0, Step.begin "alice" rfl rfl rfl (by decide) rfl⟩
  have h8 := Relation.ReflTransGen.tail h7 ⟨0, Step.complete rfl rfl rfl (fun i hi => by
    replace hi : i < 1 := hi
    obtain rfl : i = 0 := by omega
    rfl)⟩
  obtain ⟨w, hw, -, -, hdisk⟩ :=
    ((completed_upload_frozen h8).2 (by decide)).1 0 (by decide) (by decide)
  exact ⟨_, h8, rfl, w, hw, hdisk⟩

theorem Inv.setFree (hi : Inv plan s) {w : ChunkWrite} (hw : (s.threads t).holding = some w)
    {i : ℕ} (hd : s.received i = .done) (state : ChunkState) :
    (s.setReceived w.index state).received i = .done := by
  show Function.update s.received w.index state i = _
  rw [Function.update_of_ne (hi.holder_ne hd (by decide) hw).symm]
  exact hd

theorem Step.durable (hi : Inv plan s) (h : Step plan t s s') {i : ℕ} (hic : i < plan.chunkCount)
    (hd : s.received i = .done) :
    s'.received i = .done ∧ ∀ b, plan.InChunk i b → s'.disk b = s.disk b := by
  cases h
  case claimed index contentLength n ht hok =>
    obtain ⟨-, hfree⟩ := claimChunk_ok hok
    have hne : i ≠ n := by
      rintro rfl
      rw [hd] at hfree
      cases hfree
    exact ⟨(Function.update_of_ne hne ..).trans hd, fun _ _ => rfl⟩
  case writePiece w written n ht hopen hpos hfits =>
    have hw : (s.threads t).holding = some w := by
      rw [ht]
      rfl
    have hprog := hi.progress t
    rw [ht] at hprog
    obtain ⟨h0, -, -⟩ := hprog w written rfl
    refine ⟨hd, fun b hb => ?_⟩
    exact write_other h0 hfits (hi.holder t w hw).1 hic (hi.holder_ne hd (by decide) hw) hb
  case finishClosed w ht hclosed => exact ⟨hi.setFree (by rw [ht]; rfl) hd .free, fun _ _ => rfl⟩
  case finish w ht hclosed haborting =>
    exact ⟨hi.setFree (by rw [ht]; rfl) hd .done, fun _ _ => rfl⟩
  case release w ht hwriting => exact ⟨hi.setFree (by rw [ht]; rfl) hd .free, fun _ _ => rfl⟩
  all_goals exact ⟨hd, fun _ _ => rfl⟩

end RenoP.Upload
