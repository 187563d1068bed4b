import RenoP.Docker.StagedUpload
import RenoP.Lib.Runs

/-!
# Stored blobs match their digest while no request writes to one

A PUT hashes the staged file twice and then renames whatever the staged name leads to.
-/

namespace RenoP.Docker

variable {D : Type} {sha : Bytes → D} {s : Uploads D} {t : ℕ}

def Uploads.KeepsStored (s : Uploads D) (handle off : ℕ) (data : Bytes) : Prop :=
  ∀ d, s.files.names (.blob d) = some handle →
    Inodes.splice (s.files.bytes handle) off data = s.files.bytes handle

def Uploads.InstallsHashed (s : Uploads D) (p : Path D) (hashed : Bytes) : Prop :=
  ∀ b, s.files.read p = some b → b = hashed

def Uploads.Sound (s : Uploads D) : Event D → Prop
  | .advance t o =>
    match s.threads t with
    | .patchWrite handle off body => s.KeepsStored handle off (o.wrote body)
    | .putWrite handle off body _ => s.KeepsStored handle off (o.wrote body)
    | .installLinked _ hashed _ => o = .ok → s.InstallsHashed (.linked t) hashed
    | .installStaged _ hashed _ => o = .ok → s.InstallsHashed .staging hashed
    | _ => True
  | _ => True

def Matches (sha : Bytes → D) (f : Inodes (Path D)) (d : D) : Prop :=
  ∃ b, f.read (.blob d) = some b ∧ sha b = d

/-- What `CommitBlob` hashed for a request that has yet to rename. -/
def Pc.hashed : Pc D → Option (D × Bytes)
  | .reserve d hashed => some (d, hashed)
  | .fingerprint d hashed => some (d, hashed)
  | .link d hashed _ => some (d, hashed)
  | .verify d hashed _ => some (d, hashed)
  | .installLinked d hashed _ => some (d, hashed)
  | .dropLinked d hashed _ => some (d, hashed)
  | .installStaged d hashed _ => some (d, hashed)
  | _ => none

def Pc.installed : Pc D → Option D
  | .removeLinked d _ => some d
  | .removeStaged d _ => some d
  | .hint d _ => some d
  | .recordBlob d => some d
  | .recordLink d => some d
  | .created d => some d
  | _ => none

structure PcOk (sha : Bytes → D) (f : Inodes (Path D)) (pc : Pc D) : Prop where
  hashed : ∀ d b, pc.hashed = some (d, b) → sha b = d
  installed : ∀ d, pc.installed = some d → Matches sha f d

structure Uploads.Inv (sha : Bytes → D) (s : Uploads D) : Prop where
  allocated : s.files.Allocated
  threads : ∀ t, PcOk sha s.files (s.threads t)

theorem PcOk.plain {f : Inodes (Path D)} {pc : Pc D} (hh : pc.hashed = none)
    (hi : pc.installed = none) : PcOk sha f pc where
  hashed := by
    intro d b h
    rw [hh] at h
    cases h
  installed := by
    intro d h
    rw [hi] at h
    cases h

theorem PcOk.ofHashed {f : Inodes (Path D)} {pc : Pc D} {d : D} {b : Bytes}
    (hh : pc.hashed = some (d, b)) (hi : pc.installed = none) (hb : sha b = d) :
    PcOk sha f pc where
  hashed := by
    intro d' b' h
    rw [hh] at h
    cases h
    exact hb
  installed := by
    intro d' h
    rw [hi] at h
    cases h

theorem PcOk.ofInstalled {f : Inodes (Path D)} {pc : Pc D} {d : D} (hh : pc.hashed = none)
    (hi : pc.installed = some d) (hm : Matches sha f d) : PcOk sha f pc where
  hashed := by
    intro d' b' h
    rw [hh] at h
    cases h
  installed := by
    intro d' h
    rw [hi] at h
    cases h
    exact hm

theorem PcOk.files {f g : Inodes (Path D)} {pc : Pc D} (h : PcOk sha f pc)
    (hkeep : ∀ d, Matches sha f d → Matches sha g d) : PcOk sha g pc where
  hashed := h.hashed
  installed := by
    intro d hd
    exact hkeep d (h.installed d hd)

theorem Uploads.Start.inv (h : s.Start) : s.Inv sha where
  allocated := h.allocated
  threads := by
    intro t
    rw [h.idle t]
    exact PcOk.plain rfl rfl

theorem Uploads.Inv.move (hi : s.Inv sha) {g : Inodes (Path D)} (hg : g.Allocated)
    (hkeep : ∀ d, Matches sha s.files d → Matches sha g d) {pc : Pc D} (hpc : PcOk sha g pc) :
    ((s.setFiles g).goto t pc).Inv sha where
  allocated := hg
  threads := by
    intro u
    show PcOk sha g (Function.update s.threads t pc u)
    by_cases hu : u = t
    · rw [hu, Function.update_self]
      exact hpc
    · rw [Function.update_of_ne hu]
      exact (hi.threads u).files hkeep

theorem Uploads.Inv.goto (hi : s.Inv sha) {pc : Pc D} (hpc : PcOk sha s.files pc) :
    (s.goto t pc).Inv sha :=
  hi.move hi.allocated (fun _ hd => hd) hpc

theorem ne_blob_staging (d : D) : (Path.staging : Path D) ≠ .blob d := by
  intro h
  cases h

theorem ne_blob_linked (t : ℕ) (d : D) : (Path.linked t : Path D) ≠ .blob d := by
  intro h
  cases h

theorem matches_of_read {f g : Inodes (Path D)} {d : D}
    (h : g.read (.blob d) = f.read (.blob d)) (hm : Matches sha f d) : Matches sha g d := by
  obtain ⟨b, hb, hd⟩ := hm
  exact ⟨b, h.trans hb, hd⟩

theorem matches_writeAt {handle off : ℕ} {data : Bytes} (hk : s.KeepsStored handle off data)
    (d : D) (hm : Matches sha s.files d) : Matches sha (s.files.writeAt handle off data) d := by
  by_cases hn : s.files.names (.blob d) = some handle
  · obtain ⟨b, hb, hd⟩ := hm
    have hold : s.files.bytes handle = b := by
      simp only [Inodes.read, hn, Option.map_some, Option.some.injEq] at hb
      exact hb
    refine ⟨b, ?_, hd⟩
    rw [Inodes.read_writeAt hn, hk d hn, hold]
  · exact matches_of_read (Inodes.read_writeAt_of_ne hn off data) hm

theorem Uploads.Inv.writeAt (hi : s.Inv sha) {handle off : ℕ} {body : Bytes} {o : Outcome}
    (hk : s.KeepsStored handle off (o.wrote body)) {pc : Pc D} (hh : pc.hashed = none)
    (hn : pc.installed = none) : ((s.writeAt handle off body o).goto t pc).Inv sha :=
  hi.move (g := s.files.writeAt handle off (o.wrote body)) hi.allocated (matches_writeAt hk)
    (PcOk.plain hh hn)

theorem receive_inv (hi : s.Inv sha) {pc : Pc D} (hh : pc.hashed = none)
    (hn : pc.installed = none) : (s.receive t pc).Inv sha := by
  unfold Uploads.receive
  cases s.threads t with
  | idle => exact hi.goto (PcOk.plain hh hn)
  | _ => exact hi

def Broken (sha : Bytes → D) (f : Inodes (Path D)) : Prop :=
  ∃ d b, f.read (.blob d) = some b ∧ sha b ≠ d

theorem broken_writeAt (hsha : Function.Injective sha) (hall : ¬ Broken sha s.files)
    {handle off : ℕ} {data : Bytes} (hk : ¬ s.KeepsStored handle off data) :
    Broken sha (s.files.writeAt handle off data) := by
  unfold Uploads.KeepsStored at hk
  push Not at hk
  obtain ⟨d, hd, hne⟩ := hk
  refine ⟨d, _, Inodes.read_writeAt hd off data, ?_⟩
  intro heq
  apply hall
  refine ⟨d, s.files.bytes handle, Inodes.read_eq_some.mpr ⟨handle, hd, rfl⟩, ?_⟩
  intro hold
  exact hne (hsha (heq.trans hold.symm))

variable [DecidableEq D]

theorem matches_openCreate {f : Inodes (Path D)} (ha : f.Allocated) (mode : ℕ) (d : D)
    (hm : Matches sha f d) : Matches sha (f.openCreate .staging mode).2 d := by
  obtain ⟨b, hb, hd⟩ := hm
  exact ⟨b, Inodes.read_openCreate ha hb mode, hd⟩

theorem matches_remove {f : Inodes (Path D)} {p : Path D} (hp : ∀ d, p ≠ .blob d) (d : D)
    (hm : Matches sha f d) : Matches sha (f.remove p) d :=
  matches_of_read (Inodes.read_remove_of_ne (hp d).symm) hm

theorem matches_link {f g : Inodes (Path D)} {p : Path D} (h : f.link p (.linked t) = some g)
    (d : D) (hm : Matches sha f d) : Matches sha g d := by
  apply matches_of_read _ hm
  apply Inodes.read_link_of_ne h
  intro heq
  cases heq

theorem matches_rename {f g : Inodes (Path D)} {p : Path D} {e : D}
    (h : f.rename p (.blob e) = some g) (hp : ∀ d, p ≠ .blob d) {hashed : Bytes}
    (hb : ∀ b, f.read p = some b → b = hashed) (hsha : sha hashed = e) :
    Matches sha g e ∧ ∀ d, Matches sha f d → Matches sha g d := by
  obtain ⟨hread, hsome, hrest⟩ := Inodes.read_rename h (hp e).symm
  have hnew : Matches sha g e := by
    obtain ⟨b, hgb⟩ := Option.isSome_iff_exists.mp hsome
    refine ⟨b, hgb, ?_⟩
    rw [hb b (hread.trans hgb)]
    exact hsha
  refine ⟨hnew, ?_⟩
  intro d hm
  by_cases hde : d = e
  · rw [hde]
    exact hnew
  · have hne : (Path.blob d : Path D) ≠ .blob e := by
      intro heq
      cases heq
      exact hde rfl
    exact matches_of_read (hrest (.blob d) (hp d).symm hne) hm

theorem Uploads.Inv.getStagedBlob (hi : s.Inv sha) {o : Outcome} {handle : ℕ} {s₁ : Uploads D}
    (h : s.getStagedBlob o = some (handle, s₁)) {pc : Pc D} (hh : pc.hashed = none)
    (hn : pc.installed = none) : (s₁.goto t pc).Inv sha := by
  cases o with
  | failed written => cases h
  | ok =>
    cases h
    exact hi.move (hi.allocated.openCreate .staging 0o600)
      (matches_openCreate hi.allocated 0o600) (PcOk.plain hh hn)

theorem Uploads.Inv.remove (hi : s.Inv sha) {p : Path D} (hp : ∀ d, p ≠ .blob d) {pc : Pc D}
    (hpc : ∀ g, (∀ d, Matches sha s.files d → Matches sha g d) → PcOk sha g pc) (o : Outcome) :
    ((s.remove p o).goto t pc).Inv sha := by
  cases o with
  | ok =>
    exact hi.move (hi.allocated.remove p) (matches_remove hp) (hpc _ (matches_remove hp))
  | failed written => exact hi.goto (hpc _ fun _ hd => hd)

theorem Uploads.Inv.rename (hi : s.Inv sha) {p : Path D} (hp : ∀ d, p ≠ .blob d) {d : D}
    {hashed : Bytes} (hsha : sha hashed = d) {o : Outcome}
    (hb : o = .ok → s.InstallsHashed p hashed) {s₁ : Uploads D}
    (h : s.rename p (.blob d) o = some s₁) {pc : Pc D} (hh : pc.hashed = none)
    (hn : pc.installed = some d) : (s₁.goto t pc).Inv sha := by
  cases o with
  | failed written => cases h
  | ok =>
    obtain ⟨g, hg, rfl⟩ := Option.map_eq_some_iff.mp h
    obtain ⟨hnew, hkeep⟩ := matches_rename hg hp (hb rfl) hsha
    exact hi.move (hi.allocated.rename hg) hkeep (PcOk.ofInstalled hh hn hnew)

theorem Uploads.Inv.linkCandidate (hi : s.Inv sha) {key : ContentKey D} {o : Outcome}
    {s₁ : Uploads D} (h : s.linkCandidate t key o = some s₁) {d : D} {hashed : Bytes} {pc : Pc D}
    (hh : pc.hashed = some (d, hashed)) (hn : pc.installed = none) (hsha : sha hashed = d) :
    (s₁.goto t pc).Inv sha := by
  cases o with
  | failed written => cases h
  | ok =>
    obtain ⟨candidate, _, hlink⟩ := Option.bind_eq_some_iff.mp h
    obtain ⟨g, hg, rfl⟩ := Option.map_eq_some_iff.mp hlink
    exact hi.move (hi.allocated.link hg) (matches_link hg) (PcOk.ofHashed hh hn hsha)

theorem advance_inv (hi : s.Inv sha) (o : Outcome) (hok : s.Sound (.advance t o)) :
    (s.advance sha t o).Inv sha := by
  have hpc := hi.threads t
  unfold Uploads.advance
  cases h : s.threads t with
  | idle => exact hi
  | patchOpen body =>
    dsimp only
    cases hs : s.getStagedBlob o with
    | none => exact hi.goto (PcOk.plain rfl rfl)
    | some opened => exact hi.getStagedBlob hs rfl rfl
  | patchSize handle body =>
    dsimp only
    split_ifs
    · exact hi.goto (PcOk.plain rfl rfl)
    · exact hi.goto (PcOk.plain rfl rfl)
  | patchWrite handle off body =>
    simp only [Uploads.Sound, h] at hok
    exact hi.writeAt hok rfl rfl
  | putOpen body d =>
    dsimp only
    cases hs : s.getStagedBlob o with
    | none => exact hi.goto (PcOk.plain rfl rfl)
    | some opened =>
      dsimp only
      split_ifs
      · exact hi.getStagedBlob hs rfl rfl
      · exact hi.getStagedBlob hs rfl rfl
  | putSize handle body d => exact hi.goto (PcOk.plain rfl rfl)
  | putWrite handle off body d =>
    simp only [Uploads.Sound, h] at hok
    cases o with
    | ok => exact hi.writeAt hok rfl rfl
    | failed written => exact hi.writeAt hok rfl rfl
  | putDigest d =>
    dsimp only
    cases s.hash sha .staging o with
    | none => exact hi.goto (PcOk.plain rfl rfl)
    | some calculated =>
      dsimp only
      split_ifs
      · exact hi.goto (PcOk.plain rfl rfl)
      · exact hi.goto (PcOk.plain rfl rfl)
  | discard status => exact hi.remove ne_blob_staging (fun _ _ => PcOk.plain rfl rfl) o
  | putMutable d =>
    cases o with
    | ok => exact hi.goto (PcOk.plain rfl rfl)
    | failed written => exact hi.goto (PcOk.plain rfl rfl)
  | commitMutable d =>
    cases o with
    | ok => exact hi.goto (PcOk.plain rfl rfl)
    | failed written => exact hi.goto (PcOk.plain rfl rfl)
  | commitStat d =>
    dsimp only
    split_ifs
    · exact hi.goto (PcOk.plain rfl rfl)
    · exact hi.goto (PcOk.plain rfl rfl)
  | commitHash d =>
    cases o with
    | failed written => exact hi.goto (PcOk.plain rfl rfl)
    | ok =>
      dsimp only [Uploads.hash]
      cases hr : s.files.read .staging with
      | none => exact hi.goto (PcOk.plain rfl rfl)
      | some hashed =>
        dsimp only [Option.map_some]
        split_ifs with hd
        · exact hi.goto (PcOk.plain rfl rfl)
        · exact hi.goto (PcOk.ofHashed rfl rfl (not_not.mp hd))
  | reserve d hashed =>
    rw [h] at hpc
    cases o with
    | ok => exact hi.goto (PcOk.ofHashed rfl rfl (hpc.hashed d hashed rfl))
    | failed written => exact hi.goto (PcOk.plain rfl rfl)
  | fingerprint d hashed =>
    rw [h] at hpc
    dsimp only
    cases s.fingerprint sha .staging o with
    | none => exact hi.goto (PcOk.plain rfl rfl)
    | some key => exact hi.goto (PcOk.ofHashed rfl rfl (hpc.hashed d hashed rfl))
  | link d hashed key =>
    rw [h] at hpc
    dsimp only
    cases hl : s.linkCandidate t key o with
    | none => exact hi.goto (PcOk.ofHashed rfl rfl (hpc.hashed d hashed rfl))
    | some s₁ => exact hi.linkCandidate hl rfl rfl (hpc.hashed d hashed rfl)
  | verify d hashed key =>
    rw [h] at hpc
    dsimp only
    split_ifs
    · exact hi.goto (PcOk.ofHashed rfl rfl (hpc.hashed d hashed rfl))
    · exact hi.goto (PcOk.ofHashed rfl rfl (hpc.hashed d hashed rfl))
  | installLinked d hashed key =>
    rw [h] at hpc
    simp only [Uploads.Sound, h] at hok
    dsimp only
    cases hs : s.rename (.linked t) (.blob d) o with
    | none => exact hi.goto (PcOk.plain rfl rfl)
    | some s₁ =>
      exact hi.rename (ne_blob_linked t) (hpc.hashed d hashed rfl) hok hs rfl rfl
  | removeLinked d key =>
    rw [h] at hpc
    exact hi.remove (ne_blob_linked t)
      (fun _ hkeep => PcOk.ofInstalled rfl rfl (hkeep d (hpc.installed d rfl))) o
  | removeStaged d key =>
    rw [h] at hpc
    exact hi.remove ne_blob_staging
      (fun _ hkeep => PcOk.ofInstalled rfl rfl (hkeep d (hpc.installed d rfl))) o
  | dropLinked d hashed key =>
    rw [h] at hpc
    exact hi.remove (ne_blob_linked t)
      (fun _ _ => PcOk.ofHashed rfl rfl (hpc.hashed d hashed rfl)) o
  | failLinked => exact hi.remove (ne_blob_linked t) (fun _ _ => PcOk.plain rfl rfl) o
  | installStaged d hashed key =>
    rw [h] at hpc
    simp only [Uploads.Sound, h] at hok
    dsimp only
    cases hs : s.rename .staging (.blob d) o with
    | none => exact hi.goto (PcOk.plain rfl rfl)
    | some s₁ => exact hi.rename ne_blob_staging (hpc.hashed d hashed rfl) hok hs rfl rfl
  | hint d key =>
    rw [h] at hpc
    have hnew : PcOk sha s.files (.recordBlob d) :=
      PcOk.ofInstalled rfl rfl (hpc.installed d rfl)
    have hgo := hi.goto (t := t) hnew
    exact ⟨hgo.allocated, hgo.threads⟩
  | recordBlob d =>
    rw [h] at hpc
    cases o with
    | ok => exact hi.goto (PcOk.ofInstalled rfl rfl (hpc.installed d rfl))
    | failed written => exact hi.goto (PcOk.plain rfl rfl)
  | recordLink d =>
    rw [h] at hpc
    cases o with
    | ok => exact hi.goto (PcOk.ofInstalled rfl rfl (hpc.installed d rfl))
    | failed written => exact hi.goto (PcOk.plain rfl rfl)
  | answered status => exact hi
  | created d => exact hi

theorem next_inv (s : Uploads D) (e : Event D) (hi : s.Inv sha) (hok : s.Sound e) :
    (s.next sha e).Inv sha := by
  cases e with
  | patch t body => exact receive_inv hi rfl rfl
  | put t body d => exact receive_inv hi rfl rfl
  | advance t o => exact advance_inv hi o hok
  | forget keep => exact ⟨hi.allocated, hi.threads⟩

theorem broken_rename (hsha : Function.Injective sha) {p : Path D} (hp : ∀ d, p ≠ .blob d) {d : D}
    {hashed : Bytes} (hd : sha hashed = d) {o : Outcome}
    (hun : ¬ (o = .ok → s.InstallsHashed p hashed)) :
    ∃ s₁, s.rename p (.blob d) o = some s₁ ∧ Broken sha s₁.files := by
  rw [Classical.not_imp] at hun
  obtain ⟨rfl, hne⟩ := hun
  unfold Uploads.InstallsHashed at hne
  push Not at hne
  obtain ⟨b, hb, hne⟩ := hne
  cases hr : s.files.rename p (.blob d) with
  | none =>
    obtain ⟨i, hi, _⟩ := Inodes.read_eq_some.mp hb
    simp only [Inodes.rename, hi] at hr
    split_ifs at hr
  | some g =>
    refine ⟨s.setFiles g, ?_, d, b, ?_, ?_⟩
    · simp only [Uploads.rename, hr, Option.map_some]
    · exact (Inodes.read_rename hr (hp d).symm).1.symm.trans hb
    · intro heq
      exact hne (hsha (heq.trans hd.symm))

theorem unsound_breaks (hsha : Function.Injective sha) (hi : s.Inv sha)
    (hall : ¬ Broken sha s.files) {e : Event D} (hun : ¬ s.Sound e) :
    Broken sha (s.next sha e).files := by
  cases e with
  | patch t body => exact absurd trivial hun
  | put t body d => exact absurd trivial hun
  | forget keep => exact absurd trivial hun
  | advance t o =>
    have hpc := hi.threads t
    show Broken sha (s.advance sha t o).files
    unfold Uploads.advance
    cases h : s.threads t with
    | patchWrite handle off body =>
      simp only [Uploads.Sound, h] at hun
      exact broken_writeAt hsha hall hun
    | putWrite handle off body d =>
      simp only [Uploads.Sound, h] at hun
      exact broken_writeAt hsha hall hun
    | installLinked d hashed key =>
      rw [h] at hpc
      simp only [Uploads.Sound, h] at hun
      obtain ⟨s₁, hs, hbroken⟩ :=
        broken_rename hsha (ne_blob_linked t) (hpc.hashed d hashed rfl) hun
      simp only [hs]
      exact hbroken
    | installStaged d hashed key =>
      rw [h] at hpc
      simp only [Uploads.Sound, h] at hun
      obtain ⟨s₁, hs, hbroken⟩ :=
        broken_rename hsha ne_blob_staging (hpc.hashed d hashed rfl) hun
      simp only [hs]
      exact hbroken
    | _ =>
      exfalso
      simp only [Uploads.Sound, h, not_true] at hun

def wholePut (t : ℕ) (body : Bytes) : List (Event Bytes) :=
  .put t body body :: List.replicate 15 (.advance t .ok)

def Uploads.empty : Uploads Bytes where
  files := { names := fun _ => none, bytes := fun _ => [], mode := fun _ => 0, next := 0 }
  hints := fun _ => none
  threads := fun _ => .idle

theorem empty_start : Uploads.empty.Start where
  allocated := by
    intro p i h
    cases h
  idle := fun _ => rfl

def latePatch : List (Event Bytes) :=
  [Event.patch 0 [2], .advance 0 .ok, .advance 0 .ok] ++ wholePut 1 [1] ++ [Event.advance 0 .ok]

end RenoP.Docker
