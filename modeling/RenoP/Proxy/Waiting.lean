import RenoP.Proxy.ProxyArtifact

/-!
# Waiting for a download (internal/core/inflight.go, internal/service/storage/get_proxy.go)

Whoever finds a path locked waits for the download that locks it, until `UnlockPath` closes its
channel.
-/

namespace RenoP.Proxy

open SlashPath (Path)

structure InFlightDownload where
  done : Bool := false
  success : Bool := false

structure InFlightManager where
  m : Path → Option ℕ
  downloads : List InFlightDownload

namespace InFlightManager

def isDone (mgr : InFlightManager) (dl : ℕ) : Bool := (mgr.downloads[dl]?).any (·.done)

def succeeded (mgr : InFlightManager) (dl : ℕ) : Bool := (mgr.downloads[dl]?).any (·.success)

def lockPath (mgr : InFlightManager) (path : Path) : (ℕ × Bool) × InFlightManager :=
  match mgr.m path with
  | some dl => ((dl, true), mgr)
  | none =>
    ((mgr.downloads.length, false),
      { m := Function.update mgr.m path (some mgr.downloads.length)
        downloads := mgr.downloads ++ [{}] })

def unlockPath (mgr : InFlightManager) (path : Path) (dl : ℕ) (success : Bool) :
    InFlightManager :=
  if mgr.m path = some dl then
    { m := Function.update mgr.m path none
      downloads := mgr.downloads.set dl { done := true, success } }
  else mgr

def unlockAll (mgr : InFlightManager) (path : Path) (dl : ℕ) (unlocked : List Bool) :
    InFlightManager :=
  unlocked.foldl (fun mgr success => mgr.unlockPath path dl success) mgr

end InFlightManager

inductive Caller where
  /-- The turns that are left of the loop, with the present one. -/
  | handleProxy (turns : ℕ)
  | fetchMetadata
  | acquirePath

inductive Phase where
  | idle
  | waiting (caller : Caller) (path : Path) (dl : ℕ)
  | proxying (path : Path) (dl : ℕ)
  | streaming (path : Path) (dl : ℕ) (reader : RepositoryMutationReadCloser)
  | working (path : Path) (dl : ℕ)
  | returned

def Phase.lock : Phase → Option (Path × ℕ)
  | .proxying path dl | .working path dl => some (path, dl)
  | .streaming path dl reader => if reader.once then none else some (path, dl)
  | _ => none

structure System where
  mgr : InFlightManager
  phase : ℕ → Phase

def System.start : System where
  mgr := { m := fun _ => none, downloads := [] }
  phase _ := .idle

/-- What `handleProxy` finds in the index when its wait is over. -/
structure Found where
  notFound : Bool := false
  hasFile : Bool := false

inductive Event where
  | lock (id : ℕ) (caller : Caller) (path : Path)
  | wake (id : ℕ) (found : Found)
  | timeout (id : ℕ)
  | proxy (id : ℕ) (call : ProxyCall)
  | use (id : ℕ) (use : Use)
  | unlock (id : ℕ) (success : Bool)

def Event.id : Event → ℕ
  | .lock id _ _ | .wake id _ | .timeout id | .proxy id _ | .use id _ | .unlock id _ => id

namespace System

def move (s : System) (id : ℕ) (phase : Phase) : System :=
  { s with phase := Function.update s.phase id phase }

def lockPath (s : System) (id : ℕ) (caller : Caller) (path : Path) : System :=
  let ((dl, loaded), mgr) := s.mgr.lockPath path
  let locked := match caller with
    | .acquirePath => Phase.working path dl
    | _ => .proxying path dl
  { s with mgr }.move id (if loaded then .waiting caller path dl else locked)

def wake (s : System) (id : ℕ) (caller : Caller) (path : Path) (dl : ℕ) (found : Found) : System :=
  match caller with
  | .handleProxy turns =>
    if found.notFound ∨ found.hasFile ∨ s.mgr.succeeded dl = false ∨ turns ≤ 1 then
      s.move id .returned
    else s.lockPath id (.handleProxy (turns - 1)) path
  | .fetchMetadata => s.move id .returned
  | .acquirePath => s.lockPath id .acquirePath path

def proxy (demo : Bool) (s : System) (id : ℕ) (path : Path) (dl : ℕ) (call : ProxyCall) : System :=
  let outcome := proxyArtifact demo call
  let phase := match outcome.result with
    | .stream reader => Phase.streaming path dl reader
    | _ => .returned
  { s with mgr := s.mgr.unlockAll path dl outcome.held.unlocked }.move id phase

def use (s : System) (id : ℕ) (path : Path) (dl : ℕ) (reader : RepositoryMutationReadCloser)
    (use : Use) : System :=
  let unlocked := (reader.next use).stream.unlocked.drop reader.stream.unlocked.length
  { s with mgr := s.mgr.unlockAll path dl unlocked }.move id (.streaming path dl (reader.next use))

/-- An event that the phase of its caller does not allow changes nothing. -/
def next (demo : Bool) (s : System) : Event → System
  | .lock id caller path =>
    match s.phase id with
    | .idle => s.lockPath id caller path
    | _ => s
  | .wake id found =>
    match s.phase id with
    | .waiting caller path dl => if s.mgr.isDone dl then s.wake id caller path dl found else s
    | _ => s
  | .timeout id =>
    match s.phase id with
    | .waiting .fetchMetadata _ _ => s.move id .returned
    | _ => s
  | .proxy id call =>
    match s.phase id with
    | .proxying path dl => s.proxy demo id path dl call
    | _ => s
  | .use id use =>
    match s.phase id with
    | .streaming path dl reader => s.use id path dl reader use
    | _ => s
  | .unlock id success =>
    match s.phase id with
    | .working path dl =>
      { s with mgr := s.mgr.unlockPath path dl success }.move id .returned
    | _ => s

def run (demo : Bool) (events : ℕ → Event) : ℕ → System
  | 0 => start
  | n + 1 => (run demo events n).next demo (events n)

def Blocked (s : System) (id : ℕ) : Prop :=
  ∃ caller path dl, s.phase id = .waiting caller path dl ∧ s.mgr.isDone dl = false

end System

/-- Every call of `ProxyArtifact` returns, every stream is closed, and what else locks a path
unlocks it. -/
def Finishes (demo : Bool) (events : ℕ → Event) : Prop :=
  ∀ n id, ∃ m ≥ n, ((System.run demo events m).phase id).lock = none

def NoneStuck (demo : Bool) (events : ℕ → Event) : Prop :=
  ∀ n id, ∃ m ≥ n, ¬(System.run demo events m).Blocked id

namespace InFlightManager

variable {mgr : InFlightManager} {path path' : Path} {dl dl' : ℕ}

theorem isDone_append (h : dl < mgr.downloads.length) (m : Path → Option ℕ) :
    isDone { m, downloads := mgr.downloads ++ [{}] } dl = mgr.isDone dl := by
  unfold isDone
  dsimp only
  rw [List.getElem?_append_left h]

theorem isDone_new (m : Path → Option ℕ) :
    isDone { m, downloads := mgr.downloads ++ [{}] } mgr.downloads.length = false := by
  unfold isDone
  dsimp only
  rw [List.getElem?_concat_length]
  rfl

theorem isDone_set_self (h : dl < mgr.downloads.length) (m : Path → Option ℕ) (success : Bool) :
    isDone { m, downloads := mgr.downloads.set dl { done := true, success } } dl = true := by
  unfold isDone
  dsimp only
  rw [List.getElem?_set_self h]
  rfl

theorem isDone_set_ne (h : dl ≠ dl') (m : Path → Option ℕ) (d : InFlightDownload) :
    isDone { m, downloads := mgr.downloads.set dl d } dl' = mgr.isDone dl' := by
  unfold isDone
  dsimp only
  rw [List.getElem?_set_ne h]

end InFlightManager

def Phase.Sound (downloads : ℕ) : Phase → Prop
  | .waiting _ _ dl => dl < downloads
  | .streaming _ _ reader => if reader.once then reader.Shut else reader.Opened
  | _ => True

theorem Phase.Sound.mono {n m : ℕ} {phase : Phase} (h : phase.Sound n) (hle : n ≤ m) :
    phase.Sound m := by
  cases phase with
  | waiting caller path dl => exact Nat.lt_of_lt_of_le h hle
  | streaming path dl reader => exact h
  | idle => trivial
  | proxying path dl => trivial
  | working path dl => trivial
  | returned => trivial

/-- Each path that is locked has one caller that sees to its lock, and each download that is not
done locks a path. -/
structure Seen (s : System) : Prop where
  listed : ∀ path dl, s.mgr.m path = some dl →
    dl < s.mgr.downloads.length ∧ s.mgr.isDone dl = false ∧
      ∃ id, (s.phase id).lock = some (path, dl)
  inj : ∀ path path' dl, s.mgr.m path = some dl → s.mgr.m path' = some dl → path = path'
  held : ∀ id path dl, (s.phase id).lock = some (path, dl) → s.mgr.m path = some dl
  sole : ∀ id id' path dl, (s.phase id).lock = some (path, dl) →
    (s.phase id').lock = some (path, dl) → id = id'
  live : ∀ dl, dl < s.mgr.downloads.length → s.mgr.isDone dl = false →
    ∃ path, s.mgr.m path = some dl
  sound : ∀ id, (s.phase id).Sound s.mgr.downloads.length

variable {s : System} {id : ℕ} {path : Path} {dl : ℕ}

theorem seen_start : Seen System.start where
  listed _ _ h := nomatch h
  inj _ _ _ h := nomatch h
  held _ _ _ h := nomatch h
  sole _ _ _ _ h := nomatch h
  live dl h := absurd h (Nat.not_lt_zero dl)
  sound _ := trivial

theorem Seen.move (h : Seen s) {phase : Phase} (hlock : phase.lock = (s.phase id).lock)
    (hsound : phase.Sound s.mgr.downloads.length) : Seen (s.move id phase) := by
  have hsame : ∀ i, ((s.move id phase).phase i).lock = (s.phase i).lock := by
    intro i
    dsimp only [System.move]
    by_cases hi : i = id
    · rw [hi, Function.update_self]
      exact hlock
    · rw [Function.update_of_ne hi]
  refine ⟨fun p d hp => ?_, h.inj, fun i p d hi => ?_, fun i i' p d hi hi' => ?_, h.live,
    fun i => ?_⟩
  · obtain ⟨hlt, hundone, holder, hholder⟩ := h.listed p d hp
    exact ⟨hlt, hundone, holder, (hsame holder).trans hholder⟩
  · exact h.held i p d ((hsame i).symm.trans hi)
  · exact h.sole i i' p d ((hsame i).symm.trans hi) ((hsame i').symm.trans hi')
  · dsimp only [System.move]
    by_cases hi : i = id
    · rw [hi, Function.update_self]
      exact hsound
    · rw [Function.update_of_ne hi]
      exact h.sound i

theorem Seen.lockPath (h : Seen s) (hlock : (s.phase id).lock = none) (caller : Caller)
    (path : Path) : Seen (s.lockPath id caller path) := by
  unfold System.lockPath InFlightManager.lockPath
  cases hm : s.mgr.m path with
  | some dl =>
    dsimp only
    rw [if_pos rfl]
    exact h.move hlock.symm (h.listed path dl hm).1
  | none =>
    dsimp only
    rw [if_neg Bool.false_ne_true]
    generalize hphase : (match caller with
      | .acquirePath => Phase.working path s.mgr.downloads.length
      | _ => Phase.proxying path s.mgr.downloads.length) = phase
    have hnew : phase.lock = some (path, s.mgr.downloads.length) := by
      rw [← hphase]
      cases caller with
      | handleProxy turns => rfl
      | fetchMetadata => rfl
      | acquirePath => rfl
    have hsound : phase.Sound (s.mgr.downloads ++ [({} : InFlightDownload)]).length := by
      rw [← hphase]
      cases caller with
      | handleProxy turns => trivial
      | fetchMetadata => trivial
      | acquirePath => trivial
    have hlength : s.mgr.downloads.length ≤ (s.mgr.downloads ++ [({} : InFlightDownload)]).length := by
      rw [List.length_append]
      exact Nat.le_add_right ..
    have hlt : s.mgr.downloads.length < (s.mgr.downloads ++ [({} : InFlightDownload)]).length := by
      rw [List.length_append]
      exact Nat.lt_succ_self _
    -- The locks of the others are on other paths and on older downloads.
    have hother : ∀ i p d, i ≠ id → (s.phase i).lock = some (p, d) →
        p ≠ path ∧ d < s.mgr.downloads.length := by
      intro i p d _ hi
      have hp := h.held i p d hi
      refine ⟨fun heq => ?_, (h.listed p d hp).1⟩
      rw [heq, hm] at hp
      cases hp
    unfold System.move
    refine ⟨fun p d hp => ?_, fun p p' d hp hp' => ?_, fun i p d hi => ?_,
      fun i i' p d hi hi' => ?_, fun d hd hundone => ?_, fun i => ?_⟩
    all_goals dsimp only at *
    · by_cases hpath : p = path
      · rw [hpath, Function.update_self] at hp
        cases hp
        refine ⟨hlt, InFlightManager.isDone_new _, id, ?_⟩
        rw [Function.update_self, hnew, hpath]
      · rw [Function.update_of_ne hpath] at hp
        obtain ⟨hd, hundone, holder, hholder⟩ := h.listed p d hp
        refine ⟨hd.trans_le hlength, (InFlightManager.isDone_append hd _).trans hundone, holder, ?_⟩
        rw [Function.update_of_ne, hholder]
        intro heq
        rw [heq, hlock] at hholder
        cases hholder
    · by_cases hpath : p = path
      · by_cases hpath' : p' = path
        · rw [hpath, hpath']
        · rw [Function.update_of_ne hpath'] at hp'
          rw [hpath, Function.update_self] at hp
          cases hp
          exact absurd (h.listed p' _ hp').1 (Nat.lt_irrefl _)
      · rw [Function.update_of_ne hpath] at hp
        by_cases hpath' : p' = path
        · rw [hpath', Function.update_self] at hp'
          cases hp'
          exact absurd (h.listed p _ hp).1 (Nat.lt_irrefl _)
        · rw [Function.update_of_ne hpath'] at hp'
          exact h.inj p p' d hp hp'
    · by_cases hi' : i = id
      · rw [hi', Function.update_self, hnew] at hi
        cases hi
        rw [Function.update_self]
      · rw [Function.update_of_ne hi'] at hi
        rw [Function.update_of_ne (hother i p d hi' hi).1]
        exact h.held i p d hi
    · by_cases hid : i = id
      · by_cases hid' : i' = id
        · rw [hid, hid']
        · rw [hid, Function.update_self, hnew] at hi
          rw [Function.update_of_ne hid'] at hi'
          cases hi
          exact absurd rfl (hother i' path _ hid' hi').1
      · rw [Function.update_of_ne hid] at hi
        by_cases hid' : i' = id
        · rw [hid', Function.update_self, hnew] at hi'
          cases hi'
          exact absurd rfl (hother i path _ hid hi).1
        · rw [Function.update_of_ne hid'] at hi'
          exact h.sole i i' p d hi hi'
    · rcases Nat.lt_or_ge d s.mgr.downloads.length with hold | hge
      · rw [InFlightManager.isDone_append hold] at hundone
        obtain ⟨p, hp⟩ := h.live d hold hundone
        refine ⟨p, ?_⟩
        rw [Function.update_of_ne, hp]
        intro heq
        rw [heq, hm] at hp
        cases hp
      · rw [List.length_append, List.length_singleton] at hd
        have heq : d = s.mgr.downloads.length := Nat.le_antisymm (Nat.le_of_lt_succ hd) hge
        exact ⟨path, by rw [Function.update_self, heq]⟩
    · by_cases hi : i = id
      · rw [hi, Function.update_self]
        exact hsound
      · rw [Function.update_of_ne hi]
        exact (h.sound i).mono hlength

theorem Seen.unlockPath (h : Seen s) (hlock : (s.phase id).lock = some (path, dl))
    (success : Bool) {phase : Phase} (hnone : phase.lock = none)
    (hsound : phase.Sound s.mgr.downloads.length) :
    Seen ({ s with mgr := s.mgr.unlockPath path dl success }.move id phase) := by
  have hm := h.held id path dl hlock
  have hdl := (h.listed path dl hm).1
  have hlength : ∀ d : InFlightDownload,
      (s.mgr.downloads.set dl d).length = s.mgr.downloads.length := fun d => List.length_set
  unfold InFlightManager.unlockPath System.move
  rw [if_pos hm]
  refine ⟨fun p d hp => ?_, fun p p' d hp hp' => ?_, fun i p d hi => ?_,
    fun i i' p d hi hi' => ?_, fun d hd hundone => ?_, fun i => ?_⟩
  all_goals dsimp only at *
  · by_cases hpath : p = path
    · rw [hpath, Function.update_self] at hp
      cases hp
    · rw [Function.update_of_ne hpath] at hp
      obtain ⟨hd, hundone, holder, hholder⟩ := h.listed p d hp
      have hne : dl ≠ d := fun heq => hpath (h.inj p path dl (by rw [heq]; exact hp) hm)
      refine ⟨by rw [hlength]; exact hd, (InFlightManager.isDone_set_ne hne _ _).trans hundone,
        holder, ?_⟩
      rw [Function.update_of_ne, hholder]
      intro heq
      rw [heq, hlock] at hholder
      cases hholder
      exact hpath rfl
  · by_cases hpath : p = path
    · rw [hpath, Function.update_self] at hp
      cases hp
    · by_cases hpath' : p' = path
      · rw [hpath', Function.update_self] at hp'
        cases hp'
      · rw [Function.update_of_ne hpath] at hp
        rw [Function.update_of_ne hpath'] at hp'
        exact h.inj p p' d hp hp'
  · by_cases hi' : i = id
    · rw [hi', Function.update_self, hnone] at hi
      cases hi
    · rw [Function.update_of_ne hi'] at hi
      have hp := h.held i p d hi
      rw [Function.update_of_ne, hp]
      intro heq
      rw [heq] at hi hp
      rw [hm] at hp
      cases hp
      exact hi' (h.sole i id path dl hi hlock)
  · by_cases hid : i = id
    · rw [hid, Function.update_self, hnone] at hi
      cases hi
    · by_cases hid' : i' = id
      · rw [hid', Function.update_self, hnone] at hi'
        cases hi'
      · rw [Function.update_of_ne hid] at hi
        rw [Function.update_of_ne hid'] at hi'
        exact h.sole i i' p d hi hi'
  · rw [hlength] at hd
    by_cases heq : dl = d
    · rw [← heq, InFlightManager.isDone_set_self hdl] at hundone
      cases hundone
    · rw [InFlightManager.isDone_set_ne heq] at hundone
      obtain ⟨p, hp⟩ := h.live d hd hundone
      refine ⟨p, ?_⟩
      rw [Function.update_of_ne, hp]
      intro hpath
      rw [hpath, hm] at hp
      cases hp
      exact heq rfl
  · rw [hlength]
    by_cases hi : i = id
    · rw [hi, Function.update_self]
      exact hsound
    · rw [Function.update_of_ne hi]
      exact h.sound i

theorem InFlightManager.unlockAll_nil (mgr : InFlightManager) (path : Path) (dl : ℕ) :
    mgr.unlockAll path dl [] = mgr := rfl

theorem InFlightManager.unlockAll_of_length (mgr : InFlightManager) (path : Path) (dl : ℕ)
    {unlocked : List Bool} (h : unlocked.length = 1) :
    ∃ success, mgr.unlockAll path dl unlocked = mgr.unlockPath path dl success := by
  obtain ⟨success, hunlocked⟩ := List.length_eq_one_iff.mp h
  refine ⟨success, ?_⟩
  rw [hunlocked]
  rfl

theorem Seen.proxy (h : Seen s) (hphase : s.phase id = .proxying path dl) (call : ProxyCall) :
    Seen (s.proxy false id path dl call) := by
  have hlock : (s.phase id).lock = some (path, dl) := by rw [hphase]; rfl
  have hsettled := settled_proxyArtifact call
  unfold System.proxy
  generalize proxyArtifact false call = outcome at hsettled ⊢
  obtain ⟨result, held, negativeCached⟩ := outcome
  dsimp only
  cases result with
  | error err =>
    obtain ⟨success, hunlock⟩ := InFlightManager.unlockAll_of_length s.mgr path dl
      hsettled.unlocked
    rw [hunlock]
    exact h.unlockPath hlock success rfl trivial
  | buffered data =>
    obtain ⟨success, hunlock⟩ := InFlightManager.unlockAll_of_length s.mgr path dl
      hsettled.unlocked
    rw [hunlock]
    exact h.unlockPath hlock success rfl trivial
  | stream reader =>
    obtain ⟨hopened, h', hb, hheld⟩ := hsettled
    dsimp only at hheld
    have hnone : held.unlocked = [] := by
      rw [hheld]
      exact hb.unlocked
    rw [hnone, InFlightManager.unlockAll_nil]
    refine h.move ?_ ?_
    · rw [hlock]
      dsimp only [Phase.lock]
      rw [hopened.gate.1]
      rfl
    · dsimp only [Phase.Sound]
      rw [hopened.gate.1]
      exact hopened

theorem Seen.use {reader : RepositoryMutationReadCloser} (h : Seen s)
    (hphase : s.phase id = .streaming path dl reader) (use : Use) :
    Seen (s.use id path dl reader use) := by
  have hsound := h.sound id
  rw [hphase] at hsound
  dsimp only [Phase.Sound] at hsound
  unfold System.use
  dsimp only
  by_cases honce : reader.once = true
  · rw [if_pos honce] at hsound
    have hshut := hsound.next use
    have hdrop : (reader.next use).stream.unlocked.drop reader.stream.unlocked.length = [] := by
      rw [List.drop_eq_nil_iff, hshut.stream.unlocked, hsound.stream.unlocked]
    rw [hdrop, InFlightManager.unlockAll_nil]
    refine h.move ?_ ?_
    · rw [hphase]
      dsimp only [Phase.lock]
      rw [honce, hshut.gate.1]
    · dsimp only [Phase.Sound]
      rw [hshut.gate.1]
      exact hshut
  · rw [if_neg honce] at hsound
    have hlock : (s.phase id).lock = some (path, dl) := by
      rw [hphase]
      exact if_neg honce
    have hnext := hsound.next use
    rw [hsound.stream.unlocked, List.length_nil, List.drop_zero]
    by_cases hclose : use.isClose = true
    · rw [if_pos hclose] at hnext
      obtain ⟨success, hunlock⟩ := InFlightManager.unlockAll_of_length s.mgr path dl
        hnext.stream.unlocked
      rw [hunlock]
      refine h.unlockPath hlock success ?_ ?_
      · dsimp only [Phase.lock]
        rw [hnext.gate.1]
        rfl
      · dsimp only [Phase.Sound]
        rw [hnext.gate.1]
        exact hnext
    · rw [if_neg hclose] at hnext
      rw [hnext.stream.unlocked, InFlightManager.unlockAll_nil]
      refine h.move ?_ ?_
      · rw [hlock]
        dsimp only [Phase.lock]
        rw [hnext.gate.1]
        rfl
      · dsimp only [Phase.Sound]
        rw [hnext.gate.1]
        exact hnext

theorem Seen.wake {caller : Caller} (h : Seen s) (hphase : s.phase id = .waiting caller path dl)
    (found : Found) : Seen (s.wake id caller path dl found) := by
  have hlock : (s.phase id).lock = none := by rw [hphase]; rfl
  unfold System.wake
  cases caller with
  | handleProxy turns =>
    dsimp only
    split_ifs
    · exact h.move hlock.symm trivial
    · exact h.lockPath hlock _ path
  | fetchMetadata => exact h.move hlock.symm trivial
  | acquirePath => exact h.lockPath hlock _ path

theorem Seen.next (h : Seen s) (e : Event) : Seen (s.next false e) := by
  unfold System.next
  cases e with
  | lock id caller path =>
    dsimp only
    cases hphase : s.phase id with
    | idle => exact h.lockPath (by rw [hphase]; rfl) caller path
    | _ => exact h
  | wake id found =>
    dsimp only
    cases hphase : s.phase id with
    | waiting caller path dl =>
      dsimp only
      by_cases hdone : s.mgr.isDone dl = true
      · rw [if_pos hdone]
        exact h.wake hphase found
      · rw [if_neg hdone]
        exact h
    | _ => exact h
  | timeout id =>
    dsimp only
    cases hphase : s.phase id with
    | waiting caller path dl =>
      cases caller with
      | fetchMetadata => exact h.move (by rw [hphase]; rfl) trivial
      | _ => exact h
    | _ => exact h
  | proxy id call =>
    dsimp only
    cases hphase : s.phase id with
    | proxying path dl => exact h.proxy hphase call
    | _ => exact h
  | use id use =>
    dsimp only
    cases hphase : s.phase id with
    | streaming path dl reader => exact h.use hphase use
    | _ => exact h
  | unlock id success =>
    dsimp only
    cases hphase : s.phase id with
    | working path dl => exact h.unlockPath (by rw [hphase]; rfl) success rfl trivial
    | _ => exact h

theorem seen_run (events : ℕ → Event) (n : ℕ) : Seen (System.run false events n) := by
  induction n with
  | zero => exact seen_start
  | succ n ih => exact ih.next (events n)

/-- At any time one caller at most has the lock of a path, and whoever waits for a download that is
not done waits for one that another caller is about. -/
theorem one_download_at_a_time (events : ℕ → Event) (n : ℕ) :
    (∀ id id' path dl dl', ((System.run false events n).phase id).lock = some (path, dl) →
      ((System.run false events n).phase id').lock = some (path, dl') → id = id' ∧ dl = dl') ∧
    ∀ id, (System.run false events n).Blocked id → ∃ caller path dl holder path',
      (System.run false events n).phase id = .waiting caller path dl ∧
        ((System.run false events n).phase holder).lock = some (path', dl) ∧ holder ≠ id := by
  have h := seen_run events n
  constructor
  · intro id id' path dl dl' hid hid'
    have heq := (h.held id path dl hid).symm.trans (h.held id' path dl' hid')
    cases heq
    exact ⟨h.sole id id' path dl hid hid', rfl⟩
  · rintro id ⟨caller, path, dl, hphase, hundone⟩
    have hlt : dl < (System.run false events n).mgr.downloads.length := by
      have := h.sound id
      rwa [hphase] at this
    obtain ⟨path', hpath⟩ := h.live dl hlt hundone
    obtain ⟨-, -, holder, hholder⟩ := h.listed path' dl hpath
    refine ⟨caller, path, dl, holder, path', hphase, hholder, ?_⟩
    rintro rfl
    rw [hphase] at hholder
    cases hholder

theorem next_phase {demo : Bool} {e : Event} (h : id ≠ e.id) :
    (s.next demo e).phase id = s.phase id := by
  have hmove : ∀ (s' : System) (phase : Phase), (s'.move e.id phase).phase id = s'.phase id :=
    fun s' phase => Function.update_of_ne h ..
  have hlockPath : ∀ caller path, (s.lockPath e.id caller path).phase id = s.phase id :=
    fun caller path => hmove _ _
  cases e with
  | lock i caller path =>
    dsimp only [System.next]
    cases s.phase i with
    | idle => exact hlockPath caller path
    | _ => rfl
  | wake i found =>
    dsimp only [System.next]
    cases s.phase i with
    | waiting caller path dl =>
      dsimp only
      split_ifs
      · unfold System.wake
        cases caller with
        | handleProxy turns =>
          dsimp only
          split_ifs
          · exact hmove s _
          · exact hlockPath _ path
        | fetchMetadata => exact hmove s _
        | acquirePath => exact hlockPath _ path
      · rfl
    | _ => rfl
  | timeout i =>
    dsimp only [System.next]
    cases s.phase i with
    | waiting caller path dl =>
      cases caller with
      | fetchMetadata => exact hmove s _
      | _ => rfl
    | _ => rfl
  | proxy i call =>
    dsimp only [System.next]
    cases s.phase i with
    | proxying path dl => exact hmove _ _
    | _ => rfl
  | use i use =>
    dsimp only [System.next]
    cases s.phase i with
    | streaming path dl reader => exact hmove _ _
    | _ => rfl
  | unlock i success =>
    dsimp only [System.next]
    cases s.phase i with
    | working path dl => exact hmove _ _
    | _ => rfl

theorem next_waiting (demo : Bool) {caller : Caller} (e : Event)
    (hphase : s.phase id = .waiting caller path dl) (hundone : s.mgr.isDone dl = false) :
    (s.next demo e).phase id = .waiting caller path dl ∨ (s.next demo e).phase id = .returned := by
  by_cases hid : id = e.id
  · cases e with
    | lock i caller' path' =>
      left
      dsimp only [Event.id] at hid
      dsimp only [System.next]
      rw [← hid, hphase]
      exact hphase
    | wake i found =>
      left
      dsimp only [Event.id] at hid
      dsimp only [System.next]
      rw [← hid, hphase]
      dsimp only
      rw [hundone, if_neg Bool.false_ne_true]
      exact hphase
    | timeout i =>
      dsimp only [Event.id] at hid
      dsimp only [System.next]
      rw [← hid, hphase]
      cases caller with
      | fetchMetadata => exact Or.inr (Function.update_self ..)
      | handleProxy turns => exact Or.inl hphase
      | acquirePath => exact Or.inl hphase
    | proxy i call =>
      left
      dsimp only [Event.id] at hid
      dsimp only [System.next]
      rw [← hid, hphase]
      exact hphase
    | use i use =>
      left
      dsimp only [Event.id] at hid
      dsimp only [System.next]
      rw [← hid, hphase]
      exact hphase
    | unlock i success =>
      left
      dsimp only [Event.id] at hid
      dsimp only [System.next]
      rw [← hid, hphase]
      exact hphase
  · exact Or.inl ((next_phase hid).trans hphase)

theorem Seen.next_holder (h : Seen s) {e : Event} (hlock : (s.phase id).lock = some (path, dl))
    (hlt : dl < (s.next false e).mgr.downloads.length)
    (hundone : (s.next false e).mgr.isDone dl = false) :
    ∃ path, ((s.next false e).phase id).lock = some (path, dl) := by
  by_cases hid : id = e.id
  · have hnext := h.next e
    obtain ⟨path', hm⟩ := hnext.live dl hlt hundone
    obtain ⟨-, -, holder, hholder⟩ := hnext.listed path' dl hm
    by_cases hmoved : holder = e.id
    · exact ⟨path', by rw [hid, ← hmoved, hholder]⟩
    · -- Another holder has had the download before, which was that of the caller.
      rw [next_phase hmoved] at hholder
      have hpath := h.inj path' path dl (h.held holder path' dl hholder) (h.held id path dl hlock)
      rw [hpath] at hholder
      exact absurd ((h.sole holder id path dl hholder hlock).trans hid) hmoved
  · exact ⟨path, by rw [next_phase hid, hlock]⟩

theorem noneStuck_of_finishes (events : ℕ → Event) (hfinishes : Finishes false events) :
    NoneStuck false events := by
  intro n id
  by_contra hstuck
  have hblocked : ∀ k, (System.run false events (n + k)).Blocked id := by
    intro k
    by_contra hfree
    exact hstuck ⟨n + k, Nat.le_add_right n k, hfree⟩
  obtain ⟨caller, path, dl, hphase, hundone⟩ := hblocked 0
  have hwaits : ∀ k, (System.run false events (n + k)).phase id = .waiting caller path dl ∧
      (System.run false events (n + k)).mgr.isDone dl = false := by
    intro k
    induction k with
    | zero => exact ⟨hphase, hundone⟩
    | succ k ih =>
      obtain ⟨caller', path', dl', hphase', hundone'⟩ := hblocked (k + 1)
      have hstep := next_waiting false (events (n + k)) ih.1 ih.2
      rcases hstep with hsame | hreturned
      · have hphases := hphase'.symm.trans hsame
        cases hphases
        exact ⟨hphase', hundone'⟩
      · have hphases := hphase'.symm.trans hreturned
        cases hphases
  have hlt : ∀ k, dl < (System.run false events (n + k)).mgr.downloads.length := by
    intro k
    have hsound := (seen_run events (n + k)).sound id
    rw [(hwaits k).1] at hsound
    exact hsound
  obtain ⟨path', hm⟩ := (seen_run events n).live dl (hlt 0) hundone
  obtain ⟨-, -, holder, hholder⟩ := (seen_run events n).listed path' dl hm
  have hholds : ∀ k, ∃ path, ((System.run false events (n + k)).phase holder).lock =
      some (path, dl) := by
    intro k
    induction k with
    | zero => exact ⟨path', hholder⟩
    | succ k ih =>
      obtain ⟨path, hlock⟩ := ih
      exact (seen_run events (n + k)).next_holder hlock (hlt (k + 1)) (hwaits (k + 1)).2
  obtain ⟨m, hle, hnone⟩ := hfinishes n holder
  obtain ⟨k, rfl⟩ := Nat.exists_eq_add_of_le hle
  obtain ⟨path, hlock⟩ := hholds k
  rw [hnone] at hlock
  cases hlock

def demoCall : ProxyCall where
  localFilePath := ['f']
  mirrors := [{ mirrorURL := "https://mirror/f", reply := none }]
  responseLimit := 1
  index := RenoP.Index.newFileIndex

def demoEvents : ℕ → Event
  | 0 => .lock 0 (.handleProxy 3) ['f']
  | 1 => .proxy 0 demoCall
  | 2 => .lock 1 (.handleProxy 3) ['f']
  | _ => .wake 1 {}

theorem demoEvents_waiting (k : ℕ) :
    (System.run true demoEvents (3 + k)).phase 1 = .waiting (.handleProxy 3) ['f'] 0 ∧
      (System.run true demoEvents (3 + k)).mgr.isDone 0 = false ∧
      ∀ id, ((System.run true demoEvents (3 + k)).phase id).lock = none := by
  induction k with
  | zero =>
    refine ⟨rfl, rfl, fun id => ?_⟩
    match id with
    | 0 => rfl
    | 1 => rfl
    | id + 2 => rfl
  | succ k ih =>
    have hstep : System.run true demoEvents (3 + (k + 1)) = System.run true demoEvents (3 + k) := by
      have hevent : demoEvents (3 + k) = .wake 1 {} := by
        rw [Nat.add_comm]
        rfl
      change (System.run true demoEvents (3 + k)).next true (demoEvents (3 + k)) = _
      rw [hevent]
      dsimp only [System.next]
      rw [ih.1]
      dsimp only
      rw [ih.2.1, if_neg Bool.false_ne_true]
    rw [hstep]
    exact ih

theorem demoEvents_finishes : Finishes true demoEvents := by
  intro n id
  exact ⟨3 + n, Nat.le_add_left n 3, (demoEvents_waiting n).2.2 id⟩

theorem demoEvents_stuck (m : ℕ) (h : 3 ≤ m) : (System.run true demoEvents m).Blocked 1 := by
  obtain ⟨k, rfl⟩ := Nat.exists_eq_add_of_le h
  exact ⟨_, _, _, (demoEvents_waiting k).1, (demoEvents_waiting k).2.1⟩

/-- In a demo the lock is not released, and the next request for the path waits forever. -/
theorem demo_keeps_lock :
    ¬(proxyArtifact true demoCall).ReleasesAll ∧
      Finishes true demoEvents ∧ ¬NoneStuck true demoEvents := by
  refine ⟨demo_not_releasesAll _, demoEvents_finishes, fun hnone => ?_⟩
  obtain ⟨m, hm, hfree⟩ := hnone 3 1
  exact hfree (demoEvents_stuck m hm)

/-- Outside of a demo, and only there, a call of `ProxyArtifact` releases all that it holds, and
nobody waits forever for a download. -/
theorem proxyArtifact_releases_iff (demo : Bool) :
    (∀ call : ProxyCall, (proxyArtifact demo call).ReleasesAll ↔ demo = false) ∧
      ((∀ events, Finishes demo events → NoneStuck demo events) ↔ demo = false) := by
  cases demo with
  | false =>
    exact ⟨fun call => iff_of_true (settled_proxyArtifact call).releasesAll rfl,
      iff_of_true noneStuck_of_finishes rfl⟩
  | true =>
    refine ⟨fun call => iff_of_false (demo_not_releasesAll call) Bool.noConfusion,
      iff_of_false (fun hall => ?_) Bool.noConfusion⟩
    obtain ⟨m, hm, hfree⟩ := hall demoEvents demoEvents_finishes 3 1
    exact hfree (demoEvents_stuck m hm)

end RenoP.Proxy
