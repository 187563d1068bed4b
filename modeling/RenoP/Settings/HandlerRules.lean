import RenoP.Settings.Handlers

/-!
# Steps of the handlers

What holds of the configuration whatever handlers run, what each may rely on, and one rule for
each step.
-/

namespace RenoP.Settings

open RenoP.Database (Text)
open Process

variable {D : Type} {lib : Library D} {start : Config D} {s t u : Store D} {n id : ℕ}
  {name : Text}

structure Inv (lib : Library D) (start : Config D) (s : Store D) : Prop where
  current : s.current < s.fresh
  running : s.running = replay lib start s.stored
  persisted : s.persisted = replay lib start s.saved
  stored : Applied lib start s.stored
  saved : Applied lib start s.saved
  settled : s.configWriteLock = none → s.savedTraffic = s.running.trafficLimit

structure Frozen (s t : Store D) : Prop where
  configWriteLock : t.configWriteLock = s.configWriteLock
  current : t.current = s.current
  running : t.running = s.running
  persisted : t.persisted = s.persisted
  stored : t.stored = s.stored
  saved : t.saved = s.saved

structure Guarded (id : ℕ) (name : Text) (s t : Store D) : Prop where
  gate : t.gates.load (repositoryStripeIndex name) = some id
  running : t.running.repositories.load name = s.running.repositories.load name
  snapshots : ∀ p, p < s.fresh →
    (t.snapshots p).repositories.load name = (s.snapshots p).repositories.load name

def Holds (id : ℕ) (name : Text) (s : Store D) : Prop :=
  s.gates.load (repositoryStripeIndex name) = some id

structure Rely (id : ℕ) (s t : Store D) : Prop where
  locked : s.configWriteLock = some id → Frozen s t
  gated : ∀ name, Holds id name s → Guarded id name s t
  fresh : s.fresh ≤ t.fresh
  stored : ∀ e ∈ s.stored, e ∈ t.stored
  both : ∀ e, e ∈ s.stored → e ∈ s.saved → e ∈ t.stored ∧ e ∈ t.saved

def Guar (id : ℕ) (s t : Store D) : Prop := ∀ id', id' ≠ id → Rely id' s t

/-- A redirect renames, saves and stores while its snapshot is the running one and nobody holds
the lock, or, as it renames, the gate; and its save succeeds. -/
def Undisturbed (lib : Library D) (ok : Bool) (s : Store D) : Request D → Prop
  | .renameRepo snapshot name oldSlug newSlug =>
    (s.renamed lib snapshot name oldSlug newSlug).isSome →
      snapshot = s.current ∧ s.configWriteLock = none ∧
        s.gates.load (repositoryStripeIndex name) = none
  | .saveSnapshot snapshot => ok = true ∧ snapshot = s.current ∧ s.configWriteLock = none
  | .storeSnapshot snapshot => snapshot = s.current
  | _ => True

abbrev Call.Sound {α : Type} (lib : Library D) (start : Config D) (id : ℕ)
    (post : α → Store D → Prop) (p : Call D α) (s : Store D) : Prop :=
  Process.Sound (serve lib id) (fun r c s => Undisturbed lib c s r) id (fun _ => Inv lib start)
    (Rely id) (Guar id) post p s

theorem Frozen.refl (s : Store D) : Frozen s s := ⟨rfl, rfl, rfl, rfl, rfl, rfl⟩

theorem Frozen.trans (h : Frozen s t) (h' : Frozen t u) : Frozen s u :=
  ⟨h'.configWriteLock.trans h.configWriteLock, h'.current.trans h.current,
    h'.running.trans h.running, h'.persisted.trans h.persisted, h'.stored.trans h.stored,
    h'.saved.trans h.saved⟩

theorem Rely.refl (s : Store D) : Rely id s s :=
  ⟨fun _ => Frozen.refl s, fun _ h => ⟨h, rfl, fun _ _ => rfl⟩, Nat.le_refl _, fun _ h => h,
    fun _ h h' => ⟨h, h'⟩⟩

theorem Rely.trans (h : Rely id s t) (h' : Rely id t u) : Rely id s u where
  locked hlock :=
    (h.locked hlock).trans (h'.locked ((h.locked hlock).configWriteLock.trans hlock))
  gated name hgate := by
    have hst := h.gated name hgate
    have htu := h'.gated name hst.gate
    exact ⟨htu.gate, htu.running.trans hst.running, fun p hp =>
      (htu.snapshots p (Nat.lt_of_lt_of_le hp h.fresh)).trans (hst.snapshots p hp)⟩
  fresh := Nat.le_trans h.fresh h'.fresh
  stored e he := h'.stored e (h.stored e he)
  both e hstored hsaved := by
    obtain ⟨hstored', hsaved'⟩ := h.both e hstored hsaved
    exact h'.both e hstored' hsaved'

structure Quiet (s t : Store D) : Prop where
  snapshots : t.snapshots = s.snapshots
  current : t.current = s.current
  fresh : t.fresh = s.fresh
  savedRepositories : t.savedRepositories = s.savedRepositories
  savedTraffic : t.savedTraffic = s.savedTraffic
  stored : t.stored = s.stored
  saved : t.saved = s.saved

theorem Quiet.running (h : Quiet s t) : t.running = s.running := by
  unfold Store.running
  rw [h.snapshots, h.current]

theorem Quiet.persisted (h : Quiet s t) : t.persisted = s.persisted := by
  unfold Store.persisted
  rw [h.savedRepositories, h.savedTraffic]

theorem Quiet.inv (h : Quiet s t) (hinv : Inv lib start s)
    (hsettled : t.configWriteLock = none → s.savedTraffic = s.running.trafficLimit) :
    Inv lib start t := by
  constructor
  · rw [h.current, h.fresh]
    exact hinv.current
  · rw [h.running, h.stored]
    exact hinv.running
  · rw [h.persisted, h.saved]
    exact hinv.persisted
  · rw [h.stored]
    exact hinv.stored
  · rw [h.saved]
    exact hinv.saved
  · intro hfree
    rw [h.savedTraffic, h.running]
    exact hsettled hfree

theorem Quiet.rely {id' : ℕ} (h : Quiet s t)
    (hlock : s.configWriteLock = some id' → t.configWriteLock = s.configWriteLock)
    (hgate : ∀ name, Holds id' name s → Holds id' name t) : Rely id' s t := by
  constructor
  · exact fun hheld => ⟨hlock hheld, h.current, h.running, h.persisted, h.stored, h.saved⟩
  · intro name hheld
    refine ⟨hgate name hheld, ?_, fun p _ => ?_⟩
    · rw [h.running]
    · rw [h.snapshots]
  · exact Nat.le_of_eq h.fresh.symm
  · intro e he
    rw [h.stored]
    exact he
  · intro e hstored hsaved
    rw [h.stored, h.saved]
    exact ⟨hstored, hsaved⟩

variable {α : Type} {post : α → Store D → Prop}

theorem sound_reads {r : Request D} {k : Response r → Call D α} (answer : Response r → Store D → Prop)
    (hserve : ∀ c s' t x, Inv lib start s' → serve lib id r c s' = some (t, x) →
      t = s' ∧ answer x s')
    (hnext : ∀ x t, Rely id s t → answer x t → Call.Sound lib start id post (k x) t) :
    Call.Sound lib start id post (ask r >>= k) s := by
  refine Sound.step (fun x t => Rely id s t ∧ answer x t) ?_ fun x t h => hnext x t h.1 h.2
  intro n s' _ hinv hrely c t x _ hstep
  obtain ⟨rfl, hanswer⟩ := hserve c s' t x hinv hstep
  exact ⟨hinv, fun _ _ => Rely.refl _, hrely, hanswer⟩

theorem sound_load {k : ℕ → Call D α}
    (hnext : ∀ t, Rely id s t → t.current < t.fresh →
      Call.Sound lib start id post (k t.current) t) :
    Call.Sound lib start id post (ask .load >>= k) s := by
  refine sound_reads (fun x t => x = t.current ∧ t.current < t.fresh) ?_ ?_
  · intro c s' t x hinv h
    cases h
    exact ⟨rfl, rfl, hinv.current⟩
  · rintro x t hrely ⟨rfl, hfresh⟩
    exact hnext t hrely hfresh

theorem sound_read {p : ℕ} {k : Config D → Call D α}
    (hnext : ∀ t, Rely id s t → Call.Sound lib start id post (k (t.snapshots p)) t) :
    Call.Sound lib start id post (ask (.read p) >>= k) s := by
  refine sound_reads (fun x t => x = t.snapshots p) ?_ ?_
  · intro c s' t x _ h
    cases h
    exact ⟨rfl, rfl⟩
  · rintro x t hrely rfl
    exact hnext t hrely

theorem sound_outside {k : Bool → Call D α}
    (hnext : ∀ x t, Rely id s t → Call.Sound lib start id post (k x) t) :
    Call.Sound lib start id post (ask .outside >>= k) s := by
  refine sound_reads (fun _ _ => True) ?_ fun x t hrely _ => hnext x t hrely
  intro c s' t x _ h
  cases h
  exact ⟨rfl, trivial⟩

theorem sound_acquireMigration {k : Unit → Call D α}
    (hnext : ∀ t, Holds id name t → Call.Sound lib start id post (k ()) t) :
    Call.Sound lib start id post (ask (.acquireMigration name) >>= k) s := by
  refine Sound.step (fun _ t => Holds id name t) ?_ fun _ t => hnext t
  intro n s' _ hinv hrely c t x _ hstep
  unfold serve at hstep
  dsimp only at hstep
  split_ifs at hstep with hfree
  cases hstep
  have hquiet : Quiet s' { s' with gates := s'.gates.store (repositoryStripeIndex name) id } :=
    ⟨rfl, rfl, rfl, rfl, rfl, rfl, rfl⟩
  refine ⟨hquiet.inv hinv hinv.settled, ?_, ?_⟩
  · intro id' _
    refine hquiet.rely (fun _ => rfl) ?_
    intro name' hheld
    show GoMap.load (s'.gates.store _ _) _ = _
    rw [GoMap.load_store, if_neg]
    · exact hheld
    · intro heq
      rw [← heq, Option.isSome_iff_exists.mpr ⟨id', hheld⟩] at hfree
      exact hfree rfl
  · exact (GoMap.load_store _ _ _ _).trans (if_pos rfl)

def Done (id : ℕ) (updates : List (Update D)) (s : Store D) : Prop :=
  ∀ u ∈ updates, (id, u) ∈ s.stored ∧ (id, u) ∈ s.saved

theorem Done.rely {id' : ℕ} {updates : List (Update D)} (h : Done id updates s)
    (hrely : Rely id' s t) : Done id updates t :=
  fun u hu => hrely.both (id, u) (h u hu).1 (h u hu).2

theorem sound_releaseMigration {updates : List (Update D)} (hheld : Holds id name s)
    (hdone : Done id updates s) :
    Call.Sound lib start id (Done id)
      (ask (.releaseMigration name) >>= fun _ => return updates) s := by
  refine Sound.step (fun _ t => Done id updates t) ?_ fun _ t h => h
  intro n s' _ hinv hrely c t x _ hstep
  have hgate := (hrely.gated name hheld).gate
  cases hstep
  have hquiet : Quiet s' { s' with gates := s'.gates.delete (repositoryStripeIndex name) } :=
    ⟨rfl, rfl, rfl, rfl, rfl, rfl, rfl⟩
  refine ⟨hquiet.inv hinv hinv.settled, ?_,
    fun u hu => hrely.both (id, u) (hdone u hu).1 (hdone u hu).2⟩
  intro id' hne
  refine hquiet.rely (fun _ => rfl) ?_
  intro name' hheld'
  show GoMap.load (s'.gates.delete _) _ = _
  rw [GoMap.load_delete, if_neg]
  · exact hheld'
  · intro heq
    rw [Holds, heq, hgate] at hheld'
    cases hheld'
    exact hne rfl

/-- The lock is held, and the running configuration is `c`. -/
structure InSection (id : ℕ) (c : Config D) (s : Store D) : Prop where
  locked : s.configWriteLock = some id
  running : s.running = c
  settled : s.savedTraffic = c.trafficLimit

theorem InSection.rely {c : Config D} (h : InSection id c s) (hrely : Rely id s t) :
    InSection id c t := by
  have hfrozen := hrely.locked h.locked
  exact ⟨hfrozen.configWriteLock.trans h.locked, hfrozen.running.trans h.running,
    (congrArg Config.trafficLimit hfrozen.persisted).trans h.settled⟩

structure Keeps (id : ℕ) (s t : Store D) : Prop where
  gates : ∀ name, Holds id name s → Holds id name t
  both : ∀ e, e ∈ s.stored → e ∈ s.saved → e ∈ t.stored ∧ e ∈ t.saved

theorem Rely.keeps (h : Rely id s t) : Keeps id s t :=
  ⟨fun name hheld => (h.gated name hheld).gate, h.both⟩

theorem Keeps.trans (h : Keeps id s t) (h' : Keeps id t u) : Keeps id s u where
  gates name hheld := h'.gates name (h.gates name hheld)
  both e hstored hsaved := by
    obtain ⟨hstored', hsaved'⟩ := h.both e hstored hsaved
    exact h'.both e hstored' hsaved'

theorem sound_lock {k : Unit → Call D α}
    (hnext : ∀ t, Rely id s t → InSection id t.running t → Call.Sound lib start id post (k ()) t) :
    Call.Sound lib start id post (ask .lock >>= k) s := by
  refine Sound.step (fun _ t => Rely id s t ∧ InSection id t.running t) ?_
    fun _ t h => hnext t h.1 h.2
  intro n s' _ hinv hrely c t x _ hstep
  unfold serve at hstep
  dsimp only at hstep
  split_ifs at hstep with hfree
  cases hstep
  have hnone : s'.configWriteLock = none := Option.not_isSome_iff_eq_none.mp hfree
  have hquiet : Quiet s' { s' with configWriteLock := some id } :=
    ⟨rfl, rfl, rfl, rfl, rfl, rfl, rfl⟩
  have hall : ∀ id', Rely id' s' { s' with configWriteLock := some id } :=
    fun id' => hquiet.rely (fun hheld => by cases hnone.symm.trans hheld) fun _ h => h
  refine ⟨hquiet.inv hinv fun hlocked => ?_, fun id' _ => hall id', hrely.trans (hall id), rfl,
    rfl, hinv.settled hnone⟩
  cases hlocked

theorem sound_unlock {c : Config D} {k : Unit → Call D α} (h : InSection id c s)
    (hnext : ∀ t, Keeps id s t → t.running = c →
      Call.Sound lib start id post (k ()) t) :
    Call.Sound lib start id post (ask .unlock >>= k) s := by
  refine Sound.step (fun _ t => Keeps id s t ∧ t.running = c) ?_ fun _ t h => hnext t h.1 h.2
  intro n s' _ hinv hrely c' t x _ hstep
  cases hstep
  have hs' := h.rely hrely
  have hquiet : Quiet s' { s' with configWriteLock := none } := ⟨rfl, rfl, rfl, rfl, rfl, rfl, rfl⟩
  refine ⟨hquiet.inv hinv fun _ => ?_, ?_, ⟨hrely.keeps.gates, hrely.keeps.both⟩, hs'.running⟩
  · rw [hs'.settled, hs'.running]
  · intro id' hne
    refine hquiet.rely ?_ fun _ hheld => hheld
    intro hheld
    cases hs'.locked.symm.trans hheld
    exact absurd rfl hne

theorem rely_of_locked {id' : ℕ} (hlocked : s.configWriteLock = some id) (hne : id' ≠ id)
    (hgated : ∀ name, Holds id' name s → Guarded id' name s t) (hfresh : s.fresh ≤ t.fresh)
    (hstored : ∀ e ∈ s.stored, e ∈ t.stored)
    (hboth : ∀ e, e ∈ s.stored → e ∈ s.saved → e ∈ t.stored ∧ e ∈ t.saved) : Rely id' s t := by
  refine ⟨?_, hgated, hfresh, hstored, hboth⟩
  intro hheld
  cases hlocked.symm.trans hheld
  exact absurd rfl hne

structure Ready (lib : Library D) (id : ℕ) (u : Update D) (c : Config D) (s : Store D) : Prop where
  inside : InSection id c s
  applies : u.Applies lib c
  gate : ∀ name, u.repository = some name → Holds id name s

theorem Ready.rely {u : Update D} {c : Config D} (h : Ready lib id u c s) (hrely : Rely id s t) :
    Ready lib id u c t :=
  ⟨h.inside.rely hrely, h.applies, fun name hu => hrely.keeps.gates name (h.gate name hu)⟩

structure Saved (lib : Library D) (id : ℕ) (u : Update D) (c : Config D) (s : Store D) : Prop where
  locked : s.configWriteLock = some id
  running : s.running = c
  applies : u.Applies lib c
  gate : ∀ name, u.repository = some name → Holds id name s
  traffic : s.savedTraffic = (u.apply lib c).trafficLimit
  saved : (id, u) ∈ s.saved

theorem sound_saveRepositories {u : Update D} {c : Config D} {k : Bool → Call D α}
    (h : Ready lib id u c s) (hu : u.repository ≠ none)
    (hfailed : ∀ t, Rely id s t → Call.Sound lib start id post (k false) t)
    (hsaved : ∀ t, Keeps id s t → Saved lib id u c t →
      Call.Sound lib start id post (k true) t) :
    Call.Sound lib start id post
      (ask (.saveRepositories (u.apply lib c).repositories u) >>= k) s := by
  refine Sound.step (fun x t => if x then Keeps id s t ∧ Saved lib id u c t else Rely id s t) ?_ ?_
  · intro n s' _ hinv hrely ok t x _ hstep
    have hs' := h.rely hrely
    unfold serve at hstep
    dsimp only at hstep
    split_ifs at hstep with hok
    · cases hstep
      have htraffic : s'.savedTraffic = (u.apply lib c).trafficLimit :=
        hs'.inside.settled.trans (trafficLimit_apply hu).symm
      have hmem : ∀ e ∈ s'.stored, e ∈ (id, u) :: s'.stored := fun _ => List.mem_cons_of_mem _
      refine ⟨⟨hinv.current, hinv.running, ?_, hinv.stored, ⟨?_, hinv.stored⟩, ?_⟩, ?_, ?_⟩
      · show (⟨_, s'.savedTraffic⟩ : Config D) = Update.apply lib (replay lib start s'.stored) u
        rw [← hinv.running, hs'.inside.running, htraffic]
      · rw [← hinv.running, hs'.inside.running]
        exact hs'.applies
      · intro hfree
        cases hs'.inside.locked.symm.trans hfree
      · intro id' hne
        exact rely_of_locked hs'.inside.locked hne (fun _ hheld => ⟨hheld, rfl, fun _ _ => rfl⟩)
          (Nat.le_refl _) (fun _ he => he) fun e he _ => ⟨he, hmem e he⟩
      · exact ⟨⟨hrely.keeps.gates, fun e he _ => ⟨hrely.stored e he, hmem e (hrely.stored e he)⟩⟩,
          ⟨hs'.inside.locked, hs'.inside.running, h.applies, hs'.gate, htraffic,
            List.mem_cons_self⟩⟩
    · cases hstep
      exact ⟨hinv, fun _ _ => Rely.refl _, hrely⟩
  · intro x t hleft
    cases x with
    | false => exact hfailed t hleft
    | true => exact hsaved t hleft.1 hleft.2

theorem sound_persistConfigSnapshot {limits : D} {c : Config D} {k : Bool → Call D α}
    (h : Ready lib id (.putTrafficLimitSettings limits) c s)
    (hfailed : ∀ t, Rely id s t → Call.Sound lib start id post (k false) t)
    (hsaved : ∀ t, Keeps id s t → Saved lib id (.putTrafficLimitSettings limits) c t →
      Call.Sound lib start id post (k true) t) :
    Call.Sound lib start id post
      (ask (.persistConfigSnapshot { c with trafficLimit := limits }
        (.putTrafficLimitSettings limits)) >>= k) s := by
  refine Sound.step (fun x t => if x then Keeps id s t ∧
    Saved lib id (.putTrafficLimitSettings limits) c t else Rely id s t) ?_ ?_
  · intro n s' _ hinv hrely ok t x _ hstep
    have hs' := h.rely hrely
    unfold serve at hstep
    dsimp only at hstep
    split_ifs at hstep with hok
    · cases hstep
      have hmem : ∀ e ∈ s'.saved, e ∈ (id, Update.putTrafficLimitSettings limits) :: s'.saved :=
        fun _ => List.mem_cons_of_mem _
      refine ⟨⟨hinv.current, hinv.running, ?_, hinv.stored, ⟨trivial, hinv.saved⟩, ?_⟩, ?_, ?_⟩
      · show (⟨_, limits⟩ : Config D) = { replay lib start s'.saved with trafficLimit := limits }
        rw [← hinv.persisted]
        rfl
      · intro hfree
        cases hs'.inside.locked.symm.trans hfree
      · intro id' hne
        exact rely_of_locked hs'.inside.locked hne (fun _ hheld => ⟨hheld, rfl, fun _ _ => rfl⟩)
          (Nat.le_refl _) (fun _ he => he) fun e he he' => ⟨he, hmem e he'⟩
      · refine ⟨⟨hrely.keeps.gates, ?_⟩, ⟨hs'.inside.locked, hs'.inside.running, trivial, hs'.gate,
          rfl, List.mem_cons_self⟩⟩
        intro e he he'
        obtain ⟨hstored, hsaved'⟩ := hrely.both e he he'
        exact ⟨hstored, hmem e hsaved'⟩
    · cases hstep
      exact ⟨hinv, fun _ _ => Rely.refl _, hrely⟩
  · intro x t hleft
    cases x with
    | false => exact hfailed t hleft
    | true => exact hsaved t hleft.1 hleft.2

theorem Saved.rely {u : Update D} {c : Config D} (h : Saved lib id u c s) (hrely : Rely id s t)
    (hsaved : (id, u) ∈ t.saved) : Saved lib id u c t := by
  have hfrozen := hrely.locked h.locked
  exact ⟨hfrozen.configWriteLock.trans h.locked, hfrozen.running.trans h.running, h.applies,
    fun name hu => hrely.keeps.gates name (h.gate name hu),
    (congrArg Config.trafficLimit hfrozen.persisted).trans h.traffic, hsaved⟩

theorem sound_store {u : Update D} {c : Config D} {k : Unit → Call D α}
    (h : Saved lib id u c s)
    (hnext : ∀ t, Keeps id s t → InSection id (u.apply lib c) t → Done id [u] t →
      Call.Sound lib start id post (k ()) t) :
    Call.Sound lib start id post (ask (.store (u.apply lib c) u) >>= k) s := by
  refine Sound.step
    (fun _ t => Keeps id s t ∧ InSection id (u.apply lib c) t ∧ Done id [u] t) ?_
    fun _ t h => hnext t h.1 h.2.1 h.2.2
  intro n s' _ hinv hrely ok t x _ hstep
  have hsaved : (id, u) ∈ s'.saved := by
    rw [(hrely.locked h.locked).saved]
    exact h.saved
  have hs' := h.rely hrely hsaved
  cases hstep
  have hrunning : Function.update s'.snapshots s'.fresh (u.apply lib c) s'.fresh =
      u.apply lib c := Function.update_self _ _ _
  have hmem : ∀ e ∈ s'.stored, e ∈ (id, u) :: s'.stored := fun _ => List.mem_cons_of_mem _
  have hreplay : replay lib start s'.stored = c := hinv.running.symm.trans hs'.running
  refine ⟨⟨Nat.lt_succ_self _, ?_, hinv.persisted, ⟨?_, hinv.stored⟩, hinv.saved, ?_⟩, ?_, ?_, ?_,
    ?_⟩
  · show Function.update s'.snapshots s'.fresh (u.apply lib c) s'.fresh =
      Update.apply lib (replay lib start s'.stored) u
    rw [hrunning, hreplay]
  · show u.Applies lib (replay lib start s'.stored)
    rw [hreplay]
    exact hs'.applies
  · intro hfree
    cases hs'.locked.symm.trans hfree
  · intro id' hne
    refine rely_of_locked hs'.locked hne ?_ (Nat.le_succ _) hmem fun e he he' => ⟨hmem e he, he'⟩
    intro name hheld
    have hother : u.repository ≠ some name := by
      intro hu
      cases hheld.symm.trans (hs'.gate name hu)
      exact hne rfl
    refine ⟨hheld, ?_, ?_⟩
    · show (Function.update s'.snapshots s'.fresh (u.apply lib c) s'.fresh).repositories.load name
        = _
      rw [hrunning, hs'.running]
      exact load_apply_other hother
    · intro p hp
      exact congrArg (fun c => GoMap.load (Config.repositories c) name)
        (Function.update_of_ne (Nat.ne_of_lt hp) _ _)
  · exact ⟨hrely.keeps.gates, fun e he he' =>
      ⟨hmem e (hrely.both e he he').1, (hrely.both e he he').2⟩⟩
  · exact ⟨hs'.locked, hrunning, hs'.traffic⟩
  · intro u' hu'
    cases List.mem_singleton.mp hu'
    exact ⟨List.mem_cons_self, hs'.saved⟩

end RenoP.Settings
