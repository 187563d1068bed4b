import RenoP.Settings.HandlerRules

/-!
# Handlers beside each other

The section under the lock, and each handler: the updates that it acknowledges are in the running
configuration and in the databases.
-/

namespace RenoP.Settings

open RenoP.Database (Text)
open Process

variable {D : Type} {lib : Library D} {start : Config D} {s t u : Store D} {id : ℕ} {name : Text}
  {α : Type} {post : α → Store D → Prop}

/-- What a section leaves, where the repository was `existing` before. -/
structure Updated (lib : Library D) (id : ℕ) (name : Text) (update : Update D)
    (existing : Option (Repository D)) (s : Store D) (done : Bool) (t : Store D) : Prop where
  keeps : Keeps id s t
  reached : done = true → Done id [update] t
  load : t.running.repositories.load name =
    if done then update.change lib existing else existing

theorem sound_commitRepositories {update : Update D} {c : Config D}
    (h : Ready lib id update c s) (hu : update.repository ≠ none) :
    Call.Sound lib start id (fun done t => Keeps id s t ∧
        InSection id (if done then update.apply lib c else c) t ∧ (done = true → Done id [update] t))
      (commitRepositories update (update.apply lib c)) s := by
  refine sound_saveRepositories h hu ?_ ?_
  · intro t hrely
    exact ⟨hrely.keeps, h.inside.rely hrely, fun hfalse => by cases hfalse⟩
  · intro t hkeeps hsaved
    refine sound_store hsaved ?_
    intro u hkeeps' hinside hdone
    exact ⟨hkeeps.trans hkeeps', hinside, fun _ => hdone⟩

theorem sound_askOutside {asks : Bool} {k : Bool → Call D α}
    (hnext : ∀ x t, Rely id s t → Call.Sound lib start id post (k x) t) :
    Call.Sound lib start id post (askOutside asks >>= k) s := by
  cases asks with
  | true => exact sound_outside hnext
  | false => exact hnext true s (Rely.refl s)

theorem sound_current {k : Config D → Call D α}
    (hnext : ∀ t, Rely id s t → InSection id t.running t →
      Call.Sound lib start id post (k t.running) t) :
    Call.Sound lib start id post
      (ask .lock >>= fun _ => ask .load >>= fun p => ask (.read p) >>= k) s := by
  refine sound_lock ?_
  intro t₁ hrely₁ hinside₁
  refine sound_load ?_
  intro t₂ hrely₂ _
  have hinside₂ := hinside₁.rely hrely₂
  refine sound_read ?_
  intro t₃ hrely₃
  have hinside₃ := hinside₂.rely hrely₃
  have hrunning : t₃.running = t₁.running := hinside₃.running
  rw [← (hrely₃.locked hinside₂.locked).current]
  refine hnext t₃ ((hrely₁.trans hrely₂).trans hrely₃) ?_
  rw [hrunning]
  exact hinside₃

theorem sound_updateRepositories {asks : Bool} {change : Config D → Option (Config D)}
    {update : Update D} {existing : Option (Repository D)} (hheld : Holds id name s)
    (hexisting : s.running.repositories.load name = existing)
    (hu : update.repository = some name)
    (hchange : ∀ c next, c.repositories.load name = existing → change c = some next →
      update.Applies lib c ∧ next = update.apply lib c) :
    Call.Sound lib start id (Updated lib id name update existing s)
      (updateRepositories asks change update) s := by
  refine sound_current ?_
  intro t₁ hrely₁ hinside₁
  have hload₁ : t₁.running.repositories.load name = existing :=
    (hrely₁.gated name hheld).running.trans hexisting
  refine sound_askOutside ?_
  intro allowed t₄ hrely₄
  have hrely : Rely id s t₄ := hrely₁.trans hrely₄
  have hinside := hinside₁.rely hrely₄
  have hsection : Call.Sound lib start id (fun done t => Keeps id s t ∧
      InSection id (if done then update.apply lib t₁.running else t₁.running) t ∧
        (done = true → update.Applies lib t₁.running ∧ Done id [update] t))
      (changeRepositories change update t₁.running allowed) t₄ := by
    unfold changeRepositories
    split
    · exact ⟨hrely.keeps, hinside, fun hfalse => by cases hfalse⟩
    · rename_i next hnext
      have hsome : change t₁.running = some next := by
        cases allowed with
        | true => exact hnext
        | false => cases hnext
      obtain ⟨happlies, rfl⟩ := hchange t₁.running next hload₁ hsome
      have hready : Ready lib id update t₁.running t₄ := by
        refine ⟨hinside, happlies, ?_⟩
        intro name' hname
        cases hu.symm.trans hname
        exact hrely.keeps.gates name hheld
      refine Sound.mono (sound_commitRepositories hready ?_) ?_
      · rw [hu]
        exact Option.some_ne_none name
      · rintro done t ⟨hkeeps, hinside, hdone⟩
        exact ⟨hrely.keeps.trans hkeeps, hinside, fun htrue => ⟨happlies, hdone htrue⟩⟩
  refine Sound.bind hsection ?_
  rintro done t₅ ⟨hkeeps₅, hinside₅, hdone₅⟩
  refine sound_unlock hinside₅ ?_
  intro t₆ hkeeps₆ hrunning₆
  refine ⟨hkeeps₅.trans hkeeps₆, ?_, ?_⟩
  · intro htrue u hmem
    obtain ⟨hstored, hsaved⟩ := (hdone₅ htrue).2 u hmem
    exact hkeeps₆.both (id, u) hstored hsaved
  · rw [hrunning₆]
    cases done with
    | true =>
      have happlies := (hdone₅ rfl).1
      rw [← hload₁]
      exact load_apply_self happlies hu
    | false => exact hload₁

theorem Done.keeps {updates : List (Update D)} (h : Done id updates s) (hkeeps : Keeps id s t) :
    Done id updates t :=
  fun u hu => hkeeps.both (id, u) (h u hu).1 (h u hu).2

theorem done_nil : Done id [] s := fun u hu => by cases hu

theorem done_append {us vs : List (Update D)} (h : Done id us s) (h' : Done id vs s) :
    Done id (us ++ vs) s := by
  intro u hu
  rcases List.mem_append.mp hu with hu | hu
  · exact h u hu
  · exact h' u hu

theorem Updated.acknowledged {update : Update D} {existing : Option (Repository D)} {done : Bool}
    (h : Updated lib id name update existing s done t) : Done id (acknowledged update done) t := by
  cases done with
  | true => exact h.reached rfl
  | false => exact done_nil

theorem sound_putField {asks : Bool} {change : Repository D → Option (Repository D)}
    {update : Update D} (hu : update.repository = some name)
    (hchange : ∀ c r r', c.repositories.load name = some r → change r = some r' →
      update.Applies lib c ∧ update.change lib (some r) = some r') :
    Call.Sound lib start id (Done id) (putField asks name change update) s := by
  refine sound_acquireMigration ?_
  intro t₁ hheld
  have hsection : Call.Sound lib start id
      (Updated lib id name update (t₁.running.repositories.load name) t₁)
      (updateRepositories asks
        (fun c => ((c.repositories.load name).bind change).map (c.withRepository name)) update)
      t₁ := by
    refine sound_updateRepositories hheld rfl hu ?_
    intro c next _ hsome
    obtain ⟨r', hr', rfl⟩ := Option.map_eq_some_iff.mp hsome
    obtain ⟨r, hr, hchanged⟩ := Option.bind_eq_some_iff.mp hr'
    obtain ⟨happlies, hmade⟩ := hchange c r r' hr hchanged
    rw [← hr] at hmade
    exact ⟨happlies, (apply_of_change hu hmade).symm⟩
  refine Sound.bind hsection ?_
  intro done t₂ h
  exact sound_releaseMigration (h.keeps.gates name hheld) h.acknowledged

theorem sound_putRepositoryPublicationReview {policy : Review} :
    Call.Sound lib start id (Done id) (putRepositoryPublicationReview name policy) s := by
  refine sound_putField rfl ?_
  intro c r r' hr hchange
  split_ifs at hchange with hengine
  cases hchange
  exact ⟨⟨r, hr, hengine⟩, rfl⟩

theorem sound_putRepositoryDownloadStatistics {enabled : Bool} :
    Call.Sound lib start id (Done id) (putRepositoryDownloadStatistics name enabled) s := by
  refine sound_putField rfl ?_
  intro c r r' hr hchange
  cases hchange
  exact ⟨⟨r, hr⟩, rfl⟩

theorem putMavenChange_cases {creating : Bool} {repo : Repository D} {c next : Config D}
    (h : putMavenChange lib name creating repo c = some next) :
    next = c.withRepository name repo := by
  unfold putMavenChange at h
  split_ifs at h
  exact (Option.some.inj h).symm

theorem sound_loadGated {k : Config D → Call D α} (hheld : Holds id name s)
    (hnext : ∀ c t, Rely id s t →
      c.repositories.load name = t.running.repositories.load name →
        Call.Sound lib start id post (k c) t) :
    Call.Sound lib start id post (ask .load >>= fun p => ask (.read p) >>= k) s := by
  refine sound_load ?_
  intro t₁ hrely₁ hfresh
  have hheld₁ := (hrely₁.gated name hheld).gate
  refine sound_read ?_
  intro t₂ hrely₂
  have hguarded := hrely₂.gated name hheld₁
  refine hnext (t₂.snapshots t₁.current) t₂ (hrely₁.trans hrely₂) ?_
  exact (hguarded.snapshots t₁.current hfresh).trans hguarded.running.symm

theorem sound_putMavenSettings {msg : RepositoryMessage D} {cfg : Config D} {allowed : Bool}
    (hheld : Holds id name s)
    (hload : cfg.repositories.load name = s.running.repositories.load name) :
    Call.Sound lib start id
      (fun done t => Keeps id s t ∧ Done id (acknowledged (.putMavenRepository name msg) done) t)
      (putMavenSettings lib name msg cfg allowed) s := by
  unfold putMavenSettings
  dsimp only
  split
  · exact ⟨(Rely.refl s).keeps, done_nil⟩
  · rename_i repo hrepo
    have hput : putRepository lib msg (cfg.repositories.load name) = some repo := by
      split_ifs at hrepo
      exact hrepo
    refine Sound.mono (sound_updateRepositories hheld hload.symm rfl ?_) ?_
    · intro c next hc hchange
      rw [← hc] at hput
      have happly := apply_of_change (u := .putMavenRepository name msg) rfl hput
      exact ⟨Option.isSome_iff_exists.mpr ⟨repo, hput⟩,
        (putMavenChange_cases hchange).trans happly.symm⟩
    · exact fun done t h => ⟨h.keeps, h.acknowledged⟩

theorem sound_putMavenRepository {msg : RepositoryMessage D} :
    Call.Sound lib start id (Done id) (putMavenRepository lib name msg) s := by
  refine sound_acquireMigration ?_
  intro t₁ hheld₁
  refine sound_loadGated hheld₁ ?_
  intro cfg t₂ hrely₂ hload
  have hheld₂ := hrely₂.keeps.gates name hheld₁
  refine sound_outside ?_
  intro allowed t₃ hrely₃
  have hguarded := hrely₃.gated name hheld₂
  refine Sound.bind (sound_putMavenSettings hguarded.gate (hload.trans hguarded.running.symm)) ?_
  intro done t₄ h
  exact sound_releaseMigration (h.1.gates name hguarded.gate) h.2

theorem sound_deleteSettings {allowed : Bool} (hheld : Holds id name s) :
    Call.Sound lib start id
      (fun done t => Keeps id s t ∧ Done id (acknowledged (.deleteMavenRepository name) done) t)
      (deleteSettings name allowed) s := by
  cases allowed with
  | false => exact ⟨(Rely.refl s).keeps, done_nil⟩
  | true =>
    refine Sound.bind (sound_updateRepositories hheld rfl rfl ?_) ?_
    · intro c next _ hchange
      unfold deleteChange at hchange
      split_ifs at hchange
      cases hchange
      exact ⟨trivial, rfl⟩
    · intro done t₁ h
      refine sound_outside ?_
      intro removed t₂ hrely
      refine ⟨h.keeps.trans hrely.keeps, ?_⟩
      cases done with
      | false => exact done_nil
      | true =>
        cases removed with
        | false => exact done_nil
        | true => exact (h.reached rfl).rely hrely

theorem sound_deleteMavenRepository :
    Call.Sound lib start id (Done id) (deleteMavenRepository name) s := by
  refine sound_acquireMigration ?_
  intro t₁ hheld₁
  refine sound_outside ?_
  intro allowed t₂ hrely₂
  have hheld₂ := hrely₂.keeps.gates name hheld₁
  refine Sound.bind (sound_deleteSettings hheld₂) ?_
  intro done t₃ h
  exact sound_releaseMigration (h.1.gates name hheld₂) h.2

structure Migrated (id : ℕ) (name : Text) (r : Repository D) (s : Store D)
    (updates : List (Update D)) (t : Store D) : Prop where
  keeps : Keeps id s t
  reached : Done id updates t
  load : t.running.repositories.load name = some r

theorem sound_replaceRepositoryConfig {expectedFormat : Format} {original replacement : Repository D}
    (hheld : Holds id name s) (hload : s.running.repositories.load name = some original) :
    Call.Sound lib start id
      (fun updates t => Migrated id name (if updates.isEmpty then original else replacement) s
        updates t)
      (replaceRepositoryConfig name expectedFormat original replacement) s := by
  refine Sound.bind (sound_updateRepositories hheld hload rfl ?_) ?_
  · intro c next hc hchange
    unfold replaceChange at hchange
    rw [hc] at hchange
    dsimp only at hchange
    split_ifs at hchange
    cases hchange
    exact ⟨hc, rfl⟩
  · intro done t h
    cases done with
    | false => exact ⟨h.keeps, done_nil, h.load⟩
    | true => exact ⟨h.keeps, h.reached rfl, h.load⟩

theorem sound_migrateToMaven {current : Repository D} (hheld : Holds id name s)
    (hload : s.running.repositories.load name = some current) :
    Call.Sound lib start id (fun updates t => Keeps id s t ∧ Done id updates t)
      (migrateToMaven name current) s := by
  refine sound_outside ?_
  intro rebuilt t hrely
  cases rebuilt with
  | false => exact ⟨hrely.keeps, done_nil⟩
  | true =>
    have hguarded := hrely.gated name hheld
    refine Sound.mono (sound_replaceRepositoryConfig hguarded.gate (hguarded.running.trans hload)) ?_
    exact fun updates u h => ⟨hrely.keeps.trans h.keeps, h.reached⟩

theorem sound_removeMetadata {current replacement : Repository D} {replaced : List (Update D)}
    (hheld : Holds id name s) (hdone : Done id replaced s)
    (hload : s.running.repositories.load name = some replacement) :
    Call.Sound lib start id (fun updates t => Keeps id s t ∧ Done id updates t)
      (removeMetadata name current replacement replaced) s := by
  refine sound_outside ?_
  intro removed t hrely
  cases removed with
  | true => exact ⟨hrely.keeps, hdone.rely hrely⟩
  | false =>
    have hguarded := hrely.gated name hheld
    refine Sound.bind
      (sound_replaceRepositoryConfig hguarded.gate (hguarded.running.trans hload)) ?_
    intro rolledBack u h
    have hkeeps := hrely.keeps.trans h.keeps
    exact ⟨hkeeps, done_append (hdone.keeps hkeeps) h.reached⟩

theorem sound_migrateToFiles {current : Repository D} (hheld : Holds id name s)
    (hload : s.running.repositories.load name = some current) :
    Call.Sound lib start id (fun updates t => Keeps id s t ∧ Done id updates t)
      (migrateToFiles name current) s := by
  refine Sound.bind (sound_replaceRepositoryConfig hheld hload) ?_
  intro replaced t h
  have hnext := h.load
  split_ifs at hnext ⊢ with hempty
  · exact ⟨h.keeps, done_nil⟩
  · refine Sound.mono (sound_removeMetadata (h.keeps.gates name hheld) h.reached hnext) ?_
    exact fun updates u hu => ⟨h.keeps.trans hu.1, hu.2⟩

theorem sound_migrateRepository {target : Format} {existing : Option (Repository D)}
    (hheld : Holds id name s) (hload : s.running.repositories.load name = existing) :
    Call.Sound lib start id (fun updates t => Keeps id s t ∧ Done id updates t)
      (migrateRepository name target existing) s := by
  refine sound_outside ?_
  intro allowed t hrely
  have hguarded := hrely.gated name hheld
  split
  · exact ⟨hrely.keeps, done_nil⟩
  · rename_i current hcurrent
    have hexisting : existing = some current := by
      cases allowed with
      | true => exact hcurrent
      | false => cases hcurrent
    have hnow := hguarded.running.trans (hload.trans hexisting)
    split_ifs
    · refine Sound.mono (sound_migrateToMaven hguarded.gate hnow) ?_
      exact fun updates u hu => ⟨hrely.keeps.trans hu.1, hu.2⟩
    · refine Sound.mono (sound_migrateToFiles hguarded.gate hnow) ?_
      exact fun updates u hu => ⟨hrely.keeps.trans hu.1, hu.2⟩
    · exact ⟨hrely.keeps, done_nil⟩

theorem sound_migrateRepositoryEngine {target : Format} :
    Call.Sound lib start id (Done id) (migrateRepositoryEngine name target) s := by
  refine sound_acquireMigration ?_
  intro t₁ hheld₁
  refine sound_loadGated hheld₁ ?_
  intro cfg t₂ hrely₂ hload
  have hheld₂ := hrely₂.keeps.gates name hheld₁
  refine Sound.bind (sound_migrateRepository hheld₂ hload.symm) ?_
  intro updates t₃ h
  exact sound_releaseMigration (h.1.gates name hheld₂) h.2

theorem sound_putTrafficLimitSettings {limits : D} :
    Call.Sound lib start id (Done id) (putTrafficLimitSettings limits) s := by
  refine sound_current ?_
  intro t₁ _ hinside₁
  have hready : Ready lib id (.putTrafficLimitSettings limits) t₁.running t₁ :=
    ⟨hinside₁, trivial, fun name hname => by cases hname⟩
  have hcommit : Call.Sound lib start id (fun done t => ∃ c, InSection id c t ∧
      Done id (acknowledged (.putTrafficLimitSettings limits) done) t)
      (commitTrafficLimit (.putTrafficLimitSettings limits)
        { t₁.running with trafficLimit := limits }) t₁ := by
    refine sound_persistConfigSnapshot hready ?_ ?_
    · intro t hrely
      exact ⟨t₁.running, hinside₁.rely hrely, done_nil⟩
    · intro t _ hsaved
      refine sound_store hsaved ?_
      intro u _ hinside hdone
      exact ⟨_, hinside, hdone⟩
  refine Sound.bind hcommit ?_
  rintro done t₄ ⟨c, hinside₄, hdone⟩
  refine sound_unlock hinside₄ ?_
  intro t₅ hkeeps _
  exact hdone.keeps hkeeps

theorem renamed_cases {snapshot : ℕ} {oldSlug newSlug : Text} {c : Config D}
    (h : s.renamed lib snapshot name oldSlug newSlug = some c) :
    Update.Applies lib (s.snapshots snapshot) (.updateGitRepoRedirect name oldSlug newSlug) ∧
      c = (Update.updateGitRepoRedirect name oldSlug newSlug).apply lib (s.snapshots snapshot) := by
  obtain ⟨r, hr, hrename⟩ := Option.bind_eq_some_iff.mp h
  obtain ⟨r', hr', rfl⟩ := Option.map_eq_some_iff.mp hrename
  have hchange : (Update.updateGitRepoRedirect name oldSlug newSlug).change lib
      ((s.snapshots snapshot).repositories.load name) = some r' := by
    simp only [Update.change, hr, Option.bind_some, hr']
  exact ⟨⟨r, r', hr, hr'⟩, (apply_of_change rfl hchange).symm⟩

theorem sound_renameRepo {p : ℕ} {oldSlug newSlug : Text} {k : Bool → Call D α}
    (hkept : ∀ t, Rely id s t → Call.Sound lib start id post (k false) t)
    (hrenamed : ∀ t, (id, .updateGitRepoRedirect name oldSlug newSlug) ∈ t.stored →
      Call.Sound lib start id post (k true) t) :
    Call.Sound lib start id post (ask (.renameRepo p name oldSlug newSlug) >>= k) s := by
  refine Sound.step (fun x t => if x then
    (id, Update.updateGitRepoRedirect name oldSlug newSlug) ∈ t.stored else Rely id s t) ?_ ?_
  · intro n s' _ hinv hrely c t x hfine hstep
    unfold serve at hstep
    dsimp only at hstep
    split at hstep
    · cases hstep
      exact ⟨hinv, fun _ _ => Rely.refl _, hrely⟩
    · rename_i config hconfig
      cases hstep
      obtain ⟨rfl, hunlocked, hungated⟩ := hfine (Option.isSome_iff_exists.mpr ⟨config, hconfig⟩)
      obtain ⟨happlies, rfl⟩ := renamed_cases hconfig
      have hrunning := Function.update_self s'.current
        ((Update.updateGitRepoRedirect name oldSlug newSlug).apply lib s'.running) s'.snapshots
      have hmem : ∀ e ∈ s'.stored,
          e ∈ (id, Update.updateGitRepoRedirect name oldSlug newSlug) :: s'.stored :=
        fun _ => List.mem_cons_of_mem _
      refine ⟨⟨hinv.current, ?_, hinv.persisted, ⟨?_, hinv.stored⟩, hinv.saved, ?_⟩, ?_,
        List.mem_cons_self⟩
      · refine hrunning.trans ?_
        rw [hinv.running]
        rfl
      · rw [← hinv.running]
        exact happlies
      · intro hfree
        refine (hinv.settled hfree).trans ?_
        refine Eq.trans ?_ (congrArg Config.trafficLimit hrunning).symm
        exact (trafficLimit_apply (u := .updateGitRepoRedirect name oldSlug newSlug)
          (Option.some_ne_none name)).symm
      · intro id' _
        refine ⟨fun hheld => ?_, ?_, Nat.le_refl _, hmem, fun e he he' => ⟨hmem e he, he'⟩⟩
        · cases hunlocked.symm.trans hheld
        · intro name' hheld
          have hother : (Update.updateGitRepoRedirect name oldSlug newSlug : Update D).repository ≠
              some name' := by
            intro hname
            cases hname
            cases hungated.symm.trans hheld
          refine ⟨hheld, ?_, ?_⟩
          · refine (congrArg (fun c => GoMap.load (Config.repositories c) name') hrunning).trans ?_
            exact load_apply_other hother
          · intro q _
            by_cases hq : q = s'.current
            · subst hq
              refine (congrArg (fun c => GoMap.load (Config.repositories c) name') hrunning).trans ?_
              exact load_apply_other hother
            · exact congrArg (fun c => GoMap.load (Config.repositories c) name')
                (Function.update_of_ne hq _ _)
  · intro x t hleft
    cases x with
    | false => exact hkept t hleft
    | true => exact hrenamed t hleft

theorem sound_saveSnapshot {p : ℕ} {e : ℕ × Update D} {k : Unit → Call D α} (he : e ∈ s.stored)
    (hnext : ∀ t, e ∈ t.stored → e ∈ t.saved → Call.Sound lib start id post (k ()) t) :
    Call.Sound lib start id post (ask (.saveSnapshot p) >>= k) s := by
  refine Sound.step (fun _ t => e ∈ t.stored ∧ e ∈ t.saved) ?_ fun _ t h => hnext t h.1 h.2
  intro n s' _ hinv hrely c t x hfine hstep
  obtain ⟨rfl, rfl, hunlocked⟩ := hfine
  cases hstep
  have hpersisted : (⟨s'.running.repositories, s'.savedTraffic⟩ : Config D) = s'.running := by
    rw [hinv.settled hunlocked]
  refine ⟨⟨hinv.current, hinv.running, hpersisted.trans hinv.running, hinv.stored, hinv.stored,
    hinv.settled⟩, ?_, hrely.stored e he, hrely.stored e he⟩
  intro id' _
  refine ⟨fun hheld => ?_, fun name' hheld => ⟨hheld, rfl, fun _ _ => rfl⟩, Nat.le_refl _,
    fun _ h => h, fun e' h _ => ⟨h, h⟩⟩
  cases hunlocked.symm.trans hheld

theorem sound_storeSnapshot {p : ℕ} {k : Unit → Call D α}
    (hnext : ∀ t, Rely id s t → Call.Sound lib start id post (k ()) t) :
    Call.Sound lib start id post (ask (.storeSnapshot p) >>= k) s := by
  refine Sound.step (fun _ t => Rely id s t) ?_ fun _ t h => hnext t h
  intro n s' _ hinv hrely c t x hfine hstep
  cases hfine
  cases hstep
  exact ⟨hinv, fun _ _ => Rely.refl _, hrely⟩

theorem sound_updateGitRepoRedirect {oldSlug newSlug : Text} :
    Call.Sound lib start id (Done id) (updateGitRepoRedirect lib name oldSlug newSlug) s := by
  unfold updateGitRepoRedirect
  split_ifs
  · exact done_nil
  · refine sound_load ?_
    intro t₁ _ _
    refine sound_renameRepo ?_ ?_
    · exact fun t₂ _ => done_nil
    · intro t₂ hstored
      refine sound_saveSnapshot hstored ?_
      intro t₃ hstored hsaved
      refine sound_storeSnapshot ?_
      intro t₄ hrely u hu
      cases List.mem_singleton.mp hu
      exact hrely.both _ hstored hsaved

end RenoP.Settings
