import RenoP.Settings.HandlerCalls

/-!
# Runs of the handlers

Any number of handlers beside each other, with restarts: what becomes of the updates that they
acknowledge.
-/

namespace RenoP.Settings

open RenoP.Database (Text)
open Interleaving

variable {D : Type} (lib : Library D)

abbrev SettingsSystem (D : Type) :=
  System (Request D) Response (List (Update D)) (Store D) (Op D)

def Store.loaded (config : Config D) : Store D where
  snapshots _ := config
  current := 0
  fresh := 1
  savedRepositories := config.repositories
  savedTraffic := config.trafficLimit
  configWriteLock := none
  gates := ∅
  stored := []
  saved := []

/-- The running configuration and the databases contain every acknowledged update until a later
update of the same setting. -/
def Lossless (start : Config D) (y : SettingsSystem D) : Prop :=
  ∀ f ∈ y.finished, ∀ u ∈ f.result,
    Contains lib start y.store.stored y.store.running (f.id, u) ∧
      Contains lib start y.store.saved y.store.persisted (f.id, u)

def Undisrupted (y : SettingsSystem D) : Event Bool (Op D) → Prop
  | .turn id ok =>
    ∀ r ∈ (y.threads.load id).bind fun call => call.2.pending, Undisturbed lib ok y.store r
  | _ => True

instance instDecidableUndisturbed (ok : Bool) (s : Store D) :
    (r : Request D) → Decidable (Undisturbed lib ok s r)
  | .renameRepo snapshot name oldSlug newSlug =>
    inferInstanceAs (Decidable ((s.renamed lib snapshot name oldSlug newSlug).isSome = true →
      snapshot = s.current ∧ s.configWriteLock = none ∧
        s.gates.load (repositoryStripeIndex name) = none))
  | .saveSnapshot snapshot =>
    inferInstanceAs (Decidable (ok = true ∧ snapshot = s.current ∧ s.configWriteLock = none))
  | .storeSnapshot snapshot => inferInstanceAs (Decidable (snapshot = s.current))
  | .acquireMigration _ | .releaseMigration _ | .lock | .unlock | .load | .read _ | .outside |
    .saveRepositories .. | .persistConfigSnapshot .. | .store .. => instDecidableTrue

instance instDecidableUndisrupted (y : SettingsSystem D) :
    (e : Event Bool (Op D)) → Decidable (Undisrupted lib y e)
  | .turn id ok => inferInstanceAs (Decidable (∀ r ∈ (y.threads.load id).bind
      fun call => call.2.pending, Undisturbed lib ok y.store r))
  | .start _ | .restart => instDecidableTrue

variable {lib} {start : Config D} {s t : Store D}

theorem inv_loaded : Inv lib start (Store.loaded start) :=
  ⟨Nat.zero_lt_one, rfl, rfl, trivial, trivial, fun _ => rfl⟩

theorem Inv.restart (h : Inv lib start s) : Inv lib start s.restart := by
  have hrunning : s.restart.running = s.persisted := Function.update_self _ _ _
  refine ⟨Nat.lt_succ_self _, ?_, h.persisted, h.saved, h.saved, ?_⟩
  · rw [hrunning]
    exact h.persisted
  · intro _
    rw [hrunning]
    rfl

theorem sound_body {id : ℕ} {op : Op D} :
    Call.Sound lib start id (Done id) (body lib op) s := by
  cases op with
  | putMavenRepository name msg => exact sound_putMavenRepository
  | deleteMavenRepository name => exact sound_deleteMavenRepository
  | migrateRepositoryEngine name target => exact sound_migrateRepositoryEngine
  | putRepositoryPublicationReview name policy => exact sound_putRepositoryPublicationReview
  | putRepositoryDownloadStatistics name enabled => exact sound_putRepositoryDownloadStatistics
  | putTrafficLimitSettings limits => exact sound_putTrafficLimitSettings
  | updateGitRepoRedirect name oldSlug newSlug => exact sound_updateGitRepoRedirect

variable (lib start) in
def outline : Outline (settings lib) where
  inv _ := Inv lib start
  rely id _ := Rely id
  guar id _ := Guar id
  post id _ updates s := Done id updates s
  fine _ r ok s := Undisturbed lib ok s r
  compatible _ _ := True
  rely_refl _ _ s := Rely.refl s
  rely_trans _ _ _ _ _ h h' := h.trans h'
  begin_inv n op s t hinv h := by
    cases h
    exact hinv
  begin_sound n op s t _ _ := sound_body
  begin_rely n op s t _ h id op' _ _ := by
    cases h
    exact Rely.refl s
  guar_rely id op id' op' s t hne _ h := h id' (Ne.symm hne)
  restart_inv n s hinv := hinv.restart

theorem lasting_done : Lasting (outline lib start) fun f s => Done f.id f.result s where
  post f h := h
  begins n op s t f h hdone := by
    cases h
    exact hdone
  guar id op s t f hguar hdone := hdone.rely (hguar (id + 1) (Nat.succ_ne_self id))
  restart s f hdone u hu := ⟨(hdone u hu).2, (hdone u hu).2⟩

theorem Undisrupted.permitted {y : SettingsSystem D} {e : Event Bool (Op D)}
    (h : Undisrupted lib y e) : Permitted (outline lib start) y e := by
  cases e with
  | start op => exact fun _ _ _ _ => ⟨trivial, trivial⟩
  | restart => exact trivial
  | turn id ok =>
    intro op r next hload
    refine h r ?_
    rw [hload]
    rfl

/-- No update is lost in a run whose redirects find what a handler under the gate and the lock
finds. -/
theorem acknowledged_updates_kept (lib : Library D) (start : Config D)
    {events : List (Event Bool (Op D))}
    (h : Runs.Along (System.next (settings lib)) (Undisrupted lib)
      (System.initial (Store.loaded start)) events) :
    Runs.Through (System.next (settings lib)) (Lossless lib start)
      (System.initial (Store.loaded start)) events := by
  have hpermitted : Runs.Along (System.next (settings lib)) (Permitted (outline lib start))
      (System.initial (Store.loaded start)) events := h.mono fun y e he => he.permitted
  refine (lasting_done.run inv_loaded hpermitted).mono ?_
  rintro y ⟨hkept, hdone⟩ f hf u hu
  obtain ⟨hstored, hsaved⟩ := hdone f hf u hu
  have hinv : Inv lib start y.store := hkept.inv
  constructor
  · rw [hinv.running]
    exact contains_replay hinv.stored hstored
  · rw [hinv.persisted]
    exact contains_replay hinv.saved hsaved

def asciiLibrary : Library ℕ where
  lower text := text.map Char.toLower
  equalFold a b := decide (a.map Char.toLower = b.map Char.toLower)
  gitRepoTerms := 0

/-- A repository `git` with `old/tool` registered. -/
def gitStart : Config ℕ where
  repositories := GoMap.store ∅ "git".toList
    { capacityLimitBytes := 0
      format := .github
      details := 0
      allowRedeployment := false
      requireGPGSignature := false
      publicationReview := .off
      downloadStatistics := none
      mavenRestore := none
      gitHubToken := []
      gitLabToken := []
      gitRepo := some ⟨0, ["old/tool".toList], ∅⟩ }
  trafficLimit := 5

def orderly : List (Event Bool (Op ℕ)) :=
  Event.start (Op.putTrafficLimitSettings 7) :: List.replicate 6 (.turn 0 true) ++
    Event.start (Op.updateGitRepoRedirect "git".toList "old/tool".toList "new/tool".toList) ::
      List.replicate 4 (.turn 1 true) ++
        Event.start (Op.putTrafficLimitSettings 8) :: List.replicate 6 (.turn 2 true)

theorem orderly_kept : Runs.Through (System.next (settings asciiLibrary))
    (Lossless asciiLibrary gitStart) (System.initial (Store.loaded gitStart)) orderly :=
  acknowledged_updates_kept asciiLibrary gitStart (by decide +kernel)

def overtaken : List (Event Bool (Op ℕ)) :=
  Event.start (Op.updateGitRepoRedirect "git".toList "old/tool".toList "new/tool".toList) ::
    .turn 0 true :: .start (.putTrafficLimitSettings 7) :: List.replicate 6 (.turn 1 true) ++
      List.replicate 3 (Event.turn 0 true)

theorem redirect_drops_update : ¬Runs.Through (System.next (settings asciiLibrary))
    (Lossless asciiLibrary gitStart) (System.initial (Store.loaded gitStart)) overtaken := by
  intro h
  have hend := h.last
  have hfinished : (⟨1, .putTrafficLimitSettings 7, [.putTrafficLimitSettings 7], _⟩ :
      Finished (List (Update ℕ)) (Store ℕ) (Op ℕ)) ∈ (overtaken.foldl
        (System.next (settings asciiLibrary)) (System.initial (Store.loaded gitStart))).finished :=
    List.mem_cons_of_mem _ (List.mem_cons_self ..)
  obtain ⟨⟨later, earlier, hhistory, hsets⟩, -⟩ := hend _ hfinished _ (List.mem_cons_self ..)
  rcases hsets .trafficLimit (.data 7) ⟨rfl, rfl⟩ with hread | ⟨newer, e, older, rfl, v, hsets⟩
  · have hlimit : (5 : ℕ) = 7 := Value.data.inj hread
    cases hlimit
  · have hlength := congrArg List.length hhistory
    rw [List.length_append, List.length_append, List.length_cons, List.length_cons] at hlength
    have hstored : (2 : ℕ) = newer.length + (older.length + 1) + (earlier.length + 1) := hlength
    have hnewer : newer = [] := List.length_eq_zero_iff.mp (by omega)
    rw [hnewer] at hhistory
    have he := (List.cons.inj hhistory).1
    rw [← he] at hsets
    obtain ⟨r, p, p', -, -, -, ⟨hx, -⟩ | ⟨-, hx, -⟩⟩ := hsets
    · cases hx
    · cases hx

end RenoP.Settings
