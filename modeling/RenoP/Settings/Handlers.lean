import RenoP.Lib.Interleaving
import RenoP.Settings.Updates

/-!
# Handlers that change the configuration

`internal/service/settings` (`maven.go`, `review.go`, `statistics.go`, `traffic_limit.go`) and
`UpdateGitRepoRedirect` of `internal/service/storage/engine_git.go`, each as the steps it takes.
The running configuration is a pointer to one of the configurations that were built.
-/

namespace RenoP.Settings

open RenoP.Database (Text)

variable {D : Type} (lib : Library D)

def foldByte (value : UInt8) : UInt8 := if 65 ≤ value ∧ value ≤ 90 then value + 32 else value

def repositoryStripeIndex (repository : Text) : ℕ :=
  (repository.flatMap String.utf8EncodeChar).foldl
    (fun hash value => ((hash ^^^ (foldByte value).toNat) * 16777619) % 2 ^ 32) 2166136261 % 64

/-- `snapshots` are the configurations in memory. `stored` and `saved` follow the updates that
reached the running configuration and the databases. -/
structure Store (D : Type) where
  snapshots : ℕ → Config D
  current : ℕ
  fresh : ℕ
  savedRepositories : GoMap Text (Repository D)
  savedTraffic : D
  configWriteLock : Option ℕ
  gates : GoMap ℕ ℕ
  stored : History D
  saved : History D

def Store.running (s : Store D) : Config D := s.snapshots s.current

def Store.persisted (s : Store D) : Config D := ⟨s.savedRepositories, s.savedTraffic⟩

inductive Request (D : Type) where
  | acquireMigration (repository : Text)
  | releaseMigration (repository : Text)
  | lock
  | unlock
  | load
  /-- `DeepCopy`, or the fields that a handler looks at -/
  | read (snapshot : ℕ)
  | outside
  | saveRepositories (repositories : GoMap Text (Repository D)) (update : Update D)
  | persistConfigSnapshot (config : Config D) (update : Update D)
  | store (config : Config D) (update : Update D)
  | renameRepo (snapshot : ℕ) (repository oldSlug newSlug : Text)
  | saveSnapshot (snapshot : ℕ)
  | storeSnapshot (snapshot : ℕ)

abbrev Response : Request D → Type
  | .load => ℕ
  | .read _ => Config D
  | .outside | .saveRepositories .. | .persistConfigSnapshot .. | .renameRepo .. => Bool
  | _ => Unit

def Store.renamed (s : Store D) (snapshot : ℕ) (repository oldSlug newSlug : Text) :
    Option (Config D) :=
  ((s.snapshots snapshot).repositories.load repository).bind fun r =>
    (r.renameRepo lib oldSlug newSlug).map fun r' =>
      (s.snapshots snapshot).withRepository repository r'

/-- One step of call `id`; `ok` is what is left open. -/
def serve (id : ℕ) : (r : Request D) → Bool → Store D → Option (Store D × Response r)
  | .acquireMigration repository, _, s =>
    if (s.gates.load (repositoryStripeIndex repository)).isSome then none
    else some ({ s with gates := s.gates.store (repositoryStripeIndex repository) id }, ())
  | .releaseMigration repository, _, s =>
    some ({ s with gates := s.gates.delete (repositoryStripeIndex repository) }, ())
  | .lock, _, s =>
    if s.configWriteLock.isSome then none else some ({ s with configWriteLock := some id }, ())
  | .unlock, _, s => some ({ s with configWriteLock := none }, ())
  | .load, _, s => some (s, s.current)
  | .read snapshot, _, s => some (s, s.snapshots snapshot)
  | .outside, ok, s => some (s, ok)
  | .saveRepositories repositories update, ok, s =>
    if ok then
      some ({ s with savedRepositories := repositories, saved := (id, update) :: s.stored }, true)
    else some (s, false)
  | .persistConfigSnapshot config update, ok, s =>
    if ok then
      some ({ s with
        savedTraffic := config.trafficLimit, saved := (id, update) :: s.saved }, true)
    else some (s, false)
  | .store config update, _, s =>
    some ({ s with
      snapshots := Function.update s.snapshots s.fresh config
      current := s.fresh
      fresh := s.fresh + 1
      stored := (id, update) :: s.stored }, ())
  | .renameRepo snapshot repository oldSlug newSlug, _, s =>
    match s.renamed lib snapshot repository oldSlug newSlug with
    | none => some (s, false)
    | some config =>
      some ({ s with
        snapshots := Function.update s.snapshots snapshot config
        stored := (id, .updateGitRepoRedirect repository oldSlug newSlug) :: s.stored }, true)
  | .saveSnapshot snapshot, ok, s =>
    if ok then
      some ({ s with
        savedRepositories := (s.snapshots snapshot).repositories, saved := s.stored }, ())
    else some (s, ())
  | .storeSnapshot snapshot, _, s => some ({ s with current := snapshot }, ())

abbrev Call (D : Type) := Process (Request D) Response

def ask (r : Request D) : Call D (Response r) := Process.call r

/-- What a section under `ConfigWriteLock` does with a new configuration. -/
def commitRepositories (update : Update D) (next : Config D) : Call D Bool := do
  let saved : Bool ← ask (.saveRepositories next.repositories update)
  if saved = false then return false
  else
    let _ : Unit ← ask (.store next update)
    return true

def changeRepositories (change : Config D → Option (Config D)) (update : Update D)
    (current : Config D) (allowed : Bool) : Call D Bool :=
  match if allowed then change current else none with
  | none => return false
  | some next => commitRepositories update next

def askOutside (asks : Bool) : Call D Bool := if asks then ask .outside else return true

/-- The section under `ConfigWriteLock`; `asks` where it also needs an answer from outside. -/
def updateRepositories (asks : Bool) (change : Config D → Option (Config D)) (update : Update D) :
    Call D Bool := do
  let _ : Unit ← ask .lock
  let snapshot : ℕ ← ask .load
  let current : Config D ← ask (.read snapshot)
  let allowed ← askOutside asks
  let done ← changeRepositories change update current allowed
  let _ : Unit ← ask .unlock
  return done

def conflicts (c : Config D) (name : Text) (sameToo : Bool) : Bool :=
  c.repositories.keys.any fun configured =>
    (sameToo || !decide (configured = name)) && lib.equalFold configured name

def putMavenChange (name : Text) (creating : Bool) (repo : Repository D) (c : Config D) :
    Option (Config D) :=
  if creating = true ∧ conflicts lib c name true = true then none
  else if creating = false ∧ c.repositories.has name = false then none
  else if sameProtocol (c.repositories.load name) repo.format = false then none
  else some (c.withRepository name repo)

def acknowledged (update : Update D) (done : Bool) : List (Update D) :=
  if done then [update] else []

/-- `PutMavenRepository` on the configuration that it loads before it takes the lock. -/
def putMavenSettings (name : Text) (msg : RepositoryMessage D) (cfg : Config D) (allowed : Bool) :
    Call D Bool :=
  let existing := cfg.repositories.load name
  match if allowed && !conflicts lib cfg name false then putRepository lib msg existing
    else none with
  | none => return false
  | some repo =>
    updateRepositories existing.isNone (putMavenChange lib name existing.isNone repo)
      (.putMavenRepository name msg)

def putMavenRepository (name : Text) (msg : RepositoryMessage D) : Call D (List (Update D)) := do
  let _ : Unit ← ask (.acquireMigration name)
  let snapshot : ℕ ← ask .load
  let cfg : Config D ← ask (.read snapshot)
  let allowed : Bool ← ask .outside
  let done ← putMavenSettings lib name msg cfg allowed
  let _ : Unit ← ask (.releaseMigration name)
  return acknowledged (.putMavenRepository name msg) done

def deleteChange (name : Text) (c : Config D) : Option (Config D) :=
  if c.repositories.has name then some { c with repositories := c.repositories.delete name }
  else none

def deleteSettings (name : Text) (allowed : Bool) : Call D Bool := do
  if allowed = false then return false
  else
    let done ← updateRepositories false (deleteChange name) (.deleteMavenRepository name)
    let removed : Bool ← ask .outside
    return done && removed

def deleteMavenRepository (name : Text) : Call D (List (Update D)) := do
  let _ : Unit ← ask (.acquireMigration name)
  let allowed : Bool ← ask .outside
  let done ← deleteSettings name allowed
  let _ : Unit ← ask (.releaseMigration name)
  return acknowledged (.deleteMavenRepository name) done

def replaceChange (name : Text) (expectedFormat : Format) (replacement : Repository D)
    (c : Config D) : Option (Config D) :=
  match c.repositories.load name with
  | none => none
  | some current =>
    if current.format.normalized = expectedFormat then some (c.withRepository name replacement)
    else none

/-- `original` is what the caller replaces. -/
def replaceRepositoryConfig (name : Text) (expectedFormat : Format)
    (original replacement : Repository D) : Call D (List (Update D)) := do
  let update := .replaceRepositoryConfig name original replacement
  let done ← updateRepositories false (replaceChange name expectedFormat replacement) update
  return acknowledged update done

def migrateToMaven (name : Text) (current : Repository D) : Call D (List (Update D)) := do
  let rebuilt : Bool ← ask .outside
  if rebuilt = false then return []
  else
    replaceRepositoryConfig name current.format.normalized current
      (repositoryWithMigratedEngine current .maven)

def removeMetadata (name : Text) (current replacement : Repository D)
    (replaced : List (Update D)) : Call D (List (Update D)) := do
  let removed : Bool ← ask .outside
  if removed = true then return replaced
  else
    let rolledBack ← replaceRepositoryConfig name .files replacement current
    return replaced ++ rolledBack

def migrateToFiles (name : Text) (current : Repository D) : Call D (List (Update D)) := do
  let replacement := repositoryWithMigratedEngine current .files
  let replaced ← replaceRepositoryConfig name current.format.normalized current replacement
  if replaced.isEmpty = true then return []
  else removeMetadata name current replacement replaced

def migrateRepository (name : Text) (target : Format) (existing : Option (Repository D)) :
    Call D (List (Update D)) := do
  let allowed : Bool ← ask .outside
  match if allowed then existing else none with
  | none => return []
  | some current =>
    if current.format.normalized = .files ∧ target = .maven then migrateToMaven name current
    else if current.format.normalized = .maven ∧ target = .files then migrateToFiles name current
    else return []

def migrateRepositoryEngine (name : Text) (target : Format) : Call D (List (Update D)) := do
  let _ : Unit ← ask (.acquireMigration name)
  let snapshot : ℕ ← ask .load
  let cfg : Config D ← ask (.read snapshot)
  let updates ← migrateRepository name target (cfg.repositories.load name)
  let _ : Unit ← ask (.releaseMigration name)
  return updates

def putField (asks : Bool) (name : Text) (change : Repository D → Option (Repository D))
    (update : Update D) : Call D (List (Update D)) := do
  let _ : Unit ← ask (.acquireMigration name)
  let done ← updateRepositories asks
    (fun c => ((c.repositories.load name).bind change).map (c.withRepository name)) update
  let _ : Unit ← ask (.releaseMigration name)
  return acknowledged update done

def putRepositoryPublicationReview (name : Text) (policy : Review) : Call D (List (Update D)) :=
  putField true name
    (fun r => if r.format.engine.publicationReview then some (r.withReview policy) else none)
    (.putRepositoryPublicationReview name policy)

def putRepositoryDownloadStatistics (name : Text) (enabled : Bool) : Call D (List (Update D)) :=
  putField false name (fun r => some (r.withStatistics enabled))
    (.putRepositoryDownloadStatistics name enabled)

def commitTrafficLimit (update : Update D) (next : Config D) : Call D Bool := do
  let saved : Bool ← ask (.persistConfigSnapshot next update)
  if saved = false then return false
  else
    let _ : Unit ← ask (.store next update)
    return true

def putTrafficLimitSettings (limits : D) : Call D (List (Update D)) := do
  let _ : Unit ← ask .lock
  let snapshot : ℕ ← ask .load
  let current : Config D ← ask (.read snapshot)
  let done ← commitTrafficLimit (.putTrafficLimitSettings limits)
    { current with trafficLimit := limits }
  let _ : Unit ← ask .unlock
  return acknowledged (.putTrafficLimitSettings limits) done

/-- No gate and no lock is taken, and an error of the save is ignored. -/
def updateGitRepoRedirect (name oldSlug newSlug : Text) : Call D (List (Update D)) :=
  if oldSlug = [] ∨ newSlug = [] ∨ lib.equalFold oldSlug newSlug = true then return []
  else do
    let snapshot : ℕ ← ask .load
    let renamed : Bool ← ask (.renameRepo snapshot name oldSlug newSlug)
    if renamed = false then return []
    else
      let _ : Unit ← ask (.saveSnapshot snapshot)
      let _ : Unit ← ask (.storeSnapshot snapshot)
      return [.updateGitRepoRedirect name oldSlug newSlug]

inductive Op (D : Type) where
  | putMavenRepository (name : Text) (msg : RepositoryMessage D)
  | deleteMavenRepository (name : Text)
  | migrateRepositoryEngine (name : Text) (target : Format)
  | putRepositoryPublicationReview (name : Text) (policy : Review)
  | putRepositoryDownloadStatistics (name : Text) (enabled : Bool)
  | putTrafficLimitSettings (limits : D)
  | updateGitRepoRedirect (name oldSlug newSlug : Text)

def body : Op D → Call D (List (Update D))
  | .putMavenRepository name msg => putMavenRepository lib name msg
  | .deleteMavenRepository name => deleteMavenRepository name
  | .migrateRepositoryEngine name target => migrateRepositoryEngine name target
  | .putRepositoryPublicationReview name policy => putRepositoryPublicationReview name policy
  | .putRepositoryDownloadStatistics name enabled => putRepositoryDownloadStatistics name enabled
  | .putTrafficLimitSettings limits => putTrafficLimitSettings limits
  | .updateGitRepoRedirect name oldSlug newSlug => updateGitRepoRedirect lib name oldSlug newSlug

/-- After a restart the running configuration is the one in the databases. -/
def Store.restart (s : Store D) : Store D :=
  { s with
    snapshots := Function.update s.snapshots s.fresh s.persisted
    current := s.fresh
    fresh := s.fresh + 1
    configWriteLock := none
    gates := ∅
    stored := s.saved }

def settings : Interleaving.Service (Request D) Response (List (Update D)) (Store D) Bool (Op D)
    where
  body _ := body lib
  begin _ _ s := some s
  serve := serve lib
  restart := Store.restart

end RenoP.Settings
