import RenoP.Settings.Configuration

/-!
# Updates of the configuration

What each update sets, setting by setting, and a configuration as the updates that were applied to
it one after another.
-/

namespace RenoP.Settings

open RenoP.Database (Text)

variable {D : Type} (lib : Library D)

inductive Field where
  | capacityLimit
  | format
  | details
  | redeployment
  | signature
  | review
  | statistics
  | restore
  | gitHubToken
  | gitLabToken
  | gitTerms
  | registeredRepos
  | repoQuotas
  deriving DecidableEq

/-- `registered` says whether there is a repository of that name. -/
inductive Setting where
  | registered (repository : Text)
  | field (repository : Text) (f : Field)
  | trafficLimit

def Setting.repository : Setting → Option Text
  | .registered repository | .field repository _ => some repository
  | .trafficLimit => none

inductive Value (D : Type) where
  | absent
  | present
  | number (n : ℤ)
  | format (f : Format)
  | data (d : D)
  | flag (b : Bool)
  | review (policy : Review)
  | statistics (enabled : Option Bool)
  | restore (settings : Option MavenRestoreSettings)
  | token (text : Text)
  | slugs (texts : List Text)
  | quotas (m : GoMap Text D)

def Repository.read (r : Repository D) : Field → Value D
  | .capacityLimit => .number r.capacityLimitBytes
  | .format => .format r.format
  | .details => .data r.details
  | .redeployment => .flag r.allowRedeployment
  | .signature => .flag r.requireGPGSignature
  | .review => .review r.publicationReviewPolicy
  | .statistics => .statistics r.downloadStatistics
  | .restore => .restore r.mavenRestore
  | .gitHubToken => .token r.gitHubToken
  | .gitLabToken => .token r.gitLabToken
  | .gitTerms => r.gitRepo.elim .absent fun p => .data p.terms
  | .registeredRepos => r.gitRepo.elim .absent fun p => .slugs p.registeredRepos
  | .repoQuotas => r.gitRepo.elim .absent fun p => .quotas p.repoQuotas

def Config.read (c : Config D) : Setting → Value D
  | .registered repository => (c.repositories.load repository).elim .absent fun _ => .present
  | .field repository f => (c.repositories.load repository).elim .absent fun r => r.read f
  | .trafficLimit => .data c.trafficLimit

inductive Update (D : Type) where
  | putMavenRepository (repository : Text) (msg : RepositoryMessage D)
  | deleteMavenRepository (repository : Text)
  | replaceRepositoryConfig (repository : Text) (original replacement : Repository D)
  | putRepositoryPublicationReview (repository : Text) (policy : Review)
  | putRepositoryDownloadStatistics (repository : Text) (enabled : Bool)
  | putTrafficLimitSettings (limits : D)
  | updateGitRepoRedirect (repository oldSlug newSlug : Text)

def Update.repository : Update D → Option Text
  | .putMavenRepository repository _ | .deleteMavenRepository repository |
    .replaceRepositoryConfig repository _ _ | .putRepositoryPublicationReview repository _ |
    .putRepositoryDownloadStatistics repository _ | .updateGitRepoRedirect repository _ _ =>
    some repository
  | .putTrafficLimitSettings _ => none

def Update.change : Update D → Option (Repository D) → Option (Repository D)
  | .putMavenRepository _ msg, existing => putRepository lib msg existing
  | .deleteMavenRepository _, _ => none
  | .replaceRepositoryConfig _ _ replacement, _ => some replacement
  | .putRepositoryPublicationReview _ policy, existing => existing.map (·.withReview policy)
  | .putRepositoryDownloadStatistics _ enabled, existing => existing.map (·.withStatistics enabled)
  | .putTrafficLimitSettings _, existing => existing
  | .updateGitRepoRedirect _ oldSlug newSlug, existing =>
    existing.bind fun r => r.renameRepo lib oldSlug newSlug

def Update.apply (c : Config D) : Update D → Config D
  | .putTrafficLimitSettings limits => { c with trafficLimit := limits }
  | .deleteMavenRepository repository =>
    { c with repositories := c.repositories.delete repository }
  | u =>
    match u.repository with
    | none => c
    | some repository =>
      match u.change lib (c.repositories.load repository) with
      | none => c
      | some r => c.withRepository repository r

/-- A field that a request for an existing repository gives, or that follows from it. The rest is
kept. -/
def RepositoryMessage.Sets (msg : RepositoryMessage D) (existing next : Repository D) :
    Field → Prop
  | .capacityLimit => msg.capacityLimitBytes.isSome
  | .format => msg.format.isSome
  | .details | .redeployment | .signature => True
  | .review | .statistics => False
  | .restore => next.format ≠ .files
  | .gitHubToken => next.format.isGit = true → msg.gitHubToken ≠ []
  | .gitLabToken => next.format.isGit = true → msg.gitLabToken ≠ []
  | .gitTerms | .repoQuotas =>
    next.format.isGit = true → msg.gitRepo.isSome ∨ existing.gitRepo = none
  | .registeredRepos =>
    next.format.isGit = true → existing.gitRepo = none ∨
      ∃ p, msg.gitRepo = some p ∧ p.registeredRepos ≠ []

def Update.Sets (c : Config D) : Update D → Setting → Value D → Prop
  | .putMavenRepository repository msg, x, v =>
    ∃ next, putRepository lib msg (c.repositories.load repository) = some next ∧
      ((c.repositories.load repository = none ∧ x = .registered repository ∧ v = .present) ∨
        ∃ f, x = .field repository f ∧ v = next.read f ∧
          ∀ existing, c.repositories.load repository = some existing → msg.Sets existing next f)
  | .deleteMavenRepository repository, x, v => x.repository = some repository ∧ v = .absent
  | .replaceRepositoryConfig repository original replacement, x, v =>
    ∃ f, x = .field repository f ∧ replacement.read f ≠ original.read f ∧ v = replacement.read f
  | .putRepositoryPublicationReview repository policy, x, v =>
    (x = .field repository .review ∧ v = .review policy) ∨
      (policy ≠ .off ∧ x = .field repository .redeployment ∧ v = .flag false)
  | .putRepositoryDownloadStatistics repository enabled, x, v =>
    x = .field repository .statistics ∧ v = .statistics (some enabled)
  | .putTrafficLimitSettings limits, x, v => x = .trafficLimit ∧ v = .data limits
  | .updateGitRepoRedirect repository oldSlug newSlug, x, v =>
    ∃ r p p', c.repositories.load repository = some r ∧ r.gitRepo = some p ∧
      p.renameRepo lib oldSlug newSlug = some p' ∧
      ((x = .field repository .registeredRepos ∧ v = .slugs p'.registeredRepos) ∨
        ((p.repoQuotas.load (lib.slug oldSlug)).isSome ∧ x = .field repository .repoQuotas ∧
          v = .quotas p'.repoQuotas))

def Update.Applies (c : Config D) : Update D → Prop
  | .putMavenRepository repository msg =>
    (putRepository lib msg (c.repositories.load repository)).isSome
  | .deleteMavenRepository _ | .putTrafficLimitSettings _ => True
  | .replaceRepositoryConfig repository original _ =>
    c.repositories.load repository = some original
  | .putRepositoryPublicationReview repository _ =>
    ∃ r, c.repositories.load repository = some r ∧ r.format.engine.publicationReview = true
  | .putRepositoryDownloadStatistics repository _ =>
    ∃ r, c.repositories.load repository = some r
  | .updateGitRepoRedirect repository oldSlug newSlug =>
    ∃ r r', c.repositories.load repository = some r ∧
      r.renameRepo lib oldSlug newSlug = some r'

variable {lib} {c : Config D} {u : Update D} {x : Setting} {v : Value D} {name : Text}

theorem putRepository_format {msg : RepositoryMessage D} {existing next : Repository D}
    (h : putRepository lib msg (some existing) = some next) :
    next.format.normalized = existing.format.normalized ∧
      (msg.format = none → next.format = existing.format) := by
  unfold putRepository at h
  split at h
  · cases h
  · rename_i format hformat
    split_ifs at h with hrefused
    cases h
    have hsame : existing.format.normalized = format.normalized := by
      by_contra hne
      exact hrefused (Or.inr (by simp only [sameProtocol, Option.all_some, hne, decide_false]))
    refine ⟨hsame.symm, ?_⟩
    intro hnone
    rw [hnone] at hformat
    cases hformat
    rfl

theorem read_putRepository {msg : RepositoryMessage D} {existing next : Repository D} {f : Field}
    (h : putRepository lib msg (some existing) = some next)
    (hkept : ¬msg.Sets existing next f) : next.read f = existing.read f := by
  obtain ⟨hsame, hformat⟩ := putRepository_format h
  have hgit := isGit_of_normalized hsame
  have hengine := engine_of_normalized hsame
  unfold putRepository at h
  split at h
  · cases h
  · rename_i format _
    split_ifs at h
    cases h
    unfold requestedRepository at hsame hformat hgit hengine hkept ⊢
    dsimp only at hsame hformat hgit hengine hkept
    cases f with
    | capacityLimit =>
      have hnone := Option.not_isSome_iff_eq_none.mp hkept
      simp only [Repository.read, requestedCapacity, hnone, Option.getD_none, Option.map_some,
        Option.getD_some]
    | format =>
      have hnone := Option.not_isSome_iff_eq_none.mp hkept
      exact congrArg Value.format (hformat hnone)
    | details => exact absurd trivial hkept
    | redeployment => exact absurd trivial hkept
    | signature => exact absurd trivial hkept
    | review =>
      show Value.review _ = Value.review _
      simp only [Repository.publicationReviewPolicy, hengine, Option.map_some, Option.getD_some]
      split_ifs <;> rfl
    | statistics => rfl
    | restore =>
      have hfiles : format = .files := not_not.mp hkept
      simp only [Repository.read, if_pos hfiles, Option.bind_some]
    | gitHubToken =>
      obtain ⟨hisGit, htoken⟩ := Classical.not_imp.mp hkept
      simp only [Repository.read, hisGit, if_true, keptToken, not_not.mp htoken, Option.map_some,
        Option.getD_some]
    | gitLabToken =>
      obtain ⟨hisGit, htoken⟩ := Classical.not_imp.mp hkept
      simp only [Repository.read, hisGit, if_true, keptToken, not_not.mp htoken, Option.map_some,
        Option.getD_some]
    | gitTerms =>
      obtain ⟨hisGit, hpolicy⟩ := Classical.not_imp.mp hkept
      obtain ⟨hnone, hsome⟩ := not_or.mp hpolicy
      obtain ⟨p, hp⟩ := Option.ne_none_iff_exists'.mp hsome
      simp only [Repository.read, hisGit, if_true, Option.not_isSome_iff_eq_none.mp hnone, hp,
        Option.bind_some, keptGitRepo, Option.getD_some, Option.elim_some]
    | repoQuotas =>
      obtain ⟨hisGit, hpolicy⟩ := Classical.not_imp.mp hkept
      obtain ⟨hnone, hsome⟩ := not_or.mp hpolicy
      obtain ⟨p, hp⟩ := Option.ne_none_iff_exists'.mp hsome
      simp only [Repository.read, hisGit, if_true, Option.not_isSome_iff_eq_none.mp hnone, hp,
        Option.bind_some, keptGitRepo, Option.getD_some, Option.elim_some]
    | registeredRepos =>
      obtain ⟨hisGit, hpolicy⟩ := Classical.not_imp.mp hkept
      obtain ⟨hsome, hregistered⟩ := not_or.mp hpolicy
      obtain ⟨p, hp⟩ := Option.ne_none_iff_exists'.mp hsome
      cases hmsg : msg.gitRepo with
      | none =>
        simp only [Repository.read, hisGit, if_true, hp, Option.bind_some, keptGitRepo,
          Option.getD_some, Option.elim_some]
      | some requested =>
        have hempty : requested.registeredRepos = [] := by
          by_contra hne
          exact hregistered ⟨requested, hmsg, hne⟩
        simp only [Repository.read, hisGit, if_true, hp, Option.bind_some, keptGitRepo,
          Option.getD_some, Option.elim_some, hempty]

theorem apply_of_change {r : Repository D} (hu : u.repository = some name)
    (h : u.change lib (c.repositories.load name) = some r) :
    u.apply lib c = c.withRepository name r := by
  cases u with
  | deleteMavenRepository repository => cases h
  | putTrafficLimitSettings limits => cases hu
  | _ =>
    cases hu
    simp only [Update.apply, Update.repository, h]

theorem change_ne_none (h : u.Applies lib c) (hu : u.repository = some name)
    (hdelete : u ≠ .deleteMavenRepository name) :
    u.change lib (c.repositories.load name) ≠ none := by
  cases u with
  | putMavenRepository repository msg =>
    cases hu
    exact Option.isSome_iff_ne_none.mp h
  | deleteMavenRepository repository =>
    cases hu
    exact absurd rfl hdelete
  | replaceRepositoryConfig repository original replacement => exact Option.some_ne_none _
  | putRepositoryPublicationReview repository policy =>
    cases hu
    obtain ⟨r, hr, -⟩ := h
    rw [hr]
    exact Option.some_ne_none _
  | putRepositoryDownloadStatistics repository enabled =>
    cases hu
    obtain ⟨r, hr⟩ := h
    rw [hr]
    exact Option.some_ne_none _
  | putTrafficLimitSettings limits => cases hu
  | updateGitRepoRedirect repository oldSlug newSlug =>
    cases hu
    obtain ⟨r, r', hr, hr'⟩ := h
    rw [hr]
    exact Option.ne_none_iff_exists'.mpr ⟨r', hr'⟩

theorem load_apply_self (h : u.Applies lib c) (hu : u.repository = some name) :
    (u.apply lib c).repositories.load name = u.change lib (c.repositories.load name) := by
  by_cases hdelete : u = .deleteMavenRepository name
  · subst hdelete
    exact (GoMap.load_delete _ _ _).trans (if_pos rfl)
  · obtain ⟨r, hr⟩ := Option.ne_none_iff_exists'.mp (change_ne_none h hu hdelete)
    rw [apply_of_change hu hr, hr]
    exact (GoMap.load_store _ _ _ _).trans (if_pos rfl)

theorem load_apply_other (hne : u.repository ≠ some name) :
    (u.apply lib c).repositories.load name = c.repositories.load name := by
  unfold Update.apply
  split
  · rfl
  · rename_i repository
    rw [GoMap.load_delete, if_neg]
    rintro rfl
    exact hne rfl
  · split
    · rfl
    · rename_i repository hrepository
      split
      · rfl
      · rw [Config.withRepository, GoMap.load_store, if_neg]
        rintro rfl
        exact hne hrepository

theorem trafficLimit_apply (hu : u.repository ≠ none) :
    (u.apply lib c).trafficLimit = c.trafficLimit := by
  unfold Update.apply
  split
  · exact absurd rfl hu
  · rfl
  · split
    · rfl
    · split <;> rfl

theorem renameRepo_cases {r r' : Repository D} {oldSlug newSlug : Text}
    (h : r.renameRepo lib oldSlug newSlug = some r') :
    ∃ p p', r.gitRepo = some p ∧ p.renameRepo lib oldSlug newSlug = some p' ∧
      r' = { r with gitRepo := some p' } := by
  unfold Repository.renameRepo at h
  obtain ⟨p', hp', rfl⟩ := Option.map_eq_some_iff.mp h
  obtain ⟨p, hp, hrename⟩ := Option.bind_eq_some_iff.mp hp'
  exact ⟨p, p', hp, hrename, rfl⟩

theorem repoQuotas_renameRepo {p p' : GitRepoPolicy D} {oldSlug newSlug : Text}
    (h : p.renameRepo lib oldSlug newSlug = some p') :
    p'.terms = p.terms ∧
      (p.repoQuotas.load (lib.slug oldSlug) = none → p'.repoQuotas = p.repoQuotas) := by
  unfold GitRepoPolicy.renameRepo at h
  split_ifs at h
  obtain ⟨registered, -, rfl⟩ := Option.map_eq_some_iff.mp h
  refine ⟨rfl, ?_⟩
  intro hnone
  simp only [hnone]

theorem read_apply_of_sets (h : u.Applies lib c) (hsets : u.Sets lib c x v) :
    (u.apply lib c).read x = v := by
  have hfield : ∀ {repository : Text} {r : Repository D} {f : Field},
      u.repository = some repository → u.change lib (c.repositories.load repository) = some r →
        (u.apply lib c).read (.field repository f) = r.read f := by
    intro repository r f hu hchange
    simp only [Config.read, load_apply_self h hu, hchange, Option.elim_some]
  cases u with
  | putMavenRepository repository msg =>
    obtain ⟨next, hnext, ⟨-, rfl, rfl⟩ | ⟨f, rfl, rfl, -⟩⟩ := hsets
    · simp only [Config.read, load_apply_self h rfl, Update.change, hnext, Option.elim_some]
    · exact hfield rfl hnext
  | deleteMavenRepository repository =>
    obtain ⟨hx, rfl⟩ := hsets
    cases x with
    | registered repository' =>
      cases hx
      simp only [Config.read, load_apply_self h rfl, Update.change, Option.elim_none]
    | field repository' f =>
      cases hx
      simp only [Config.read, load_apply_self h rfl, Update.change, Option.elim_none]
    | trafficLimit => cases hx
  | replaceRepositoryConfig repository original replacement =>
    obtain ⟨f, rfl, -, rfl⟩ := hsets
    exact hfield rfl rfl
  | putRepositoryPublicationReview repository policy =>
    obtain ⟨r, hr, hengine⟩ := h
    rcases hsets with ⟨rfl, rfl⟩ | ⟨hoff, rfl, rfl⟩
    · rw [hfield rfl (congrArg (Option.map _) hr)]
      simp only [Repository.read, Repository.publicationReviewPolicy, Repository.withReview,
        hengine, if_true]
    · rw [hfield rfl (congrArg (Option.map _) hr)]
      simp only [Repository.read, Repository.withReview, if_neg hoff]
  | putRepositoryDownloadStatistics repository enabled =>
    obtain ⟨r, hr⟩ := h
    obtain ⟨rfl, rfl⟩ := hsets
    exact hfield rfl (congrArg (Option.map _) hr)
  | putTrafficLimitSettings limits =>
    obtain ⟨rfl, rfl⟩ := hsets
    rfl
  | updateGitRepoRedirect repository oldSlug newSlug =>
    obtain ⟨r, p, p', hr, hp, hrename, hsets⟩ := hsets
    have hchange : (Update.updateGitRepoRedirect repository oldSlug newSlug).change lib
        (c.repositories.load repository) = some { r with gitRepo := some p' } := by
      simp only [Update.change, hr, Option.bind_some, Repository.renameRepo, hp, hrename,
        Option.map_some]
    rcases hsets with ⟨rfl, rfl⟩ | ⟨-, rfl, rfl⟩
    · exact hfield rfl hchange
    · exact hfield rfl hchange

theorem read_apply_of_not_sets (h : u.Applies lib c) (hsets : ∀ v, ¬u.Sets lib c x v) :
    (u.apply lib c).read x = c.read x := by
  cases x with
  | trafficLimit =>
    by_cases hu : u.repository = none
    · cases u with
      | putTrafficLimitSettings limits => exact absurd ⟨rfl, rfl⟩ (hsets (.data limits))
      | _ => cases hu
    · exact congrArg Value.data (trafficLimit_apply hu)
  | registered name =>
    by_cases hu : u.repository = some name
    · have hpresent : ∀ {r r' : Repository D}, c.repositories.load name = some r →
          u.change lib (c.repositories.load name) = some r' →
            (u.apply lib c).read (.registered name) = c.read (.registered name) := by
        intro r r' hr hchange
        have hload := (load_apply_self h hu).trans hchange
        simp only [Config.read, hload, hr, Option.elim_some]
      cases u with
      | putMavenRepository repository msg =>
        cases hu
        obtain ⟨next, hnext⟩ := Option.isSome_iff_exists.mp h
        cases hr : c.repositories.load name with
        | none => exact absurd ⟨next, hnext, Or.inl ⟨hr, rfl, rfl⟩⟩ (hsets .present)
        | some r => exact hpresent hr hnext
      | deleteMavenRepository repository =>
        cases hu
        exact absurd ⟨rfl, rfl⟩ (hsets .absent)
      | replaceRepositoryConfig repository original replacement =>
        cases hu
        exact hpresent h rfl
      | putRepositoryPublicationReview repository policy =>
        cases hu
        obtain ⟨r, hr, -⟩ := h
        exact hpresent hr (congrArg (Option.map _) hr)
      | putRepositoryDownloadStatistics repository enabled =>
        cases hu
        obtain ⟨r, hr⟩ := h
        exact hpresent hr (congrArg (Option.map _) hr)
      | putTrafficLimitSettings limits => cases hu
      | updateGitRepoRedirect repository oldSlug newSlug =>
        cases hu
        obtain ⟨r, r', hr, hr'⟩ := h
        exact hpresent hr ((congrArg (Update.change lib _) hr).trans hr')
    · simp only [Config.read, load_apply_other hu]
  | field name f =>
    by_cases hu : u.repository = some name
    · have hkept : ∀ {r r' : Repository D}, c.repositories.load name = some r →
          u.change lib (c.repositories.load name) = some r' → r'.read f = r.read f →
            (u.apply lib c).read (.field name f) = c.read (.field name f) := by
        intro r r' hr hchange hread
        have hload := (load_apply_self h hu).trans hchange
        simp only [Config.read, hload, hr, Option.elim_some, hread]
      cases u with
      | putMavenRepository repository msg =>
        cases hu
        obtain ⟨next, hnext⟩ := Option.isSome_iff_exists.mp h
        have hnot : ¬∀ existing, c.repositories.load name = some existing →
            msg.Sets existing next f :=
          fun hall => hsets (next.read f) ⟨next, hnext, Or.inr ⟨f, rfl, rfl, hall⟩⟩
        obtain ⟨existing, hexisting⟩ := not_forall.mp hnot
        obtain ⟨hload, hfield⟩ := Classical.not_imp.mp hexisting
        have hput : putRepository lib msg (some existing) = some next := by
          rw [← hload]
          exact hnext
        exact hkept hload hnext (read_putRepository hput hfield)
      | deleteMavenRepository repository =>
        cases hu
        exact absurd ⟨rfl, rfl⟩ (hsets .absent)
      | replaceRepositoryConfig repository original replacement =>
        cases hu
        refine hkept h rfl ?_
        by_contra hne
        exact hsets _ ⟨f, rfl, hne, rfl⟩
      | putRepositoryPublicationReview repository policy =>
        cases hu
        obtain ⟨r, hr, -⟩ := h
        refine hkept hr (congrArg (Option.map _) hr) ?_
        cases f with
        | review => exact absurd (Or.inl ⟨rfl, rfl⟩) (hsets (.review policy))
        | redeployment =>
          have hoff : policy = .off := by
            by_contra hne
            exact hsets (.flag false) (Or.inr ⟨hne, rfl, rfl⟩)
          simp only [Repository.read, Repository.withReview, if_pos hoff]
        | _ => rfl
      | putRepositoryDownloadStatistics repository enabled =>
        cases hu
        obtain ⟨r, hr⟩ := h
        refine hkept hr (congrArg (Option.map _) hr) ?_
        cases f with
        | statistics => exact absurd ⟨rfl, rfl⟩ (hsets (.statistics (some enabled)))
        | _ => rfl
      | putTrafficLimitSettings limits => cases hu
      | updateGitRepoRedirect repository oldSlug newSlug =>
        cases hu
        obtain ⟨r, r', hr, hr'⟩ := h
        refine hkept hr ((congrArg (Update.change lib _) hr).trans hr') ?_
        obtain ⟨p, p', hp, hrename, rfl⟩ := renameRepo_cases hr'
        obtain ⟨hterms, hquotas⟩ := repoQuotas_renameRepo hrename
        cases f with
        | gitTerms => simp only [Repository.read, hp, Option.elim_some, hterms]
        | registeredRepos =>
          exact absurd ⟨r, p, p', hr, hp, hrename, Or.inl ⟨rfl, rfl⟩⟩ (hsets _)
        | repoQuotas =>
          cases hload : p.repoQuotas.load (lib.slug oldSlug) with
          | none => simp only [Repository.read, hp, Option.elim_some, hquotas hload]
          | some quota =>
            have hsome : (p.repoQuotas.load (lib.slug oldSlug)).isSome = true := by
              rw [hload]
              rfl
            exact absurd ⟨r, p, p', hr, hp, hrename, Or.inr ⟨hsome, rfl, rfl⟩⟩ (hsets _)
        | _ => rfl
    · simp only [Config.read, load_apply_other hu]

abbrev History (D : Type) := List (ℕ × Update D)

variable (lib) in
def replay (start : Config D) (history : History D) : Config D :=
  history.foldr (fun e c => e.2.apply lib c) start

variable (lib) in
def Applied (start : Config D) : History D → Prop
  | [] => True
  | e :: earlier => e.2.Applies lib (replay lib start earlier) ∧ Applied start earlier

variable (lib) in
def Overwritten (start : Config D) (x : Setting) (later earlier : History D) : Prop :=
  ∃ newer e older, later = newer ++ e :: older ∧
    ∃ v, e.2.Sets lib (replay lib start (older ++ earlier)) x v

variable (lib) in
def Contains (start : Config D) (history : History D) (c : Config D) (e : ℕ × Update D) : Prop :=
  ∃ later earlier, history = later ++ e :: earlier ∧
    ∀ x v, e.2.Sets lib (replay lib start earlier) x v →
      c.read x = v ∨ Overwritten lib start x later (e :: earlier)

variable {start : Config D} {e : ℕ × Update D} {earlier later : History D}

theorem Applied.of_append (h : Applied lib start (later ++ earlier)) :
    Applied lib start earlier := by
  induction later with
  | nil => exact h
  | cons e later ih => exact ih h.2

theorem read_replay (h : Applied lib start (later ++ earlier))
    (hread : (replay lib start earlier).read x = v) :
    (replay lib start (later ++ earlier)).read x = v ∨
      Overwritten lib start x later earlier := by
  induction later with
  | nil => exact Or.inl hread
  | cons e later ih =>
    rcases ih h.2 with hkept | ⟨newer, e', older, rfl, hsets⟩
    · by_cases hsets : ∃ v', e.2.Sets lib (replay lib start (later ++ earlier)) x v'
      · exact Or.inr ⟨[], e, later, rfl, hsets⟩
      · refine Or.inl ((read_apply_of_not_sets h.1 ?_).trans hkept)
        exact fun v' hv' => hsets ⟨v', hv'⟩
    · exact Or.inr ⟨e :: newer, e', older, rfl, hsets⟩

theorem contains_replay {history : History D} (h : Applied lib start history) (he : e ∈ history) :
    Contains lib start history (replay lib start history) e := by
  obtain ⟨later, earlier, rfl⟩ := List.append_of_mem he
  refine ⟨later, earlier, rfl, ?_⟩
  intro x v hsets
  exact read_replay h (read_apply_of_sets h.of_append.1 hsets)

end RenoP.Settings
