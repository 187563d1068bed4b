import RenoP.Team.TeamMembers

/-!
# Rows of a crate

The transactions of `internal/database/cargo.go` that record, yank, archive and delete versions of
one package. A call returns tables only where the source commits. The texts of a request are what
`SanitizeInputString` leaves of them; users, locks and global teams are answered from outside.
-/

namespace RenoP.Cargo

open RenoP.Database (Text)
open RenoP.Team (effectiveBoundPermission)

structure CargoPackage where
  name : Text
  description : Text
  readme : Text
  repositoryURL : Text
  homepage : Text
  documentation : Text
  archived : Bool
  adminArchived : Bool
  mirrored : Bool
  superTeamPrefix : Text
  createdAt : ℤ
  updatedAt : ℤ
  deriving DecidableEq

structure CargoVersion where
  description : Text
  publisher : Text
  size : ℤ
  checksum : Text
  rustVersion : Text
  license : Text
  repositoryURL : Text
  homepage : Text
  documentation : Text
  yanked : Bool
  adminYanked : Bool
  archiveYanked : Bool
  mirrored : Bool
  createdAt : ℤ
  deriving DecidableEq

structure PackageTables where
  pkg : Option CargoPackage
  members : GoMap Text ℤ
  versions : GoMap Text CargoVersion

inductive CargoError where
  | invalid
  | permissionDenied
  | resourceLocked
  | packageArchived
  | adminArchived
  | adminYanked
  | nameCollides
  | versionExists
  | versionNotFound
  | packageNotFound
  | reviewInvalidRequest
  | reviewResourceConflict
  deriving DecidableEq

structure Outside where
  /-- `ensureUserProfile` and `lockAccountLoginMethodsTx` -/
  profile : Text → Bool
  /-- a resource lock covers the version -/
  locked : Text → Bool
  /-- `super_team_members`, by team and user -/
  superRole : Text → Text → Option ℤ

def permissionPublish : ℤ := 1
def permissionFull : ℤ := 4

variable (env : Outside) (t : PackageTables)

def cargoEffectivePermission (p : CargoPackage) (username : Text) : ℤ × Bool :=
  let explicit := t.members.load username
  let role := env.superRole p.superTeamPrefix username
  effectiveBoundPermission (explicit.getD 0) explicit.isSome (role.getD 0) role.isSome

/-- The package row of a publication, made with its owner when it is missing. -/
def registerPackage (pkg : CargoPackage) (username : Text) : Except CargoError PackageTables :=
  match t.pkg with
  | none =>
    let row := { pkg with
      archived := false
      adminArchived := false
      mirrored := false
      superTeamPrefix := [] }
    .ok { t with pkg := some row, members := t.members.store username permissionFull }
  | some stored =>
    if stored.archived then .error .packageArchived
    else if stored.name ≠ pkg.name then .error .nameCollides
    else
      let (level, member) := cargoEffectivePermission env t stored username
      if !member || decide (level < permissionPublish) then .error .permissionDenied else .ok t

def describePackage (pkg stored : CargoPackage) : CargoPackage := { stored with
  description := pkg.description
  readme := pkg.readme
  repositoryURL := if pkg.repositoryURL ≠ [] then pkg.repositoryURL else stored.repositoryURL
  homepage := if pkg.homepage ≠ [] then pkg.homepage else stored.homepage
  documentation := if pkg.documentation ≠ [] then pkg.documentation else stored.documentation
  updatedAt := pkg.updatedAt }

def recordCargoPublication (pkg : CargoPackage) (version : Text) (row : CargoVersion)
    (username : Text) : Except CargoError PackageTables :=
  if username = [] ∨ pkg.name = [] ∨ version = [] then .error .invalid
  else if !env.profile username then .error .permissionDenied
  else if env.locked version then .error .resourceLocked
  else match registerPackage env t pkg username with
  | .error err => .error err
  | .ok t =>
    if t.versions.has version then .error .versionExists
    else
      let row := { row with
        publisher := username
        yanked := false
        adminYanked := false
        archiveYanked := false
        mirrored := false }
      .ok { t with
        pkg := t.pkg.map (describePackage pkg)
        versions := t.versions.store version row }

/-- The package row of a mirrored publication; `createdAt` is positive. -/
def mirrorPackage (pkg : CargoPackage) : Except CargoError CargoPackage :=
  match t.pkg with
  | none => .ok { pkg with
      repositoryURL := []
      homepage := []
      documentation := []
      archived := false
      adminArchived := false
      mirrored := true
      superTeamPrefix := []
      updatedAt := max pkg.updatedAt pkg.createdAt }
  | some stored =>
    if stored.name ≠ pkg.name then .error .nameCollides
    else .ok { stored with
      mirrored := true
      description := if stored.description = [] then pkg.description else stored.description
      readme := if stored.readme = [] then pkg.readme else stored.readme
      updatedAt := max stored.updatedAt (max pkg.updatedAt pkg.createdAt) }

def mirrorVersion (pkg : CargoPackage) (row : CargoVersion) : Option CargoVersion → CargoVersion
  | none => { row with
      publisher := []
      size := max row.size 0
      checksum := []
      rustVersion := []
      license := []
      repositoryURL := []
      homepage := []
      documentation := []
      yanked := false
      adminYanked := false
      archiveYanked := false
      mirrored := true
      createdAt := if row.createdAt ≤ 0 then pkg.createdAt else row.createdAt }
  | some stored => { stored with mirrored := true, size := max row.size stored.size }

def recordCargoMirrorPublication (pkg : CargoPackage) (version : Text) (row : CargoVersion) :
    Except CargoError PackageTables :=
  if pkg.name = [] ∨ version = [] then .error .invalid
  else match mirrorPackage t pkg with
  | .error err => .error err
  | .ok stored => .ok { t with
      pkg := some stored
      versions := t.versions.store version (mirrorVersion pkg row (t.versions.load version)) }

def setCargoVersionYanked (version : Text) (yanked administrator : Bool) :
    Except CargoError PackageTables :=
  match t.pkg, t.versions.load version with
  | some p, some row =>
    if !yanked && p.archived then .error .packageArchived
    else if !yanked && row.adminYanked && !administrator then .error .adminYanked
    else
      let adminYanked := if administrator then yanked else row.adminYanked
      let row := { row with yanked := yanked, adminYanked := adminYanked }
      .ok { t with versions := t.versions.store version row }
  | _, _ => .error .versionNotFound

def archiveVersion (row : CargoVersion) : CargoVersion :=
  { row with archiveYanked := if row.yanked then row.archiveYanked else true, yanked := true }

def restoreVersion (row : CargoVersion) : CargoVersion :=
  { row with
    yanked := if row.archiveYanked && !row.adminYanked then false else row.yanked
    archiveYanked := false }

def setCargoPackageArchived (archived administrator : Bool) : Except CargoError PackageTables :=
  match t.pkg with
  | none => .error .packageNotFound
  | some p =>
    if !archived && p.adminArchived && !administrator then .error .adminArchived
    else
      let adminArchived := if administrator then archived else p.adminArchived
      let change := if archived then archiveVersion else restoreVersion
      .ok { t with
        pkg := some { p with archived := archived, adminArchived := adminArchived }
        versions := t.versions.updateWhere (fun _ _ => true) fun _ row => change row }

def deleteCargoVersion (version : Text) : Except CargoError PackageTables :=
  if !t.versions.has version then .error .versionNotFound
  else
    let versions := t.versions.delete version
    let mirrored := versions.entries.any fun e => e.2.mirrored
    .ok { t with pkg := t.pkg.map ({ · with mirrored := mirrored }), versions := versions }

/-- `RollbackCargoPublicationReview`; `previous` is the package row from before the publication. -/
def rollbackCargoPublicationReview (version : Text) (previous : Option CargoPackage) :
    Except CargoError PackageTables :=
  if version = [] then .error .reviewInvalidRequest
  else if !t.versions.has version then .error .versionNotFound
  else
    let versions := t.versions.delete version
    match previous with
    | none =>
      if versions.entries ≠ [] then .error .reviewResourceConflict
      else .ok ⟨none, ∅, versions⟩
    | some row => .ok { t with pkg := t.pkg.map fun _ => row, versions := versions }

inductive PackageCall where
  | recordCargoPublication (env : Outside) (pkg : CargoPackage) (version : Text) (row : CargoVersion)
      (username : Text)
  | recordCargoMirrorPublication (pkg : CargoPackage) (version : Text) (row : CargoVersion)
  | setCargoVersionYanked (version : Text) (yanked administrator : Bool)
  | setCargoPackageArchived (archived administrator : Bool)
  | deleteCargoVersion (version : Text)
  | rollbackCargoPublicationReview (version : Text) (previous : Option CargoPackage)

def PackageTables.call : PackageCall → Except CargoError PackageTables
  | .recordCargoPublication env pkg version row username =>
    RenoP.Cargo.recordCargoPublication env t pkg version row username
  | .recordCargoMirrorPublication pkg version row =>
    RenoP.Cargo.recordCargoMirrorPublication t pkg version row
  | .setCargoVersionYanked version yanked administrator =>
    RenoP.Cargo.setCargoVersionYanked t version yanked administrator
  | .setCargoPackageArchived archived administrator =>
    RenoP.Cargo.setCargoPackageArchived t archived administrator
  | .deleteCargoVersion version => RenoP.Cargo.deleteCargoVersion t version
  | .rollbackCargoPublicationReview version previous =>
    RenoP.Cargo.rollbackCargoPublicationReview t version previous

variable {env t} {t' : PackageTables}

theorem registerPackage_cases {pkg : CargoPackage} {username : Text}
    (h : registerPackage env t pkg username = .ok t') :
    t'.versions = t.versions ∧
      ((t.pkg = none ∧ ∃ p, t'.pkg = some p ∧ p.archived = false ∧ p.adminArchived = false) ∨
        ∃ p, t.pkg = some p ∧ t'.pkg = some p ∧ p.archived = false) := by
  unfold registerPackage at h
  cases hpkg : t.pkg with
  | none =>
    simp only [hpkg] at h
    cases h
    exact ⟨rfl, .inl ⟨rfl, _, rfl, rfl, rfl⟩⟩
  | some p =>
    simp only [hpkg] at h
    split_ifs at h with harchived
    cases h
    exact ⟨rfl, .inr ⟨p, rfl, hpkg, by simpa using harchived⟩⟩

theorem recordCargoPublication_cases {pkg : CargoPackage} {version username : Text}
    {row : CargoVersion} (h : recordCargoPublication env t pkg version row username = .ok t') :
    t.versions.load version = none ∧
      (∃ fresh : CargoVersion, fresh.yanked = false ∧ fresh.adminYanked = false ∧
        fresh.archiveYanked = false ∧ t'.versions = t.versions.store version fresh) ∧
      ∃ p, t'.pkg = some p ∧ p.archived = false ∧
        ((t.pkg = none ∧ p.adminArchived = false) ∨
          ∃ p₀, t.pkg = some p₀ ∧ p₀.archived = false ∧ p.adminArchived = p₀.adminArchived) := by
  unfold recordCargoPublication at h
  split_ifs at h
  cases hregister : registerPackage env t pkg username with
  | error err =>
    rw [hregister] at h
    cases h
  | ok t₁ =>
    simp only [hregister] at h
    split_ifs at h with hexists
    cases h
    obtain ⟨hversions, hpkg⟩ := registerPackage_cases hregister
    rw [Bool.not_eq_true, GoMap.has_eq_false, hversions] at hexists
    refine ⟨hexists, ⟨_, rfl, rfl, rfl, congrArg (GoMap.store · version _) hversions⟩, ?_⟩
    obtain ⟨hnone, p, hp, harchived, hadmin⟩ | ⟨p, hp, hp', harchived⟩ := hpkg
    · exact ⟨describePackage pkg p, by simp [hp], harchived, .inl ⟨hnone, hadmin⟩⟩
    · exact ⟨describePackage pkg p, by simp [hp'], harchived, .inr ⟨p, hp, harchived, rfl⟩⟩

theorem mirrorPackage_cases {pkg p : CargoPackage} (h : mirrorPackage t pkg = .ok p) :
    (t.pkg = none ∧ p.archived = false ∧ p.adminArchived = false) ∨
      ∃ p₀, t.pkg = some p₀ ∧ p.archived = p₀.archived ∧ p.adminArchived = p₀.adminArchived := by
  unfold mirrorPackage at h
  cases hpkg : t.pkg with
  | none =>
    simp only [hpkg] at h
    cases h
    exact .inl ⟨rfl, rfl, rfl⟩
  | some p₀ =>
    simp only [hpkg] at h
    split at h
    · cases h
    · cases h
      exact .inr ⟨p₀, rfl, rfl, rfl⟩

theorem recordCargoMirrorPublication_cases {pkg : CargoPackage} {version : Text} {row : CargoVersion}
    (h : recordCargoMirrorPublication t pkg version row = .ok t') :
    t'.versions = t.versions.store version (mirrorVersion pkg row (t.versions.load version)) ∧
      ∃ p, t'.pkg = some p ∧ ((t.pkg = none ∧ p.archived = false ∧ p.adminArchived = false) ∨
        ∃ p₀, t.pkg = some p₀ ∧ p.archived = p₀.archived ∧ p.adminArchived = p₀.adminArchived) := by
  unfold recordCargoMirrorPublication at h
  split_ifs at h
  cases hpkg : mirrorPackage t pkg with
  | error err =>
    rw [hpkg] at h
    cases h
  | ok p =>
    simp only [hpkg] at h
    cases h
    exact ⟨rfl, p, rfl, mirrorPackage_cases hpkg⟩

theorem setCargoVersionYanked_cases {version : Text} {yanked administrator : Bool}
    (h : setCargoVersionYanked t version yanked administrator = .ok t') :
    ∃ p row, t.pkg = some p ∧ t.versions.load version = some row ∧ t'.pkg = t.pkg ∧
      (yanked = false → p.archived = false) ∧
      (yanked = false → row.adminYanked = true → administrator = true) ∧
      t'.versions = t.versions.store version { row with
        yanked := yanked, adminYanked := if administrator then yanked else row.adminYanked } := by
  unfold setCargoVersionYanked at h
  cases hpkg : t.pkg with
  | none =>
    rw [hpkg] at h
    cases h
  | some p =>
    cases hrow : t.versions.load version with
    | none =>
      rw [hpkg, hrow] at h
      cases h
    | some row =>
      simp only [hpkg, hrow] at h
      by_cases harchived : (!yanked && p.archived) = true
      · rw [if_pos harchived] at h
        cases h
      · by_cases hadmin : (!yanked && row.adminYanked && !administrator) = true
        · rw [if_neg harchived, if_pos hadmin] at h
          cases h
        · rw [if_neg harchived, if_neg hadmin] at h
          cases h
          refine ⟨p, row, rfl, rfl, rfl, ?_, ?_, rfl⟩
          · intro hunyank
            simpa [hunyank] using harchived
          · intro hunyank hheld
            simpa [hunyank, hheld] using hadmin

theorem setCargoPackageArchived_cases {archived administrator : Bool}
    (h : setCargoPackageArchived t archived administrator = .ok t') :
    ∃ p, t.pkg = some p ∧
      (archived = false → p.adminArchived = true → administrator = true) ∧
      t'.pkg = some { p with
        archived := archived
        adminArchived := if administrator then archived else p.adminArchived } ∧
      t'.versions = t.versions.updateWhere (fun _ _ => true)
        fun _ row => (if archived then archiveVersion else restoreVersion) row := by
  unfold setCargoPackageArchived at h
  cases hpkg : t.pkg with
  | none =>
    rw [hpkg] at h
    cases h
  | some p =>
    simp only [hpkg] at h
    split at h
    · cases h
    · rename_i hadmin
      cases h
      refine ⟨p, rfl, ?_, rfl, rfl⟩
      intro hopen hheld
      simpa [hopen, hheld] using hadmin

theorem deleteCargoVersion_cases {version : Text} (h : deleteCargoVersion t version = .ok t') :
    t'.versions = t.versions.delete version ∧
      ∃ mirrored, t'.pkg = t.pkg.map ({ · with mirrored := mirrored }) := by
  unfold deleteCargoVersion at h
  split_ifs at h
  cases h
  exact ⟨rfl, _, rfl⟩

theorem rollbackCargoPublicationReview_cases {version : Text} {previous : Option CargoPackage}
    (h : rollbackCargoPublicationReview t version previous = .ok t') :
    t'.versions = t.versions.delete version ∧ (t.versions.load version).isSome = true ∧
      ((previous = none ∧ t'.pkg = none ∧ t'.versions.entries = []) ∨
        ∃ row, previous = some row ∧ t'.pkg = t.pkg.map fun _ => row) := by
  unfold rollbackCargoPublicationReview at h
  split_ifs at h with hname hmissing
  have hfound : (t.versions.load version).isSome = true := by
    rwa [Bool.not_eq_true', GoMap.has, Bool.not_eq_false] at hmissing
  cases previous with
  | none =>
    simp only at h
    split_ifs at h with hempty
    cases h
    exact ⟨rfl, hfound, .inl ⟨rfl, rfl, not_not.mp hempty⟩⟩
  | some row =>
    cases h
    exact ⟨rfl, hfound, .inr ⟨row, rfl, rfl⟩⟩

end RenoP.Cargo
