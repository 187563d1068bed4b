import Mathlib.Data.Char
import Mathlib.Data.List.Lex
import RenoP.Lib.Fallible
import RenoP.Database.PublicationQuota

/-!
# npm packages

The versions, dist-tags and latest version of one package, `internal/database/npm.go` and
`internal/database/npm_locks.go`. A transaction that fails is rolled back. Names of versions are in
sanitised form.
-/

namespace RenoP.Npm

open RenoP.Database (Text trimSpace sanitizeControlBytes truncateUTF8)
open Fallible (refuse)

structure NPMVersion where
  manifest : Text
  publisher : Text
  tarballPath : Text
  shasum : Text
  integrity : Text
  size : ℤ
  deprecated : Text
  unpublished : Bool
  mirrored : Bool
  createdAt : ℤ
  deriving DecidableEq

structure NPMPackage where
  description : Text
  publisher : Text
  latestVersion : Text
  isPrivate : Bool
  archived : Bool
  mirrored : Bool
  publishEnabled : Bool
  revision : ℤ
  deriving DecidableEq

structure Tables where
  package : Option NPMPackage
  versions : GoMap Text NPMVersion
  tags : GoMap Text Text

inductive NPMError where
  | packageNotFound
  | packageExists
  | packageArchived
  | packageMirrored
  | packageLimit
  | permissionDenied
  | versionExists
  | versionNotFound
  | revisionConflict
  | resourceLocked
  | invalid
  deriving DecidableEq

/-- `strings.ToLower` on letters, and `golang.org/x/mod/semver`. -/
structure Library where
  toLower : Char → Char
  toLower_letter : ∀ c, 'a' ≤ c → c ≤ 'z' → toLower c = c
  semverIsValid : Text → Bool
  semverCompare : Text → Text → ℤ

structure Outside where
  /-- the lock of the package, and that of the package or any version -/
  packageLocked : Bool
  anyLocked : Bool
  versionLocked : Text → Bool
  lockRow : Text → Bool
  /-- the permission that the transaction requires -/
  permitted : Bool
  expectedRevision : ℤ
  order : GoMap.RangeOrder Text Text

variable (lib : Library) (o : Outside)

def byteLength (text : Text) : ℕ := (text.map Char.utf8Size).sum

def maxManifestBytes : ℕ := 4194304
def maxNPMVersionsPerPackage : ℕ := 5000

def sanitizeInputString (s : Text) (maxLen : ℕ) : Text := truncateUTF8 (sanitizeControlBytes s) maxLen

def lower (s : Text) : Text := s.map lib.toLower

def latestTag : Text := ['l', 'a', 't', 'e', 's', 't']

/-- The name under which `upsertNPMTag` stores a tag. -/
def sanitizeTag (tag : Text) : Text := lower lib (sanitizeInputString (trimSpace tag) 128)

def lockNPMPackage (t : Tables) : Except NPMError NPMPackage :=
  match t.package with
  | none => .error .packageNotFound
  | some pkg => do
    refuse (o.packageLocked = true) .resourceLocked
    return pkg

def requireNPMRevisionTx (pkg : NPMPackage) : Except NPMError Unit :=
  refuse (0 < o.expectedRevision ∧ pkg.revision ≠ o.expectedRevision) .revisionConflict

/-- `npmTagVersionTx`; an absent tag reads as the empty version. -/
def tagVersion (tags : GoMap Text Text) (tag : Text) : Text := (tags.load tag).getD []

def upsertNPMTag (tags : GoMap Text Text) (tag version : Text) :
    Except NPMError (GoMap Text Text) := do
  refuse (sanitizeTag lib tag = [] ∨ version = []) .invalid
  return tags.store (sanitizeTag lib tag) version

def ensureNPMTagChangeTx (tags : GoMap Text Text) (tag version : Text) : Except NPMError Unit :=
  let previous := tagVersion tags (lower lib (trimSpace tag))
  if previous = version then .ok ()
  else
    refuse (previous ≠ [] ∧ o.versionLocked previous = true ∨
      version ≠ [] ∧ o.versionLocked version = true) .resourceLocked

def live (versions : GoMap Text NPMVersion) (version : Text) : Bool :=
  (versions.load version).any fun row => !row.unpublished

/-- The names that `latestNPMVersionTx` reads, the newest first. -/
def liveNames (versions : GoMap Text NPMVersion) : List Text :=
  let rows := versions.entries.filter fun e => !e.2.unpublished
  (rows.mergeSort fun e e' => decide (e'.2.createdAt < e.2.createdAt) ||
    decide (e'.2.createdAt = e.2.createdAt) && decide (e'.1 ≤ e.1)).map fun e => e.1

def greatest (latest : Text) (version : Text) : Text :=
  let candidate := 'v' :: version
  if lib.semverIsValid candidate = true ∧
      (latest = [] ∨ 0 < lib.semverCompare candidate ('v' :: latest)) then version
  else latest

def latestNPMVersionTx (versions : GoMap Text NPMVersion) : Text :=
  let names := liveNames versions
  let latest := names.foldl (greatest lib) []
  if latest = [] then names.headD [] else latest

/-- The version of the `latest` tag, or the one that is chosen where there is none. -/
def latestOf (versions : GoMap Text NPMVersion) (tags : GoMap Text Text) : Text :=
  let latest := tagVersion tags latestTag
  if latest = [] then latestNPMVersionTx lib versions else latest

/-- The arguments of `RecordNPMPublication` about the version. -/
structure Publication where
  version : Text
  manifest : Text
  tarballPath : Text
  shasum : Text
  integrity : Text
  size : ℤ
  deprecated : Text
  createdAt : ℤ
  deriving DecidableEq

def Publication.row (p : Publication) (publisher : Text) (mirrored : Bool) : NPMVersion where
  manifest := p.manifest
  publisher := publisher
  tarballPath := sanitizeInputString p.tarballPath 1024
  shasum := lower lib (sanitizeInputString p.shasum 40)
  integrity := sanitizeInputString p.integrity 255
  size := max p.size 0
  deprecated := sanitizeInputString p.deprecated 4000
  unpublished := false
  mirrored := mirrored
  createdAt := p.createdAt

def manifestUnits (versions : GoMap Text NPMVersion) : ℕ :=
  (versions.entries.map fun e => byteLength e.2.manifest).sum

def publishTag (version : Text) (tags : GoMap Text Text) (e : Text × Text) :
    Except NPMError (GoMap Text Text) :=
  if e.2 ≠ version then .ok tags
  else do
    ensureNPMTagChangeTx lib o tags e.1 e.2
    upsertNPMTag lib tags e.1 e.2

/-- `RecordNPMPublication` by a user. -/
def recordNPMPublication (t : Tables) (username description : Text) (p : Publication)
    (tags : GoMap Text Text) : Except NPMError Tables := do
  refuse (p.version = [] ∨ p.manifest = [] ∨ maxManifestBytes < byteLength p.manifest) .invalid
  let pkg ← lockNPMPackage o t
  refuse (o.versionLocked p.version = true) .resourceLocked
  refuse (pkg.archived = true) .packageArchived
  refuse (pkg.mirrored = true ∨ pkg.publishEnabled = false) .packageMirrored
  refuse (o.permitted = false) .permissionDenied
  refuse (t.versions.has p.version = true) .versionExists
  refuse (maxNPMVersionsPerPackage ≤ t.versions.size ∨
    maxManifestBytes < manifestUnits t.versions + byteLength p.manifest) .packageLimit
  let versions := t.versions.store p.version (p.row lib username false)
  let tags ← (o.order.pairs tags).foldlM (publishTag lib o p.version) t.tags
  return {
    package := some { pkg with
      description := sanitizeInputString (trimSpace description) 4000
      publisher := username
      latestVersion := latestOf lib versions tags
      revision := pkg.revision + 1 }
    versions := versions
    tags := tags }

structure MirroredPackage where
  description : Text
  latestVersion : Text
  isPrivate : Bool
  deriving DecidableEq

def mirrorName : Text := ['m', 'i', 'r', 'r', 'o', 'r']

def markStale (_ : Text) (row : NPMVersion) : NPMVersion := { row with unpublished := true }

/-- The turn of a version in the loop of `RecordNPMMirrorPublication`. A row that is not mirrored
refuses the insertion and stays. -/
def refreshVersion (versions : GoMap Text NPMVersion) (p : Publication) : GoMap Text NPMVersion :=
  if p.version = [] ∨ p.manifest = [] ∨ maxManifestBytes < byteLength p.manifest then versions
  else
    match versions.load p.version with
    | some row =>
      if row.mirrored then
        versions.store p.version { p.row lib row.publisher true with createdAt := row.createdAt }
      else versions
    | none => versions.store p.version (p.row lib mirrorName true)

def mirroredRow (package : Option NPMPackage) (pkg : MirroredPackage) : Except NPMError NPMPackage :=
  let description := sanitizeInputString (trimSpace pkg.description) 4000
  let latestVersion := sanitizeInputString pkg.latestVersion 128
  match package with
  | none => .ok ⟨description, mirrorName, latestVersion, pkg.isPrivate, false, true, false, 1⟩
  | some row => do
    refuse (row.mirrored = false) .packageExists
    return { row with
      description := description
      latestVersion := latestVersion
      isPrivate := pkg.isPrivate
      revision := row.revision + 1 }

def recordNPMMirrorPublication (t : Tables) (pkg : MirroredPackage) (versions : List Publication)
    (tags : GoMap Text Text) : Except NPMError Tables := do
  refuse (o.anyLocked = true) .resourceLocked
  let row ← mirroredRow t.package pkg
  let stale := t.versions.updateWhere (fun _ row => row.mirrored) markStale
  let refreshed := versions.foldl (refreshVersion lib) stale
  let kept := refreshed.deleteWhere fun _ row => row.mirrored && row.unpublished
  let tags ← (o.order.pairs tags).foldlM (fun tags e => upsertNPMTag lib tags e.1 e.2)
    (∅ : GoMap Text Text)
  return {
    package := some { row with latestVersion := latestOf lib kept tags }
    versions := kept
    tags := tags }

def retagged (t : Tables) (pkg : NPMPackage) (tags : GoMap Text Text) : Tables :=
  { t with
    package := some { pkg with
      latestVersion := latestOf lib t.versions tags
      revision := pkg.revision + 1 }
    tags := tags }

def setNPMDistTag (t : Tables) (tag version : Text) : Except NPMError Tables := do
  let pkg ← lockNPMPackage o t
  refuse (o.permitted = false) .permissionDenied
  requireNPMRevisionTx o pkg
  refuse (live t.versions version = false) .versionNotFound
  ensureNPMTagChangeTx lib o t.tags tag version
  let tags ← upsertNPMTag lib t.tags tag version
  return retagged lib t pkg tags

def deleteNPMDistTag (t : Tables) (tag : Text) : Except NPMError Tables := do
  let tag := sanitizeTag lib tag
  let pkg ← lockNPMPackage o t
  refuse (o.permitted = false) .permissionDenied
  requireNPMRevisionTx o pkg
  ensureNPMTagChangeTx lib o t.tags tag []
  refuse (t.tags.has tag = false) .versionNotFound
  return retagged lib t pkg (t.tags.delete tag)

def packumentLocked (t : Tables) (deprecations tags : GoMap Text Text) : Bool :=
  let locked (version : Text) : Bool := t.versions.has version && o.lockRow version
  (t.versions.entries.any fun e => locked e.1 &&
    (deprecations.load e.1).any fun next => decide (trimSpace next ≠ e.2.deprecated)) ||
  (t.tags.entries.any fun e => locked e.2 && decide (tagVersion tags e.1 ≠ e.2)) ||
  (tags.entries.any fun e => locked e.2 && decide (tagVersion t.tags e.1 ≠ e.2))

def updateDeprecation (versions : GoMap Text NPMVersion) (e : Text × Text) :
    Except NPMError (GoMap Text NPMVersion) :=
  match versions.load e.1 with
  | none => .error .versionNotFound
  | some row => do
    refuse (row.unpublished = true) .versionNotFound
    return versions.store e.1 { row with
      deprecated := sanitizeInputString (trimSpace e.2) 4000 }

def replaceTag (versions : GoMap Text NPMVersion) (tags : GoMap Text Text) (e : Text × Text) :
    Except NPMError (GoMap Text Text) := do
  refuse (live versions e.2 = false) .versionNotFound
  upsertNPMTag lib tags e.1 e.2

def updateNPMPackument (t : Tables) (deprecations tags : GoMap Text Text) :
    Except NPMError Tables := do
  let pkg ← lockNPMPackage o t
  refuse (o.permitted = false) .permissionDenied
  requireNPMRevisionTx o pkg
  refuse (packumentLocked o t deprecations tags = true) .resourceLocked
  let versions ← (o.order.pairs deprecations).foldlM updateDeprecation t.versions
  let stored ← (o.order.pairs tags).foldlM (replaceTag lib versions) (∅ : GoMap Text Text)
  return {
    package := some { pkg with
      latestVersion := tagVersion tags latestTag
      revision := pkg.revision + 1 }
    versions := versions
    tags := stored }

def moveLatest (tags : GoMap Text Text) (latest : Text) : Except NPMError (GoMap Text Text) :=
  if latest = [] then .ok tags
  else do
    ensureNPMTagChangeTx lib o tags latestTag latest
    upsertNPMTag lib tags latestTag latest

def unpublishNPMVersion (t : Tables) (version : Text) : Except NPMError Tables := do
  let pkg ← lockNPMPackage o t
  refuse (o.permitted = false) .permissionDenied
  requireNPMRevisionTx o pkg
  refuse (o.versionLocked version = true) .resourceLocked
  refuse (live t.versions version = false) .versionNotFound
  let versions := t.versions.updateWhere (fun name _ => decide (name = version)) markStale
  let latest := latestNPMVersionTx lib versions
  let tags ← moveLatest lib o (t.tags.deleteWhere fun _ v => decide (v = version)) latest
  return {
    package := some { pkg with latestVersion := latest, revision := pkg.revision + 1 }
    versions := versions
    tags := tags }

def deleteNPMPackage (t : Tables) : Except NPMError Tables := do
  let pkg ← lockNPMPackage o t
  refuse (o.permitted = false) .permissionDenied
  requireNPMRevisionTx o pkg
  refuse (o.anyLocked = true) .resourceLocked
  return {
    package := some { pkg with
      archived := true
      publishEnabled := false
      latestVersion := []
      revision := pkg.revision + 1 }
    versions := t.versions.updateWhere (fun _ _ => true) markStale
    tags := ∅ }

end RenoP.Npm
