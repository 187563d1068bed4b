import RenoP.Native.Publication

/-!
# Deletion of a native resource

The rows of `resource_locks`, as `SetResourceLock` writes them for native resources, beside the
native tables, and what `DeleteNativeResource` leaves in both. A statement that names a column its
table does not have fails and changes nothing.
-/

namespace RenoP.Native

open RenoP.Database (Text trimSpace)
open Fallible (refuse bind_ok)

structure ResourceLock where
  id : Text
  source : Text
  packageID : Text
  format : Text
  repository : Text
  resourceName : Text
  version : Text
  mode : Text
  reason : Text
  reasonText : Text
  lockedAt : ℤ
  deriving DecidableEq

inductive Column where
  | id
  | source
  | packageID
  | format
  | repository
  | resourceName
  | version
  | mode
  | reason
  | reasonText
  | name
  deriving DecidableEq

/-- The text columns of `initResourceLockTable`; `none` where the table has no such column. -/
def ResourceLock.read (l : ResourceLock) : Column → Option Text
  | .id => some l.id
  | .source => some l.source
  | .packageID => some l.packageID
  | .format => some l.format
  | .repository => some l.repository
  | .resourceName => some l.resourceName
  | .version => some l.version
  | .mode => some l.mode
  | .reason => some l.reason
  | .reasonText => some l.reasonText
  | .name => none

def lockColumns : List Column :=
  [.id, .source, .packageID, .format, .repository, .resourceName, .version, .mode, .reason,
    .reasonText]

def deleteLocks (conditions : List (Column × Text)) (locks : List ResourceLock) :
    Option (List ResourceLock) :=
  if conditions.all fun c => decide (c.1 ∈ lockColumns) then
    some (locks.filter fun l => !conditions.all fun c => decide (l.read c.1 = some c.2))
  else none

structure State where
  tables : Tables
  locks : List ResourceLock

structure LockTexts where
  isControl : Char → Bool
  packageDeprecationID : Text → Text → Text → Text

variable (texts : Texts) (lockTexts : LockTexts) (env : Accounts)

structure LockTarget where
  format : Text
  repository : Text
  name : Text
  version : Text
  deriving DecidableEq

structure LockRequest where
  target : LockTarget
  source : Text
  mode : Text
  reason : Text
  reasonText : Text
  lockedAt : ℤ
  deriving DecidableEq

/-- The native formats of `normalizePackageDeprecation`. -/
def lockableFormats : List Text :=
  ["apk".toList, "apt".toList, "conan".toList, "conda".toList, "conda-native".toList,
    "rpm".toList, "github".toList, "gitlab".toList]

def lockReasons : List Text :=
  ["hold".toList, "prohibited".toList, "expired".toList, "trojan".toList, "abuse".toList,
    "dmca".toList, "reup".toList, "squatting".toList, "quality".toList, "custom".toList]

def custom : Text := "custom".toList

def normalizeResourceLockTarget (target : LockTarget) : Except NativeError LockTarget := do
  let format := texts.normalize target.format
  let repository := texts.normalize target.repository
  let name := trimSpace target.name
  refuse (repository = [] ∨ byteLength repository > 255 ∨ name = [] ∨ byteLength name > 8192) .invalid
  refuse (format ∉ lockableFormats) .invalid
  refuse (byteLength target.version > 255 ∨ target.version.any lockTexts.isControl = true ∨
    trimSpace target.version ≠ target.version) .invalid
  return ⟨format, repository, name, target.version⟩

def counted (text : Text) : Text := (toString (byteLength text)).toList ++ ':' :: text

def resourceLockID (target : LockTarget) : Text :=
  lockTexts.packageDeprecationID target.format target.repository
    (counted target.name ++ counted target.version)

/-- `NormalizeSuperTeamText` of the reason. -/
def normalizeReason (text : Text) (allowEmpty : Bool) : Except NativeError Text := do
  let text := trimSpace text
  refuse (allowEmpty = false ∧ text = []) .invalid
  refuse (text.length > 256 ∨ text.any lockTexts.isControl = true) .invalid
  return text

/-- `SetResourceLock`, where `permitted` is what `authorizeResourceLockTx` finds -/
def setResourceLock (locks : List ResourceLock) (lock : LockRequest) (permitted : Bool) :
    Except NativeError (List ResourceLock) := do
  refuse (lock.lockedAt ≤ 0 ∨ lock.reason ∉ lockReasons) .invalid
  refuse (lock.mode ≠ "write".toList ∧ lock.mode ≠ "read".toList) .invalid
  refuse (lock.source ≠ "manual".toList ∧ lock.source ≠ "system".toList) .invalid
  let reasonText ← normalizeReason lockTexts lock.reasonText (decide (lock.reason ≠ custom))
  refuse (lock.reason ≠ custom ∧ reasonText ≠ []) .invalid
  let target ← normalizeResourceLockTarget texts lockTexts lock.target
  refuse (permitted = false) .permission
  let id := resourceLockID lockTexts target
  let others := locks.filter fun l => !decide (l.id = id ∧ l.source = lock.source)
  return ⟨id, lock.source,
    lockTexts.packageDeprecationID target.format target.repository target.name, target.format,
    target.repository, target.name, target.version, lock.mode, lock.reason, reasonText,
    lock.lockedAt⟩ :: others

def storedFormat (t : Tables) (repository name : Text) : Text :=
  ((t.resources.load (texts.nativeID repository name)).map (·.format)).getD []

/-- `DeleteNativeResource` with its last statement, of which the error is ignored. -/
def State.deleteNativeResource (s : State) (repository name actor : Text) (pending : Bool) :
    Except NativeError State := do
  let format := storedFormat texts s.tables repository name
  let tables ← Native.deleteNativeResource texts env s.tables repository name actor pending
  let locks :=
    if format = [] then s.locks
    else
      (deleteLocks [(.format, format), (.repository, repository), (.name, name)] s.locks).getD
        s.locks
  return ⟨tables, locks⟩

def ResourceLock.Of (l : ResourceLock) (format repository name : Text) : Prop :=
  l.format = format ∧ l.repository = repository ∧ l.resourceName = name

instance (l : ResourceLock) (format repository name : Text) :
    Decidable (l.Of format repository name) :=
  inferInstanceAs (Decidable (_ ∧ _ ∧ _))

structure Gone (id format repository name : Text) (s : State) : Prop where
  resource : s.tables.resources.load id = none
  artifacts : ∀ path a, s.tables.artifacts.load path = some a → a.resourceID ≠ id
  members : ∀ user, s.tables.members.load (id, user) = none
  locks : ∀ l ∈ s.locks, ¬l.Of format repository name

structure OthersKept (id format repository name : Text) (s t : State) : Prop where
  resources : ∀ id', id' ≠ id → t.tables.resources.load id' = s.tables.resources.load id'
  artifacts : ∀ path a, a.resourceID ≠ id →
    (t.tables.artifacts.load path = some a ↔ s.tables.artifacts.load path = some a)
  members : ∀ id' user, id' ≠ id →
    t.tables.members.load (id', user) = s.tables.members.load (id', user)
  locks : ∀ l, ¬l.Of format repository name → (l ∈ t.locks ↔ l ∈ s.locks)

variable {texts lockTexts env} {s t : State} {repository name actor : Text} {pending : Bool}

theorem State.deleteNativeResource_ok
    (h : s.deleteNativeResource texts env repository name actor pending = .ok t) :
    Native.deleteNativeResource texts env s.tables repository name actor pending = .ok t.tables ∧
      t.locks = s.locks := by
  obtain ⟨tables, htables, hreturn⟩ := bind_ok h
  cases hreturn
  refine ⟨htables, ?_⟩
  -- the table has no column `name`
  have hfails : ∀ format, deleteLocks
      [(.format, format), (.repository, repository), (.name, name)] s.locks = none := by
    intro format
    simp [deleteLocks, lockColumns]
  dsimp only
  split_ifs
  · rfl
  · rw [hfails, Option.getD_none]

theorem Tables.gone (h : Native.deleteNativeResource texts env s.tables repository name actor
      pending = .ok t.tables) (format : Text)
    (hlocks : ∀ l ∈ t.locks, ¬l.Of format repository name) :
    Gone (texts.nativeID repository name) format repository name t := by
  obtain ⟨-, -, htables⟩ := deleteNativeResource_ok h
  constructor
  · rw [htables]
    exact GoMap.load_delete_self _ _
  · intro path a hload
    rw [htables, GoMap.load_deleteWhere, Option.filter_eq_some_iff] at hload
    simpa using hload.2
  · intro user
    rw [htables, GoMap.load_deleteWhere]
    cases s.tables.members.load (texts.nativeID repository name, user) with
    | none => rfl
    | some level => simp [Option.filter]
  · exact hlocks

theorem Tables.othersKept (h : Native.deleteNativeResource texts env s.tables repository name actor
      pending = .ok t.tables) (hlocks : t.locks = s.locks) (format : Text) :
    OthersKept (texts.nativeID repository name) format repository name s t := by
  obtain ⟨-, -, htables⟩ := deleteNativeResource_ok h
  constructor
  · intro id hne
    rw [htables]
    exact GoMap.load_delete_ne _ hne
  · intro path a hother
    rw [htables, GoMap.load_deleteWhere, Option.filter_eq_some_iff]
    simp [hother]
  · intro id user hne
    rw [htables]
    refine GoMap.load_deleteWhere_of_false _ ?_
    intro level
    simp [hne]
  · intro l _
    rw [hlocks]

/-- A deletion that is carried out leaves nothing of the resource, and every other row, exactly
where no lock names the resource before. -/
theorem native_deletion_complete_iff (texts : Texts) (env : Accounts) {s t : State}
    {repository name actor : Text} {pending : Bool}
    (h : s.deleteNativeResource texts env repository name actor pending = .ok t) :
    Gone (texts.nativeID repository name) (storedFormat texts s.tables repository name) repository
        name t ∧
      OthersKept (texts.nativeID repository name) (storedFormat texts s.tables repository name)
        repository name s t ↔
    ∀ l ∈ s.locks, ¬l.Of (storedFormat texts s.tables repository name) repository name := by
  obtain ⟨htables, hlocks⟩ := State.deleteNativeResource_ok h
  constructor
  · rintro ⟨hgone, -⟩
    rw [← hlocks]
    exact hgone.locks
  · intro hfree
    rw [← hlocks] at hfree
    exact ⟨Tables.gone htables _ hfree, Tables.othersKept htables hlocks _⟩

def aptTexts : Texts := { plainTexts with managedProtocol := some }

def plainLockTexts : LockTexts := ⟨fun c => decide (c.toNat < 32), fun f r n => f ++ r ++ n⟩

def resourceWithLocks (requests : List LockRequest) : Except NativeError State := do
  let tables ← createNativeResource aptTexts oneAccount .empty ['r'] "apt".toList ['n'] ['u'] 1
  let locks ← requests.foldlM (fun locks request =>
    setResourceLock aptTexts plainLockTexts locks request true) []
  return ⟨tables, locks⟩

def lockRequest : LockRequest :=
  ⟨⟨"apt".toList, ['r'], ['n'], []⟩, "manual".toList, "write".toList, "hold".toList, [], 5⟩

def sampleState (requests : List LockRequest) : State :=
  (resourceWithLocks requests).toOption.getD ⟨.empty, []⟩

def deletedSample (requests : List LockRequest) : Except NativeError State :=
  (sampleState requests).deleteNativeResource aptTexts oneAccount ['r'] ['n'] ['u'] false

theorem unlocked_resource_gone : ∃ t, deletedSample [] = .ok t ∧
    Gone (aptTexts.nativeID ['r'] ['n']) "apt".toList ['r'] ['n'] t := by
  have hformat : storedFormat aptTexts (sampleState []).tables ['r'] ['n'] = "apt".toList := by
    decide +kernel
  have hdone : (deletedSample []).toOption.isSome = true := by decide +kernel
  cases hdelete : deletedSample [] with
  | error e => simp [hdelete, Except.toOption] at hdone
  | ok t =>
    have hiff := native_deletion_complete_iff aptTexts oneAccount hdelete
    rw [hformat] at hiff
    exact ⟨t, rfl, (hiff.mpr (by decide +kernel)).1⟩

/-- The lock stays for whoever creates the name again. -/
theorem lock_outlives_resource : ∃ t, deletedSample [lockRequest] = .ok t ∧
    storedFormat aptTexts (sampleState [lockRequest]).tables ['r'] ['n'] = "apt".toList ∧
      ∃ l ∈ t.locks, l.Of "apt".toList ['r'] ['n'] := by
  have hdone : ((deletedSample [lockRequest]).toOption.any fun t =>
      t.locks.any fun l => decide (l.Of "apt".toList ['r'] ['n'])) = true := by decide +kernel
  cases hdelete : deletedSample [lockRequest] with
  | error e => simp [hdelete, Except.toOption] at hdone
  | ok t =>
    refine ⟨t, rfl, by decide +kernel, ?_⟩
    simpa [hdelete, Except.toOption] using hdone

end RenoP.Native
