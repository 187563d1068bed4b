import RenoP.Maven.Domains

/-!
# Login methods

The password, the linked identities, the passkeys and the second factors of one account, in
`account_security.go`, `mfa.go`, `oauth.go`, `github.go`, `fido.go` and `password_change.go` of
`internal/database`. A call is one transaction under the lock of the account's login methods.
Names are trimmed, sanitized and folded, and the account has a profile.
-/

namespace RenoP.Accounts

open RenoP.Database (Text)
open RenoP.Maven (byteLength)
open Fallible (refuse)

inductive LoginError where
  | userProfileNotFound
  | accountDeleted
  | securityHold
  | lastLoginMethod
  | passwordNotConfigured
  | passwordHashInvalid
  | mfaInvalid
  | mfaRequired
  | emailCodeInvalid
  | recoveryCodesInvalid
  | registrationInvalid
  | emailAlreadyExists
  | emailVerificationRequired
  | accountEmailLimit
  | oauthIdentityNotFound
  | oauthIdentityLinked
  | gitHubIdentityNotFound
  | gitHubIdentityLinked
  | gitHubPayloadInvalid
  | gitHubPrincipalInvalid
  | saveFidoDevice
  deriving DecidableEq

structure AccountSecurityRow where
  passwordLoginEnabled : Bool
  updatedAt : ℤ
  deriving DecidableEq

structure MFARow where
  secret : Text
  revision : Text
  passkeyEnabled : Bool
  lastStep : ℤ
  windowStart : ℤ
  failures : ℕ
  deriving DecidableEq

def MFARow.absent : MFARow := ⟨[], [], false, 0, 0, 0⟩

/-- `core.OAuthIdentity`, apart from its addresses -/
structure OAuthIdentity where
  providerID : Text
  authority : Text
  subject : Text
  login : Text
  namespaces : List Text
  deriving DecidableEq

structure OAuthIdentityRow where
  identityHash : Text
  identity : OAuthIdentity
  authorizedAt : ℤ
  deriving DecidableEq

structure GitHubIdentityRow where
  gitHubUserID : ℤ
  gitHubLogin : Text
  authorizedAt : ℤ
  deriving DecidableEq

structure Account where
  userID : Text
  username : Text
  encryptedSecret : Text
  security : Option AccountSecurityRow
  mfa : Option MFARow
  /-- by provider, of which a user has one identity -/
  oauthIdentities : GoMap Text OAuthIdentityRow
  gitHubIdentity : Option GitHubIdentityRow
  fidoDevices : GoMap Text Text
  deriving DecidableEq

/-- What a transaction reads of other tables and of the clock of the process. -/
structure Outside where
  existing : Bool
  deletedAt : ℤ
  bannedAt : ℤ
  bannedUntil : ℤ
  expiresAt : Option ℤ
  /-- the latest `expires_at` in `user_primary_email_history` -/
  holdUntil : ℤ
  time : ℤ
  sessions : List Text
  /-- The identity, or the passkey's identifier, is stored for another account. -/
  taken : Bool
  emailsValid : Bool
  reserveAccountEmails : Except LoginError Bool
  /-- the codes that prove the owner of an account -/
  proof : Option LoginError

structure SnapshotInput where
  userID : Text
  password : Text
  passwordEnabled : Bool
  updatedAt : ℤ
  gitHubID : Option ℤ
  revision : Text
  bannedAt : ℤ
  bannedUntil : ℤ
  expiresAt : ℤ
  deriving DecidableEq

structure Digests where
  snapshot : SnapshotInput → Text
  key : OAuthIdentity → Text

/-- `COALESCE(security.password_login_enabled, 1)` -/
def passwordEnabled (a : Account) : Bool :=
  match a.security with
  | none => true
  | some row => row.passwordLoginEnabled

/-- `CASE WHEN updated_at >= now THEN updated_at + 1 ELSE now END` -/
def laterUpdate (updatedAt now : ℤ) : ℤ := if now ≤ updatedAt then updatedAt + 1 else now

def ensureAccountSecurity (a : Account) (updatedAt : ℤ) : AccountSecurityRow :=
  a.security.getD ⟨true, updatedAt⟩

def touchAccountSecurity (a : Account) (now : ℤ) : Account :=
  let row := ensureAccountSecurity a now
  { a with security := some { row with updatedAt := laterUpdate row.updatedAt now } }

def storePasswordLogin (a : Account) (enabled : Bool) (now : ℤ) : Account :=
  { a with
    security := some ⟨enabled, laterUpdate (ensureAccountSecurity a now).updatedAt now⟩ }

def userIDForExistingAccount (o : Outside) : Except LoginError Unit :=
  refuse (o.existing = false) .userProfileNotFound

def lockAccountLoginMethods (o : Outside) : Except LoginError Unit :=
  refuse (0 < o.deletedAt) .accountDeleted

def securityHold (o : Outside) : Except LoginError Unit :=
  refuse (o.time < o.holdUntil) .securityHold

def passkeySecondFactor (a : Account) : Bool :=
  match a.mfa with
  | none => false
  | some row => row.passkeyEnabled

def hasOAuthLogin (a : Account) (excludedProvider : Text) : Bool :=
  a.oauthIdentities.keys.any fun provider => decide (provider ≠ excludedProvider)

def hasPasswordLogin (a : Account) : Bool :=
  passwordEnabled a && decide (a.encryptedSecret ≠ [])

def hasFido (a : Account) : Bool := decide (0 < a.fidoDevices.size)

def hasFidoWithout (a : Account) (excludedDeviceID : Text) : Bool :=
  a.fidoDevices.keys.any fun device => decide (device ≠ excludedDeviceID)

def hasExternalLogin (a : Account) : Bool :=
  hasOAuthLogin a [] || (hasFido a && !passkeySecondFactor a) || a.gitHubIdentity.isSome

def hasLoginWithoutFido (a : Account) (excludedDeviceID : Text) : Bool :=
  if passkeySecondFactor a then hasFidoWithout a excludedDeviceID
  else hasOAuthLogin a [] || hasPasswordLogin a || a.gitHubIdentity.isSome ||
    hasFidoWithout a excludedDeviceID

def hasLoginWithoutGitHub (a : Account) : Bool :=
  hasOAuthLogin a [] || hasPasswordLogin a || (hasFido a && !passkeySecondFactor a)

def hasPrimaryWithoutFido (a : Account) : Bool :=
  hasOAuthLogin a [] || hasPasswordLogin a || a.gitHubIdentity.isSome

def setPasswordLoginEnabled (a : Account) (o : Outside) (enabled : Bool) (updatedAt : ℤ) :
    Except LoginError Account := do
  userIDForExistingAccount o
  lockAccountLoginMethods o
  refuse (enabled = true ∧ a.encryptedSecret = []) .passwordNotConfigured
  refuse (enabled = false ∧ hasExternalLogin a = false) .lastLoginMethod
  return storePasswordLogin a enabled updatedAt

def invalidPasswordHash (passwordHash : Text) : Prop :=
  passwordHash = [] ∨ 255 < byteLength passwordHash

instance (passwordHash : Text) : Decidable (invalidPasswordHash passwordHash) :=
  inferInstanceAs (Decidable (_ ∨ _))

def resetAccountPassword (a : Account) (passwordHash : Text) (updatedAt : ℤ) : Account :=
  storePasswordLogin { a with encryptedSecret := passwordHash } true updatedAt

def setAccountPassword (a : Account) (o : Outside) (passwordHash : Text) (updatedAt : ℤ) :
    Except LoginError Account := do
  refuse (invalidPasswordHash passwordHash) .passwordHashInvalid
  userIDForExistingAccount o
  lockAccountLoginMethods o
  return resetAccountPassword a passwordHash updatedAt

def resetPasswordWithEmailCode (a : Account) (o : Outside) (passwordHash : Text) (updatedAt : ℤ) :
    Except LoginError Account := do
  refuse (invalidPasswordHash passwordHash ∨ updatedAt ≤ 0) .emailCodeInvalid
  o.proof.elim (.ok ()) .error
  return resetAccountPassword a passwordHash updatedAt

/-- `ResetPasswordWithRecoveryCodes`, which also removes the second factors -/
def resetPasswordWithRecoveryCodes (a : Account) (o : Outside) (passwordHash : Text)
    (updatedAt : ℤ) : Except LoginError Account := do
  refuse (invalidPasswordHash passwordHash ∨ updatedAt ≤ 0) .recoveryCodesInvalid
  lockAccountLoginMethods o
  o.proof.elim (.ok ()) .error
  return { resetAccountPassword a passwordHash updatedAt with mfa := none }

structure MFAState extends MFARow where
  snapshot : Text
  passwordHash : Text
  gitHubID : ℤ
  passwordLoginEnabled : Bool

def MFAState.enabled (m : MFAState) : Bool := m.passkeyEnabled || decide (m.secret ≠ [])

def mfaStateQuery (d : Digests) (a : Account) (o : Outside) : Except LoginError MFAState := do
  lockAccountLoginMethods o
  let row := a.mfa.getD .absent
  let gitHubID := a.gitHubIdentity.map (·.gitHubUserID)
  return {
    toMFARow := row
    snapshot := d.snapshot {
      userID := a.userID
      password := a.encryptedSecret
      passwordEnabled := passwordEnabled a
      updatedAt := (a.security.map (·.updatedAt)).getD 0
      gitHubID := gitHubID
      revision := row.revision
      bannedAt := o.bannedAt
      bannedUntil := o.bannedUntil
      expiresAt := o.expiresAt.getD 0 }
    passwordHash := a.encryptedSecret
    gitHubID := gitHubID.getD 0
    passwordLoginEnabled := passwordEnabled a }

/-- `UpdateMFA`, with the revision that `id.New` draws -/
def updateMFA (d : Digests) (a : Account) (o : Outside) (snapshot secret : Text) (passkey : Bool)
    (lastStep : ℤ) (keepSession revision : Text) : Except LoginError Account := do
  refuse (1024 < byteLength secret ∨ byteLength snapshot ≠ 64) .mfaInvalid
  lockAccountLoginMethods o
  let current ← mfaStateQuery d a o
  securityHold o
  refuse (current.snapshot ≠ snapshot) .mfaInvalid
  refuse (o.sessions.count keepSession ≠ 1) .mfaInvalid
  refuse (passkey = true ∧ (hasFido a = false ∨ hasPrimaryWithoutFido a = false)) .lastLoginMethod
  return { a with mfa := some ⟨secret, revision, passkey, lastStep, 0, 0⟩ }

def maxFailures : ℕ := 5

def failureWindow : ℤ := 300000

def MFARow.rolled (m : MFARow) (now : ℤ) : MFARow :=
  if failureWindow ≤ now - m.windowStart then { m with windowStart := now, failures := 0 } else m

def MFARow.accepts (m : MFARow) (step : ℤ) : Bool := decide (m.lastStep < step ∧ 0 ≤ step)

/-- `consumeMFACodeTx`: the row that it writes, and whether the code is valid -/
def consumeMFACodeTx (m : MFARow) (revision : Text) (step now : ℤ) :
    Except LoginError (MFARow × Bool) := do
  refuse (m.secret = [] ∨ m.revision ≠ revision) .mfaInvalid
  let m := m.rolled now
  refuse (maxFailures ≤ m.failures) .mfaInvalid
  if m.accepts step then return ({ m with lastStep := step }, true)
  else return ({ m with failures := m.failures + 1 }, false)

def storeCounters (a : Account) (m : MFARow) : Account :=
  { a with mfa := a.mfa.map fun row =>
      { row with lastStep := m.lastStep, failures := m.failures, windowStart := m.windowStart } }

/-- `ConsumeMFACode`: the account, and whether the code is valid -/
def consumeMFACode (d : Digests) (a : Account) (o : Outside) (revision : Text) (step now : ℤ) :
    Except LoginError (Account × Bool) := do
  lockAccountLoginMethods o
  let state ← mfaStateQuery d a o
  let (m, valid) ← consumeMFACodeTx state.toMFARow revision step now
  return (storeCounters a m, valid)

def accountEmailSession (d : Digests) (a : Account) (o : Outside) (session : Text) :
    Except LoginError MFAState := do
  refuse (session = []) .emailCodeInvalid
  lockAccountLoginMethods o
  refuse (¬(o.sessions.count session = 1 ∧ o.deletedAt = 0 ∧
    (∀ expiresAt ∈ o.expiresAt, o.time < expiresAt) ∧
    (o.bannedAt = 0 ∨ (0 < o.bannedUntil ∧ o.bannedUntil ≤ o.time)))) .emailCodeInvalid
  mfaStateQuery d a o

/-- `PasswordChange.Factor`, with what each factor reads -/
inductive PasswordFactor where
  | unneeded
  | totp (step : ℤ)
  | passkey (credentialID : Text)
  | email
  | unknown

def validSelectorHash (value : Text) : Bool :=
  decide (value.length = 64) &&
    value.all fun c => decide (('0' ≤ c ∧ c ≤ '9') ∨ ('a' ≤ c ∧ c ≤ 'f'))

/-- `ChangeAccountPassword`: the account, and whether the factor is valid -/
def changeAccountPassword (d : Digests) (a : Account) (o : Outside) (passwordHash session : Text)
    (snapshot : Text) (factor : PasswordFactor) (now : ℤ) :
    Except LoginError (Account × Bool) := do
  refuse (invalidPasswordHash passwordHash ∨ session = [] ∨ validSelectorHash snapshot = false ∨
    now ≤ 0) .mfaInvalid
  let current ← accountEmailSession d a o session
  refuse (current.snapshot ≠ snapshot) .mfaInvalid
  match factor with
  | .unneeded =>
    refuse (current.enabled = true) .mfaRequired
    return (resetAccountPassword a passwordHash now, true)
  | .totp step =>
    let (m, valid) ← consumeMFACodeTx current.toMFARow current.revision step now
    if valid then return (resetAccountPassword (storeCounters a m) passwordHash now, true)
    else return (storeCounters a m, false)
  | .passkey credentialID =>
    refuse (current.passkeyEnabled = false ∨ credentialID = []) .mfaInvalid
    refuse (a.fidoDevices.count (fun _ credential => decide (credential = credentialID)) ≠ 1)
      .mfaInvalid
    return (resetAccountPassword a passwordHash now, true)
  | .email =>
    o.proof.elim (.ok ()) .error
    return (resetAccountPassword a passwordHash now, true)
  | .unknown => .error .mfaInvalid

/-- `OAuthIdentity.Valid`; an authority is hexadecimal. -/
def OAuthIdentity.valid (i : OAuthIdentity) (emailsValid : Bool) : Bool :=
  decide (i.providerID ≠ []) && decide (i.providerID ≠ "github".toList) &&
    decide (byteLength i.providerID ≤ 32) && decide (byteLength i.authority = 64) &&
    decide (i.subject ≠ []) && decide (byteLength i.subject ≤ 255) &&
    decide (byteLength i.login ≤ 255) &&
    (i.subject ++ i.login).all (fun c => decide (c ∉ ['\x00', '\r', '\n'])) &&
    i.providerID.all (fun r => decide (('a' ≤ r ∧ r ≤ 'z') ∨ ('0' ≤ r ∧ r ≤ '9') ∨ r = '-' ∨ r = '_')) &&
    decide (i.namespaces.length ≤ 1001) && emailsValid &&
    i.namespaces.all (fun n => decide (n ≠ []) && decide (byteLength n ≤ 63) &&
      n.all fun c => decide (c ∉ ['\x00', '\r', '\n', '/', '.'])) &&
    i.authority.all fun c => decide (('0' ≤ c ∧ c ≤ '9') ∨ ('a' ≤ c ∧ c ≤ 'f') ∨ ('A' ≤ c ∧ c ≤ 'F'))

def ownsKey (a : Account) (key : Text) : Bool :=
  a.oauthIdentities.entries.any fun e => decide (e.2.identityHash = key)

def refreshOAuthIdentityRow (d : Digests) (a : Account) (identity : OAuthIdentity) (now : ℤ) :
    Account :=
  { a with
    oauthIdentities := a.oauthIdentities.updateWhere
      (fun _ row => decide (row.identityHash = d.key identity)) fun _ row =>
        { row with
          identity := { row.identity with login := identity.login, namespaces := identity.namespaces }
          authorizedAt := now } }

def maxOAuthIdentities : ℕ := 12

def storeOAuthIdentity (d : Digests) (a : Account) (o : Outside) (identity : OAuthIdentity)
    (now : ℤ) : Except LoginError Account := do
  refuse (identity.valid o.emailsValid = false ∨ a.userID = [] ∨ now ≤ 0) .registrationInvalid
  lockAccountLoginMethods o
  refuse (o.taken = true) .oauthIdentityLinked
  refuse (∃ row ∈ a.oauthIdentities.load identity.providerID,
    row.identityHash ≠ [] ∧ row.identityHash ≠ d.key identity) .oauthIdentityLinked
  let _ ← o.reserveAccountEmails
  if ownsKey a (d.key identity) then
    return refreshOAuthIdentityRow d (touchAccountSecurity a now) identity now
  else do
    refuse (maxOAuthIdentities ≤ a.oauthIdentities.size) .oauthIdentityLinked
    refuse (a.oauthIdentities.has identity.providerID = true) .oauthIdentityLinked
    return touchAccountSecurity { a with
      oauthIdentities :=
        a.oauthIdentities.store identity.providerID ⟨d.key identity, identity, now⟩ } now

def linkOAuthIdentity (d : Digests) (a : Account) (o : Outside) (session snapshot : Text)
    (identity : OAuthIdentity) (now : ℤ) : Except LoginError Account := do
  let current ← accountEmailSession d a o session
  refuse (snapshot = [] ∨ current.snapshot ≠ snapshot) .mfaInvalid
  storeOAuthIdentity d a o identity now

def touchIf (changed : Bool) (a : Account) (now : ℤ) : Account :=
  if changed then touchAccountSecurity a now else a

def refreshOAuthIdentity (d : Digests) (a : Account) (o : Outside) (identity : OAuthIdentity)
    (now : ℤ) : Except LoginError Account := do
  refuse (identity.valid o.emailsValid = false ∨ a.userID = [] ∨ now ≤ 0) .oauthIdentityNotFound
  lockAccountLoginMethods o
  refuse (ownsKey a (d.key identity) = false) .oauthIdentityNotFound
  let changed ← o.reserveAccountEmails
  return refreshOAuthIdentityRow d (touchIf changed a now) identity now

/-- The passkeys counted under a spelling of the name: those of the account are stored under its
folded name. -/
def fidoCount (a : Account) (username : Text) : ℕ :=
  if username = a.username then a.fidoDevices.size else 0

/-- `DeleteOAuthIdentity`; the count of the passkeys takes the name as it was given. -/
def deleteOAuthIdentity (d : Digests) (a : Account) (o : Outside) (username session provider : Text)
    (now : ℤ) : Except LoginError Account := do
  let account ← accountEmailSession d a o session
  refuse (a.oauthIdentities.has provider = false) .oauthIdentityNotFound
  refuse ((hasOAuthLogin a provider = false ∧ account.gitHubID = 0 ∧
      ¬(account.passwordHash ≠ [] ∧ account.passwordLoginEnabled = true)) ∧
    (account.passkeyEnabled = true ∨ fidoCount a username = 0)) .lastLoginMethod
  return touchAccountSecurity
    { a with oauthIdentities := a.oauthIdentities.delete provider } now

structure GitHubPrincipal where
  type : Text
  gitHubID : ℤ
  login : Text
  deriving DecidableEq

def GitHubPrincipal.valid (p : GitHubPrincipal) : Bool :=
  decide (p.type = "user".toList ∨ p.type = "organization".toList) && decide (0 < p.gitHubID) &&
    decide (p.login ≠ [])

def maxGitHubPrincipals : ℕ := 1001

structure GitHubAuthorization where
  gitHubUserID : ℤ
  gitHubLogin : Text
  principals : List GitHubPrincipal
  authorizedAt : ℤ

def storeGitHubIdentity (a : Account) (o : Outside) (g : GitHubAuthorization) :
    Except LoginError Account := do
  refuse (a.userID = [] ∨ g.gitHubUserID ≤ 0 ∨ g.gitHubLogin = [] ∨ g.authorizedAt ≤ 0 ∨
    g.principals = [] ∨ maxGitHubPrincipals < g.principals.length) .gitHubPayloadInvalid
  lockAccountLoginMethods o
  refuse (o.taken = true) .gitHubIdentityLinked
  refuse (∃ row ∈ a.gitHubIdentity, row.gitHubUserID ≠ g.gitHubUserID) .gitHubIdentityLinked
  let changed ← o.reserveAccountEmails
  refuse (g.principals.all GitHubPrincipal.valid = false) .gitHubPrincipalInvalid
  return { touchIf changed a g.authorizedAt with
    gitHubIdentity := some ⟨g.gitHubUserID, g.gitHubLogin, g.authorizedAt⟩ }

def linkGitHubIdentity (d : Digests) (a : Account) (o : Outside) (session snapshot : Text)
    (g : GitHubAuthorization) : Except LoginError Account := do
  let current ← accountEmailSession d a o session
  refuse (snapshot = [] ∨ current.snapshot ≠ snapshot) .mfaInvalid
  storeGitHubIdentity a o g

def refreshGitHubIdentity (a : Account) (o : Outside) (g : GitHubAuthorization) :
    Except LoginError Account := do
  lockAccountLoginMethods o
  refuse (¬∃ row ∈ a.gitHubIdentity, row.gitHubUserID = g.gitHubUserID) .gitHubIdentityNotFound
  storeGitHubIdentity a o g

def deleteGitHubIdentity (a : Account) (o : Outside) : Except LoginError Account := do
  refuse (a.gitHubIdentity = none) .gitHubIdentityNotFound
  lockAccountLoginMethods o
  refuse (hasLoginWithoutGitHub a = false) .lastLoginMethod
  return { a with gitHubIdentity := none }

def saveFidoDevice (a : Account) (o : Outside) (deviceID credentialID : Text) :
    Except LoginError Account :=
  if deviceID = [] then return a
  else do
    lockAccountLoginMethods o
    securityHold o
    refuse (o.taken = true ∨ a.fidoDevices.has deviceID = true) .saveFidoDevice
    return { a with fidoDevices := a.fidoDevices.store deviceID credentialID }

def deleteFidoDevice (a : Account) (o : Outside) (deviceID : Text) : Except LoginError Account :=
  if deviceID = [] then return a
  else do
    lockAccountLoginMethods o
    securityHold o
    if a.fidoDevices.has deviceID = false then return a
    else do
      refuse (hasLoginWithoutFido a deviceID = false) .lastLoginMethod
      return { a with fidoDevices := a.fidoDevices.delete deviceID }

inductive LoginCall where
  | setPasswordLoginEnabled (enabled : Bool) (updatedAt : ℤ)
  | setAccountPassword (passwordHash : Text) (updatedAt : ℤ)
  | resetPasswordWithEmailCode (passwordHash : Text) (updatedAt : ℤ)
  | resetPasswordWithRecoveryCodes (passwordHash : Text) (updatedAt : ℤ)
  | changeAccountPassword (passwordHash session snapshot : Text) (factor : PasswordFactor) (now : ℤ)
  | updateMFA (snapshot secret : Text) (passkey : Bool) (lastStep : ℤ) (keepSession revision : Text)
  | consumeMFACode (revision : Text) (step now : ℤ)
  | linkOAuthIdentity (session snapshot : Text) (identity : OAuthIdentity) (now : ℤ)
  | refreshOAuthIdentity (identity : OAuthIdentity) (now : ℤ)
  | deleteOAuthIdentity (username session provider : Text) (now : ℤ)
  | storeGitHubIdentity (authorization : GitHubAuthorization)
  | linkGitHubIdentity (session snapshot : Text) (authorization : GitHubAuthorization)
  | refreshGitHubIdentity (authorization : GitHubAuthorization)
  | deleteGitHubIdentity
  | saveFidoDevice (deviceID credentialID : Text)
  | deleteFidoDevice (deviceID : Text)

def withoutCode (result : Except LoginError Account) : Except LoginError (Account × Bool) :=
  result.map fun a => (a, true)

/-- The transaction of a call: the account that it commits, and whether a code that it takes is
valid. -/
def LoginCall.transaction (d : Digests) (a : Account) (o : Outside) :
    LoginCall → Except LoginError (Account × Bool)
  | .setPasswordLoginEnabled enabled updatedAt =>
    withoutCode (Accounts.setPasswordLoginEnabled a o enabled updatedAt)
  | .setAccountPassword passwordHash updatedAt =>
    withoutCode (Accounts.setAccountPassword a o passwordHash updatedAt)
  | .resetPasswordWithEmailCode passwordHash updatedAt =>
    withoutCode (Accounts.resetPasswordWithEmailCode a o passwordHash updatedAt)
  | .resetPasswordWithRecoveryCodes passwordHash updatedAt =>
    withoutCode (Accounts.resetPasswordWithRecoveryCodes a o passwordHash updatedAt)
  | .changeAccountPassword passwordHash session snapshot factor now =>
    Accounts.changeAccountPassword d a o passwordHash session snapshot factor now
  | .updateMFA snapshot secret passkey lastStep keepSession revision =>
    withoutCode (Accounts.updateMFA d a o snapshot secret passkey lastStep keepSession revision)
  | .consumeMFACode revision step now => Accounts.consumeMFACode d a o revision step now
  | .linkOAuthIdentity session snapshot identity now =>
    withoutCode (Accounts.linkOAuthIdentity d a o session snapshot identity now)
  | .refreshOAuthIdentity identity now =>
    withoutCode (Accounts.refreshOAuthIdentity d a o identity now)
  | .deleteOAuthIdentity username session provider now =>
    withoutCode (Accounts.deleteOAuthIdentity d a o username session provider now)
  | .storeGitHubIdentity authorization =>
    withoutCode (Accounts.storeGitHubIdentity a o authorization)
  | .linkGitHubIdentity session snapshot authorization =>
    withoutCode (Accounts.linkGitHubIdentity d a o session snapshot authorization)
  | .refreshGitHubIdentity authorization =>
    withoutCode (Accounts.refreshGitHubIdentity a o authorization)
  | .deleteGitHubIdentity => withoutCode (Accounts.deleteGitHubIdentity a o)
  | .saveFidoDevice deviceID credentialID =>
    withoutCode (Accounts.saveFidoDevice a o deviceID credentialID)
  | .deleteFidoDevice deviceID => withoutCode (Accounts.deleteFidoDevice a o deviceID)

structure Code where
  revision : Text
  step : ℤ
  now : ℤ
  deriving DecidableEq

def LoginCall.code (a : Account) : LoginCall → Option Code
  | .consumeMFACode revision step now => some ⟨revision, step, now⟩
  | .changeAccountPassword _ _ _ (.totp step) now =>
    some ⟨(a.mfa.getD .absent).revision, step, now⟩
  | _ => none

def LoginCall.drawn : LoginCall → Option Text
  | .updateMFA _ _ _ _ _ revision => some revision
  | _ => none

def settle (a : Account) : Except LoginError (Account × Bool) → Account × Option LoginError
  | .error err => (a, some err)
  | .ok (a', true) => (a', none)
  | .ok (a', false) => (a', some .mfaInvalid)

def LoginCall.run (d : Digests) (a : Account) (o : Outside) (call : LoginCall) :
    Account × Option LoginError :=
  settle a (call.transaction d a o)

end RenoP.Accounts
