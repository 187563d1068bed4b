import RenoP.Accounts.EmailAddress
import RenoP.Accounts.LoginMethods
import Mathlib.Data.Char
import Mathlib.Data.List.Lex
import Mathlib.Data.List.Sort

/-!
# Primary addresses

The tables `user_account_security`, `user_email_addresses` and `user_primary_email_history` with
the transactions of `primary_email.go`, `account_emails.go` and `account_security.go` of
`internal/database` that change the addresses of an account.
-/

namespace RenoP.Accounts

open RenoP.Database (Text)
open Fallible (refuse bind_ok refuse_ok refuse_bind_ok)

inductive EmailError where
  | emailInvalid
  | emailCodeInvalid
  | emailAlreadyExists
  | emailVerificationRequired
  | accountEmailLimit
  | accountDeleted
  | primaryEmail
  | securityHold
  | recoveryCodesInvalid
  | uniqueConstraint
  deriving DecidableEq

structure EmailSecurityRow extends AccountSecurityRow where
  email : Text
  deriving DecidableEq

structure AddressRow where
  userID : Text
  retained : Bool
  deriving DecidableEq

structure EmailTables where
  security : GoMap Text EmailSecurityRow
  addresses : GoMap Text AddressRow
  /-- `user_primary_email_history`: `expires_at` -/
  history : GoMap (Text × Text) ℤ
  deriving DecidableEq

def EmailTables.empty : EmailTables := ⟨∅, ∅, ∅⟩

def maxAccountEmails : ℕ := 128

def primaryEmailRecoveryPeriod : ℤ := 14 * 24 * 60 * 60 * 1000

structure ProviderEmail where
  email : Text
  verified : Bool
  deriving DecidableEq

/-- `SELECT COALESCE(email, '') FROM user_account_security WHERE user_id = ?` -/
def EmailTables.primaryEmail (t : EmailTables) (userID : Text) : Text :=
  ((t.security.load userID).map (·.email)).getD []

/-- The account's history has the address with a later `expires_at`. -/
def EmailTables.protects (t : EmailTables) (userID email : Text) (now : ℤ) : Bool :=
  (t.history.load (userID, email)).any fun expiresAt => decide (now < expiresAt)

def EmailTables.owner (t : EmailTables) (email : Text) : Text :=
  ((t.addresses.load email).map (·.userID)).getD []

def EmailTables.securityRow (t : EmailTables) (userID : Text) (now : ℤ) : EmailSecurityRow :=
  (t.security.load userID).getD ⟨⟨true, now⟩, []⟩

/-- The unique index on `user_account_security.email` has the address for another account. -/
def EmailTables.primaryTaken (t : EmailTables) (userID email : Text) : Bool :=
  t.security.entries.any fun e => decide (e.1 ≠ userID) && decide (e.2.email = email)

def EmailTables.deleteAddresses (t : EmailTables) (p : Text → AddressRow → Bool) : EmailTables :=
  { t with addresses := t.addresses.deleteWhere p }

def addProof (uni : Unicode) (verified : GoMap Text Bool) (proof : ProviderEmail) :
    Except EmailError (GoMap Text Bool) :=
  match normalizeEmail uni proof.email with
  | none | some [] => .error .emailCodeInvalid
  | some email => .ok (verified.store email ((verified.load email).getD false || proof.verified))

def verifiedEmails (uni : Unicode) (proofs : List ProviderEmail) : Except EmailError (GoMap Text Bool) :=
  proofs.foldlM (addProof uni) ∅

def EmailTables.checkAddress (t : EmailTables) (userID email : Text) (verified : Bool) :
    Except EmailError Unit := do
  refuse (t.owner email ≠ [] ∧ t.owner email ≠ userID) .emailAlreadyExists
  refuse (verified = false ∧ t.owner email ≠ userID) .emailVerificationRequired

def EmailTables.retains (t : EmailTables) (email : Text) : Bool :=
  (t.addresses.load email).any (·.retained)

def EmailTables.storeAddresses (t : EmailTables) (userID : Text) (retained : Bool)
    (values promote : List Text) : EmailTables :=
  let inserted := t.addresses.storeAll (values.map fun email => (email, ⟨userID, retained⟩))
  { t with
    addresses := inserted.updateWhere
      (fun email row => decide (row.userID = userID) && decide (email ∈ promote))
      fun _ row => { row with retained := true } }

/-- `reserveAccountEmailsTx`: the tables, and whether they changed -/
def reserveAccountEmails (uni : Unicode) (t : EmailTables) (userID : Text)
    (proofs : List ProviderEmail) (retained : Bool) : Except EmailError (EmailTables × Bool) :=
  if proofs = [] then .ok (t, false)
  else do
    refuse (maxAccountEmails < proofs.length) .accountEmailLimit
    let verified ← verifiedEmails uni proofs
    let emails := verified.keys.insertionSort (· ≤ ·)
    emails.foldlM (fun _ email =>
      t.checkAddress userID email ((verified.load email).getD false)) ()
    let values := emails.filter fun email => decide (t.owner email = [])
    let promote := emails.filter fun email =>
      decide (t.owner email ≠ []) && retained && !t.retains email
    refuse (maxAccountEmails <
      t.addresses.count (fun _ row => decide (row.userID = userID)) + values.length)
      .accountEmailLimit
    -- the primary key
    refuse (∃ email ∈ values, t.addresses.has email = true) .emailAlreadyExists
    return (t.storeAddresses userID retained values promote,
      decide (values ≠ [] ∨ promote ≠ []))

def rememberPrimaryEmail (t : EmailTables) (userID next : Text) (now : ℤ) :
    Except EmailError EmailTables :=
  if now ≤ 0 then .error .emailCodeInvalid
  else
    let previous := t.primaryEmail userID
    if previous = [] ∨ previous = next then .ok t
    else
      let history := t.history.deleteWhere fun k expiresAt =>
        decide (k.1 = userID) && (decide (k.2 = previous) || decide (expiresAt ≤ now))
      .ok { t with history := history.store (userID, previous) (now + primaryEmailRecoveryPeriod) }

def EmailTables.dropUnprotected (t : EmailTables) (userID email : Text) (now : ℤ) : EmailTables :=
  t.deleteAddresses fun address row => decide (row.userID = userID) && !row.retained &&
    decide (address ≠ email) && !t.protects userID address now

def reservePrimary (uni : Unicode) (t : EmailTables) (userID email : Text) :
    Except EmailError EmailTables :=
  if email = [] then .ok t
  else (reserveAccountEmails uni t userID [⟨email, true⟩] false).map Prod.fst

def updateAccountEmailTx (uni : Unicode) (t : EmailTables) (userID email : Text) (updatedAt : ℤ) :
    Except EmailError EmailTables := do
  let remembered ← rememberPrimaryEmail t userID email updatedAt
  let reserved ← reservePrimary uni (remembered.dropUnprotected userID email updatedAt) userID email
  let row := reserved.securityRow userID updatedAt
  refuse (email ≠ [] ∧ reserved.primaryTaken userID email = true) .emailAlreadyExists
  return { reserved with
    security := reserved.security.store userID
      { row with email := email, updatedAt := laterUpdate row.updatedAt updatedAt } }

def lockAccount (deletedAt : ℤ) : Except EmailError Unit := refuse (0 < deletedAt) .accountDeleted

def updateAccountEmail (uni : Unicode) (t : EmailTables) (deletedAt : ℤ) (userID email : Text)
    (updatedAt : ℤ) : Except EmailError EmailTables :=
  match normalizeEmail uni email with
  | none => .error .emailInvalid
  | some email => do
    lockAccount deletedAt
    updateAccountEmailTx uni t userID email updatedAt

def deleteAccountEmailAlias (uni : Unicode) (t : EmailTables) (account : Except EmailError Text)
    (email : Text) (now : ℤ) : Except EmailError EmailTables :=
  match normalizeEmail uni email with
  | none => .error .emailCodeInvalid
  | some email => do
    refuse (email = [] ∨ now ≤ 0) .emailCodeInvalid
    let userID ← account
    refuse (email = t.primaryEmail userID) .primaryEmail
    refuse (t.protects userID email now = true) .securityHold
    let deleted := t.deleteAddresses fun address row =>
      decide (row.userID = userID) && decide (address = email)
    let row := deleted.securityRow userID now
    return { deleted with
      security := deleted.security.store userID
        { row with updatedAt := laterUpdate row.updatedAt now } }

/-- `recoveryPrimaryEmailTx`: whether to restore the address, and the current one -/
def recoveryPrimaryEmail (uni : Unicode) (t : EmailTables) (userID identifier : Text) (now : ℤ) :
    Except EmailError (Bool × Text) :=
  match normalizeEmail uni identifier with
  | none | some [] => .error .recoveryCodesInvalid
  | some email =>
    match t.addresses.load email with
    | none => .error .recoveryCodesInvalid
    | some address =>
      match t.security.load address.userID with
      | none => .error .recoveryCodesInvalid
      | some security =>
        if address.userID ≠ userID then .error .recoveryCodesInvalid
        else if security.email = email then .ok (false, security.email)
        else if t.protects userID email now = false then .error .recoveryCodesInvalid
        else .ok (true, security.email)

def restorePrimaryEmail (uni : Unicode) (t : EmailTables) (userID previous replaced : Text) :
    Except EmailError EmailTables := do
  let previous := (normalizeEmail uni previous).getD []
  refuse (t.primaryTaken userID previous = true) .uniqueConstraint
  return {
    security := t.security.updateWhere (fun user _ => decide (user = userID))
      fun _ row => { row with email := previous }
    addresses := (t.addresses.deleteWhere fun address row =>
      decide (replaced ≠ []) && decide (previous.map uni.fold ≠ replaced.map uni.fold) &&
        decide (row.userID = userID) && decide (address = replaced)).deleteWhere fun address row =>
      decide (row.userID = userID) && !row.retained && decide (address ≠ previous)
    history := t.history.deleteWhere fun k _ => decide (k.1 = userID) }

/-- What `ResetPasswordWithRecoveryCodes` does with the addresses. -/
def recoverPrimaryEmail (uni : Unicode) (t : EmailTables) (deletedAt : ℤ)
    (userID identifier : Text) (updatedAt : ℤ) : Except EmailError EmailTables := do
  lockAccount deletedAt
  let found ← recoveryPrimaryEmail uni t userID identifier updatedAt
  if found.1 = true then restorePrimaryEmail uni t userID identifier found.2 else return t

def releaseExpiredPrimaryEmails (t : EmailTables) (deletedAt : ℤ) (userID : Text) (now : ℤ) :
    Except EmailError EmailTables := do
  lockAccount deletedAt
  let released := t.deleteAddresses fun address row =>
    decide (row.userID = userID) && !row.retained && decide (address ≠ t.primaryEmail userID) &&
      (t.history.load (userID, address)).any fun expiresAt => decide (expiresAt ≤ now)
  return { released with
    history := released.history.deleteWhere fun k expiresAt =>
      decide (k.1 = userID) && decide (expiresAt ≤ now) }

inductive EmailCall where
  | updateAccountEmail (userID email : Text)
  | reserveAccountEmails (userID : Text) (proofs : List ProviderEmail) (retained : Bool)
  | deleteAccountEmailAlias (account : Except EmailError Text) (email : Text)
  | releaseExpiredPrimaryEmails (userID : Text)
  | recoverPrimaryEmail (userID identifier : Text)

/-- A call with its clock and the `deleted_at` of the account it locks. -/
structure TimedCall where
  call : EmailCall
  now : ℤ
  deletedAt : ℤ

def TimedCall.apply (uni : Unicode) (t : EmailTables) (c : TimedCall) : Except EmailError EmailTables :=
  match c.call with
  | .updateAccountEmail userID email => Accounts.updateAccountEmail uni t c.deletedAt userID email c.now
  | .reserveAccountEmails userID proofs retained => do
    lockAccount c.deletedAt
    let reserved ← Accounts.reserveAccountEmails uni t userID proofs retained
    return reserved.1
  | .deleteAccountEmailAlias account email => Accounts.deleteAccountEmailAlias uni t account email c.now
  | .releaseExpiredPrimaryEmails userID =>
    Accounts.releaseExpiredPrimaryEmails t c.deletedAt userID c.now
  | .recoverPrimaryEmail userID identifier =>
    Accounts.recoverPrimaryEmail uni t c.deletedAt userID identifier c.now

structure EmailState where
  tables : EmailTables
  clock : ℤ

def EmailState.next (uni : Unicode) (s : EmailState) (c : TimedCall) : EmailState :=
  match c.apply uni s.tables with
  | .error _ => ⟨s.tables, c.now⟩
  | .ok tables => ⟨tables, c.now⟩

end RenoP.Accounts
