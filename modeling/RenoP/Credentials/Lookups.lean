import RenoP.Cache.TTLCache
import RenoP.Database.PublicationQuota

/-!
# API tokens

The statements of `internal/database/api_tokens.go`, `tokens.go` and `account_ban.go` on API tokens
and accounts, and the calls that make them. Names are folded, a user is the account name, and a
statement is one step.
-/

namespace RenoP.Credentials

open RenoP.Database (Text)
open RenoP.Cache.TTL

structure AccountBan where
  reason : Text
  reasonCode : Text
  createdAt : ℤ
  expiresAt : Option ℤ
  deriving DecidableEq

/-- A row of `tokens`; `data` are its other columns. -/
structure Account (A : Type) where
  ban : Option AccountBan
  deletedAt : ℤ
  data : A
  deriving DecidableEq

/-- A row of `user_api_tokens`; `details` are its scopes, targets and times. -/
structure APITokenRow (D : Type) where
  user : Text
  name : Text
  secretHash : Text
  disabled : Bool
  details : D
  deriving DecidableEq

structure Tables (D A : Type) where
  apiTokens : GoMap Text (APITokenRow D)
  accounts : GoMap Text (Account A)

structure Credential (D A : Type) where
  tokenID : Text
  tokenName : Text
  details : D
  accountName : Text
  account : Account A
  deriving DecidableEq

variable {D A : Type}

def maxAPITokensPerUser : ℕ := 50

/-- `sha256.Size * 2` hexadecimal digits in lower case. -/
def validAPITokenHash (hash : Text) : Bool :=
  decide (hash.length = 64) && hash.all fun c =>
    c.isDigit || decide (c ∈ ['a', 'b', 'c', 'd', 'e', 'f'])

def ownedToken (t : Tables D A) (user id : Text) : Option (APITokenRow D) :=
  (t.apiTokens.load id).filter fun row => decide (row.user = user)

def credentialOf (t : Tables D A) (id : Text) (row : APITokenRow D) : Option (Credential D A) :=
  (t.accounts.load row.user).map fun account => ⟨id, row.name, row.details, row.user, account⟩

/-- The query of `GetAPITokenByHash`. -/
def resolve (t : Tables D A) (hash user : Text) : Option (Credential D A) :=
  t.apiTokens.entries.findSome? fun e =>
    if e.2.secretHash = hash ∧ e.2.disabled = false ∧ (user = [] ∨ e.2.user = user) then
      credentialOf t e.1 e.2
    else none

/-- `UPDATE user_api_tokens … WHERE id = ? AND user_id = ?`; none where no row is affected. -/
def updateOwned (t : Tables D A) (user id : Text) (change : APITokenRow D → APITokenRow D) :
    Option (Tables D A) :=
  (ownedToken t user id).map fun row =>
    { t with apiTokens := t.apiTokens.store id (change row) }

def updateDisabled (t : Tables D A) (user id : Text) (disabled : Bool) : Option (Tables D A) :=
  updateOwned t user id fun row => { row with disabled := disabled }

def updateHash (t : Tables D A) (user id newSecretHash : Text) : Option (Tables D A) :=
  if t.apiTokens.entries.any fun e => decide (e.1 ≠ id) && decide (e.2.secretHash = newSecretHash)
  then none
  else updateOwned t user id fun row => { row with secretHash := newSecretHash }

def updateDetails (t : Tables D A) (user id name : Text) (details : D) : Option (Tables D A) :=
  if t.apiTokens.entries.any fun e =>
    decide (e.1 ≠ id) && decide (e.2.user = user) && decide (e.2.name = name) then none
  else updateOwned t user id fun row => { row with name := name, details := details }

def deleteRow (t : Tables D A) (user id : Text) : Option (Tables D A) :=
  (ownedToken t user id).map fun _ => { t with apiTokens := t.apiTokens.delete id }

def insertAPIToken (t : Tables D A) (id : Text) (row : APITokenRow D) : Option (Tables D A) :=
  if validAPITokenHash row.secretHash = false ∨ t.apiTokens.has id = true then none
  else if (t.accounts.load row.user).all (fun account => decide (0 < account.deletedAt)) then none
  else if maxAPITokensPerUser ≤ t.apiTokens.count fun _ r => decide (r.user = row.user) then none
  else if t.apiTokens.entries.any fun e => decide (e.2.secretHash = row.secretHash) ||
    decide (e.2.user = row.user) && decide (e.2.name = row.name) then none
  else some { t with apiTokens := t.apiTokens.store id { row with disabled := false } }

def liveAccount (t : Tables D A) (user : Text) : Option (Account A) :=
  (t.accounts.load user).filter fun account => decide (account.deletedAt ≤ 0)

def saveBan (t : Tables D A) (user : Text) (ban : Option AccountBan) : Option (Tables D A) :=
  (liveAccount t user).map fun account =>
    { t with accounts := t.accounts.store user { account with ban := ban } }

def saveData (t : Tables D A) (user : Text) (data : A) : Option (Tables D A) :=
  (liveAccount t user).map fun account =>
    { t with accounts := t.accounts.store user { account with data := data } }

def insertAccount (t : Tables D A) (user : Text) (data : A) : Option (Tables D A) :=
  if t.accounts.has user then none
  else some { t with accounts := t.accounts.store user ⟨none, 0, data⟩ }

/-- The account row after `deleteToken`: none, or the one that a retirement at a time leaves. -/
def leftAccount (accounts : GoMap Text (Account A)) (user : Text) (retired : Option (A × ℤ)) :
    GoMap Text (Account A) :=
  match retired with
  | none => accounts.delete user
  | some (data, actedAt) => accounts.store user ⟨none, actedAt, data⟩

/-- The transaction of `deleteToken`, which deletes an account or retires it. -/
def deleteAccount (t : Tables D A) (user : Text) (retired : Option (A × ℤ)) : Option (Tables D A) :=
  (liveAccount t user).map fun _ =>
    { apiTokens := t.apiTokens.deleteWhere fun _ row => decide (row.user = user)
      accounts := leftAccount t.accounts user retired }

end RenoP.Credentials

/-!
## Lookups and revocations

Callers that take their steps in any order: statements on the database and operations of the cache
of `GetAPITokenByHash`. The cache is that of `cache/ttl`, in memory.
-/

namespace RenoP.Credentials

open RenoP.Database (Text)
open RenoP.Cache.TTL

variable {D A : Type}

inductive Subject where
  | token (id : Text)
  | account (name : Text)
  deriving DecidableEq

def Subject.covers (subject : Subject) (c : Credential D A) : Bool :=
  match subject with
  | .token id => decide (c.tokenID = id)
  | .account name => decide (c.accountName = name)

structure Revocation where
  subject : Subject
  change : ℕ
  deriving DecidableEq

/-- A lookup that returned, with the revocations that had returned when it started and the tables
up to its end. -/
structure Lookup (D A : Type) where
  hash : Text
  user : Text
  credential : Credential D A
  before : List Revocation
  history : List (Tables D A)

section Given

variable [DecidableEq D] [DecidableEq A]

/-- The tables numbered from `change` on gave the credential at some time. -/
def given (history : List (Tables D A)) (change : ℕ) (hash user : Text) (c : Credential D A) :
    Bool :=
  (history.drop change).any fun t => decide (resolve t hash user = some c)

def current (history : List (Tables D A)) (revocations : List Revocation) (hash user : Text)
    (c : Credential D A) : Bool :=
  revocations.all fun r => !r.subject.covers c || given history r.change hash user c

end Given

inductive Call (D A : Type) where
  | getAPITokenByHash (hash user : Text)
  | setAPITokenDisabled (user id : Text) (disabled : Bool)
  | createAPIToken (id : Text) (row : APITokenRow D)
  | deleteAPIToken (user id : Text)
  | updateAPIToken (user id name : Text) (details : D)
  | rotateAPIToken (user id newSecretHash : Text)
  | setAccountBan (user : Text) (ban : Option AccountBan)
  | updateToken (user : Text) (data : A)
  | createToken (user : Text) (data : A)
  | deleteToken (user : Text) (retired : Option (A × ℤ))

inductive Pending (D A : Type) where
  | query (hash user : Text) (before : List Revocation)
  | store (hash user : Text) (credential : Credential D A) (before : List Revocation)
  | updateDisabled (user id : Text) (disabled : Bool)
  | updateDetails (user id name : Text) (details : D)
  | updateHash (user id newSecretHash : Text)
  | clear (revocation : Option Revocation)

inductive Event (D A : Type) where
  | start (caller : ℕ) (call : Call D A)
  | proceed (caller : ℕ)
  | evictExpired
  | tick (nanos : ℕ)

structure System (D A : Type) where
  tables : Tables D A
  cache : TTLCache Text (Credential D A)
  clock : ℤ
  pending : GoMap ℕ (Pending D A)
  history : List (Tables D A)
  finished : List Revocation
  returned : List (Lookup D A)

def System.new (tables : Tables D A) (clock : ℤ) : System D A where
  tables := tables
  cache := newTTLCache
  clock := clock
  pending := ∅
  history := [tables]
  finished := []
  returned := []

namespace System

variable (s : System D A) (caller : ℕ)

def wait (step : Pending D A) : System D A := { s with pending := s.pending.store caller step }

def done : System D A := { s with pending := s.pending.delete caller }

def commit (t : Tables D A) : System D A := { s with tables := t, history := s.history ++ [t] }

def finish (r : Revocation) : System D A := { s with finished := r :: s.finished }

def withCache (cache : TTLCache Text (Credential D A)) : System D A := { s with cache := cache }

def answer (hash user : Text) (c : Credential D A) (before : List Revocation) : System D A :=
  { s with returned := s.returned ++ [⟨hash, user, c, before, s.history⟩] }

def now (subject : Subject) : Revocation := ⟨subject, s.history.length - 1⟩

def next (subject : Subject) : Revocation := ⟨subject, s.history.length⟩

def change (result : Option (Tables D A)) (revocation : Option Revocation) : System D A :=
  match result with
  | none => s.done caller
  | some t => (s.commit t).wait caller (.clear revocation)

end System

variable (cfg : TTLConfig Text)

def cacheKey (hash user : Text) : Text := hash ++ ':' :: user

def apiTokenTTL : ℤ := 10 * 60 * 1000000000

/-- The start of `GetAPITokenByHash`; a hit is returned. -/
def startLookup (s : System D A) (caller : ℕ) (hash user : Text) : System D A :=
  if validAPITokenHash hash = false then s
  else match get cfg s.cache (cacheKey hash user) s.clock with
  | none => s
  | some (some c, cache) => (s.withCache cache).answer hash user c s.finished
  | some (none, cache) => (s.withCache cache).wait caller (.query hash user s.finished)

/-- The inspection that `SetAPITokenDisabled` starts with; a token in the wanted state is left. -/
def startDisable (s : System D A) (caller : ℕ) (user id : Text) (disabled : Bool) : System D A :=
  match ownedToken s.tables user id with
  | none => s
  | some row =>
    if row.disabled = disabled then
      if disabled then s.finish (s.now (.token id)) else s
    else s.wait caller (.updateDisabled user id disabled)

def startOwned (s : System D A) (caller : ℕ) (user id : Text) (step : Pending D A) : System D A :=
  match ownedToken s.tables user id with
  | none => s
  | some _ => s.wait caller step

/-- `deleteToken` leaves the cache of API tokens as it is. -/
def startDeletion (s : System D A) (user : Text) (retired : Option (A × ℤ)) : System D A :=
  match deleteAccount s.tables user retired with
  | none => s
  | some t => (s.commit t).finish (s.next (.account user))

def start (s : System D A) (caller : ℕ) : Call D A → System D A
  | .getAPITokenByHash hash user => startLookup cfg s caller hash user
  | .setAPITokenDisabled user id disabled => startDisable s caller user id disabled
  | .createAPIToken id row => s.change caller (insertAPIToken s.tables id row) none
  | .deleteAPIToken user id =>
    s.change caller (deleteRow s.tables user id) (some (s.next (.token id)))
  | .updateAPIToken user id name details =>
    startOwned s caller user id (.updateDetails user id name details)
  | .rotateAPIToken user id newSecretHash =>
    if validAPITokenHash newSecretHash = false then s
    else startOwned s caller user id (.updateHash user id newSecretHash)
  | .setAccountBan user ban =>
    s.change caller (saveBan s.tables user ban) (some (s.next (.account user)))
  | .updateToken user data => s.change caller (saveData s.tables user data) none
  | .createToken user data => s.change caller (insertAccount s.tables user data) none
  | .deleteToken user retired => startDeletion s user retired

def queryLookup (s : System D A) (caller : ℕ) (hash user : Text) (before : List Revocation) :
    System D A :=
  match resolve s.tables hash user with
  | none => s.done caller
  | some c => s.wait caller (.store hash user c before)

/-- `db.apiTokenCache.Set`, the end of a lookup that missed. -/
def storeLookup (s : System D A) (caller : ℕ) (hash user : Text) (c : Credential D A)
    (before : List Revocation) : System D A :=
  match set cfg s.cache (cacheKey hash user) c apiTokenTTL s.clock with
  | none => s
  | some (_, cache) => ((s.withCache cache).answer hash user c before).done caller

/-- `db.apiTokenCache.Clear`, the end of a call that changed a row. -/
def clearCache (s : System D A) (caller : ℕ) (revocation : Option Revocation) : System D A :=
  let s := (s.withCache (clear s.cache)).done caller
  match revocation with
  | none => s
  | some r => s.finish r

def proceed (s : System D A) (caller : ℕ) : System D A :=
  match s.pending.load caller with
  | none => s
  | some (.query hash user before) => queryLookup s caller hash user before
  | some (.store hash user c before) => storeLookup cfg s caller hash user c before
  | some (.updateDisabled user id disabled) =>
    s.change caller (updateDisabled s.tables user id disabled)
      (if disabled then some (s.next (.token id)) else none)
  | some (.updateDetails user id name details) =>
    s.change caller (updateDetails s.tables user id name details) none
  | some (.updateHash user id newSecretHash) =>
    s.change caller (updateHash s.tables user id newSecretHash) (some (s.next (.token id)))
  | some (.clear revocation) => clearCache s caller revocation

def step (s : System D A) : Event D A → System D A
  | .start caller call => if s.pending.has caller then s else start cfg s caller call
  | .proceed caller => proceed cfg s caller
  | .evictExpired =>
    match evictExpired s.cache s.clock with
    | none => s
    | some cache => s.withCache cache
  | .tick nanos => { s with clock := s.clock + nanos }

end RenoP.Credentials
