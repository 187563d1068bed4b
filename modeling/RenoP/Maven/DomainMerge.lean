import RenoP.Lib.Grouping
import RenoP.Lib.StableSort
import RenoP.Maven.Domains
import Mathlib.Data.Char
import Mathlib.Data.List.Lex

/-!
# Merging repository-scoped Maven domains

`maven_global.go` of `internal/database`: what `migrateGlobalMavenDomains` writes for the domain,
member and invitation records that it has read. `sort.Slice` is stable here; the program may order
rows that compare equal as it likes.
-/

namespace RenoP.Maven

open RenoP.Database (Text)
open RenoP.Team (permissionRead)
open GoMap (RangeOrder)
open StableSort (sort)

structure DomainMigrationRecord where
  repository : Text
  domain : Text
  verificationType : Text
  verificationHost : Text
  verificationCode : Text
  verified : Bool
  createdAt : ℤ
  verifiedAt : ℤ
  lastCheckAt : ℤ

structure MemberMigrationRecord where
  domain : Text
  username : Text
  userID : Text
  level : ℤ
  addedAt : ℤ
  deriving DecidableEq

structure InvitationMigrationRecord where
  id : Text
  domain : Text
  inviter : Text
  recipient : Text
  level : ℤ
  createdAt : ℤ
  deriving DecidableEq

def globalMavenRepository : Text := []

def DomainMigrationRecord.before (a b : DomainMigrationRecord) : Bool :=
  if a.verified ≠ b.verified then a.verified
  else if a.createdAt ≠ b.createdAt then a.createdAt < b.createdAt
  else a.repository < b.repository

def DomainMigrationRecord.absorb (chosen candidate : DomainMigrationRecord) :
    DomainMigrationRecord :=
  { chosen with
    createdAt :=
      if candidate.createdAt > 0 ∧ (chosen.createdAt = 0 ∨ candidate.createdAt < chosen.createdAt)
      then candidate.createdAt else chosen.createdAt
    lastCheckAt := max chosen.lastCheckAt candidate.lastCheckAt }

def mergeCandidates (candidates : List DomainMigrationRecord) : Option DomainMigrationRecord :=
  match sort DomainMigrationRecord.before candidates with
  | [] => none
  | chosen :: rest => some (rest.foldl .absorb { chosen with repository := globalMavenRepository })

def mergeMavenDomainRecords (o : RangeOrder Text (List DomainMigrationRecord))
    (records : List DomainMigrationRecord) : List DomainMigrationRecord :=
  let grouped := GoMap.gather DomainMigrationRecord.domain
    (fun group record => group.getD [] ++ [record]) records
  sort (fun a b => a.domain < b.domain) ((o.pairs grouped).filterMap fun e => mergeCandidates e.2)

def MemberMigrationRecord.identityKey (record : MemberMigrationRecord) : Text :=
  if record.userID = [] then "username:".toList ++ record.username else record.userID

def keepMember (current : Option MemberMigrationRecord) (record : MemberMigrationRecord) :
    MemberMigrationRecord :=
  match current with
  | none => record
  | some current =>
    if record.level > current.level ∨
        (record.level = current.level ∧ record.addedAt < current.addedAt) then
      if current.addedAt > 0 ∧ (record.addedAt = 0 ∨ current.addedAt < record.addedAt) then
        { record with addedAt := current.addedAt }
      else record
    else current

def groupMember (members : Option (GoMap Text MemberMigrationRecord))
    (record : MemberMigrationRecord) : GoMap Text MemberMigrationRecord :=
  let members := members.getD ∅
  members.store record.identityKey (keepMember (members.load record.identityKey) record)

def clampLevel (level : ℤ) : ℤ := min (max level permissionRead) permissionOwner

def MemberMigrationRecord.before (a b : MemberMigrationRecord) : Bool :=
  if a.addedAt ≠ b.addedAt then a.addedAt < b.addedAt else a.username < b.username

def soleOwner : Bool → List MemberMigrationRecord → List MemberMigrationRecord
  | _, [] => []
  | found, m :: members =>
    if m.level = permissionOwner then
      if found then { m with level := permissionManage } :: soleOwner true members
      else m :: soleOwner true members
    else m :: soleOwner found members

/-- The loop over the members from `i` on that looks for a higher level than that of `owner`. -/
def strongestFrom (owner : ℕ) (level : ℤ) (i : ℕ) : List MemberMigrationRecord → ℕ
  | [] => owner
  | m :: members =>
    if m.level > level then strongestFrom i m.level (i + 1) members
    else strongestFrom owner level (i + 1) members

def strongest : List MemberMigrationRecord → ℕ
  | [] => 0
  | m :: members => strongestFrom 0 m.level 1 members

def settleOwner (members : List MemberMigrationRecord) : List MemberMigrationRecord :=
  if members.any fun m => m.level = permissionOwner then soleOwner false members
  else members.modify (strongest members) fun m => { m with level := permissionOwner }

def memberOf (domain : Text) (member : MemberMigrationRecord) : MemberMigrationRecord :=
  { member with domain := domain, level := clampLevel member.level }

def domainMembers (ids : RangeOrder Text MemberMigrationRecord) (domain : Text)
    (membersByID : GoMap Text MemberMigrationRecord) : List MemberMigrationRecord :=
  settleOwner (sort MemberMigrationRecord.before
    ((ids.pairs membersByID).map fun e => memberOf domain e.2))

def MemberMigrationRecord.listedBefore (a b : MemberMigrationRecord) : Bool :=
  if a.domain ≠ b.domain then a.domain < b.domain
  else if a.level ≠ b.level then a.level > b.level
  else a.username < b.username

def groupMembers (records : List MemberMigrationRecord) (domains : List DomainMigrationRecord) :
    GoMap Text (GoMap Text MemberMigrationRecord) :=
  GoMap.gather MemberMigrationRecord.domain groupMember
    (records.filter fun record => domains.any fun d => d.domain = record.domain)

def mergeMavenMemberRecords (o : RangeOrder Text (GoMap Text MemberMigrationRecord))
    (ids : RangeOrder Text MemberMigrationRecord) (records : List MemberMigrationRecord)
    (domains : List DomainMigrationRecord) : List MemberMigrationRecord :=
  sort MemberMigrationRecord.listedBefore
    ((o.pairs (groupMembers records domains)).flatMap fun e => domainMembers ids e.1 e.2)

def inviteKey (domain name : Text) : Text := domain ++ Char.ofNat 0 :: name

def InvitationMigrationRecord.clamped (record : InvitationMigrationRecord) :
    InvitationMigrationRecord :=
  { record with level := clampLevel record.level }

def selectInvitation (valid : Text → Bool) (member : Text → Bool)
    (state : GoMap Text InvitationMigrationRecord × List InvitationMigrationRecord)
    (record : InvitationMigrationRecord) :
    GoMap Text InvitationMigrationRecord × List InvitationMigrationRecord :=
  let (selected, cancelled) := state
  let key := inviteKey record.domain record.recipient
  if valid record.domain = false then (selected, cancelled ++ [record])
  else if member key then (selected, cancelled ++ [record])
  else
    match selected.load key with
    | none => (selected.store key record.clamped, cancelled)
    | some current =>
      if record.clamped.createdAt > current.createdAt then
        (selected.store key record.clamped, cancelled ++ [current])
      else (selected, cancelled ++ [record.clamped])

def InvitationMigrationRecord.listedBefore (a b : InvitationMigrationRecord) : Bool :=
  if a.domain ≠ b.domain then a.domain < b.domain else a.recipient < b.recipient

def mergeMavenInvitationRecords (o : RangeOrder Text InvitationMigrationRecord)
    (records : List InvitationMigrationRecord) (domains : List DomainMigrationRecord)
    (members : List MemberMigrationRecord) :
    List InvitationMigrationRecord × List InvitationMigrationRecord :=
  let (selected, cancelled) := records.foldl
    (selectInvitation (fun domain => domains.any fun d => d.domain = domain)
      fun key => members.any fun m => inviteKey m.domain m.username = key) (∅, [])
  (sort InvitationMigrationRecord.listedBefore ((o.pairs selected).map Prod.snd), cancelled)

structure MergeOrders where
  domains : RangeOrder Text (List DomainMigrationRecord)
  members : RangeOrder Text (GoMap Text MemberMigrationRecord)
  identities : RangeOrder Text MemberMigrationRecord
  invitations : RangeOrder Text InvitationMigrationRecord

structure MergedRecords where
  domains : List DomainMigrationRecord
  members : List MemberMigrationRecord
  invitations : List InvitationMigrationRecord
  cancelled : List InvitationMigrationRecord

def migrateGlobalMavenDomains (o : MergeOrders) (domains : List DomainMigrationRecord)
    (members : List MemberMigrationRecord) (invitations : List InvitationMigrationRecord) :
    MergedRecords :=
  let mergedDomains := mergeMavenDomainRecords o.domains domains
  let mergedMembers := mergeMavenMemberRecords o.members o.identities members mergedDomains
  let (kept, cancelled) :=
    mergeMavenInvitationRecords o.invitations invitations mergedDomains mergedMembers
  ⟨mergedDomains, mergedMembers, kept, cancelled⟩

end RenoP.Maven
