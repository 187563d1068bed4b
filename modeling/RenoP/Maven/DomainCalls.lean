import RenoP.Maven.Domains

/-!
# What the domain calls do

What each call of `maven.go` on domains finds and writes when it succeeds.
-/

namespace RenoP.Maven

open RenoP.Database (Text)
open Fallible (refuse bind_ok refuse_bind_ok)

variable {env : Outside} {t t' : Tables}

theorem lockMavenDomainRow_ok {domain : Text} {r : MavenDomain}
    (h : lockMavenDomainRow t domain = .ok r) : t.domains.load domain = some r := by
  unfold lockMavenDomainRow at h
  split at h
  · cases h
  · rename_i hload
    cases h
    exact hload

theorem lockMavenDomain_ok {domain : Text} {r : MavenDomain}
    (h : lockMavenDomain env t domain = .ok r) :
    t.domains.load domain = some r ∧ locked env t domain = false := by
  obtain ⟨r', hrow, h⟩ := bind_ok h
  obtain ⟨hlocked, h⟩ := refuse_bind_ok h
  cases h
  exact ⟨lockMavenDomainRow_ok hrow, Bool.eq_false_iff.mpr hlocked⟩

theorem createMavenDomain_ok {d : NewDomain} {owner : Text}
    (h : createMavenDomain env t d owner = .ok t') :
    checkReservation (t.domains.load d.domain) d.createdAt = .ok () ∧ d.domain ≠ [] ∧
      t' = { claimBase t d with
        domains := t.domains.store d.domain (d.row (t.replaces d))
        members := (claimBase t d).members.store (d.domain, owner) permissionOwner } := by
  obtain ⟨-, h⟩ := refuse_bind_ok h
  obtain ⟨hnames, h⟩ := refuse_bind_ok h
  obtain ⟨-, h⟩ := refuse_bind_ok h
  obtain ⟨-, h⟩ := refuse_bind_ok h
  obtain ⟨-, h⟩ := refuse_bind_ok h
  obtain ⟨-, h⟩ := refuse_bind_ok h
  obtain ⟨-, h⟩ := refuse_bind_ok h
  obtain ⟨-, h⟩ := refuse_bind_ok h
  obtain ⟨u, hreserved, h⟩ := bind_ok h
  obtain ⟨-, h⟩ := refuse_bind_ok h
  obtain ⟨-, h⟩ := refuse_bind_ok h
  cases h
  have hdomains : (claimBase t d).domains = t.domains := by
    unfold claimBase
    split_ifs
    · rfl
    · rfl
  rw [hdomains]
  exact ⟨hreserved, (not_or.mp hnames).1, rfl⟩

theorem markMavenDomainVerified_ok {domain code : Text} {verifiedAt : ℤ}
    {health : Option MavenDomainHealth}
    (h : markMavenDomainVerified env t domain code verifiedAt health = .ok t') :
    ∃ r r', t.domains.load domain = some r ∧ locked env t domain = false ∧
      r.verificationCode = code ∧ r.verified = false ∧ r.closedAt = 0 ∧
      r.markVerified verifiedAt = .ok r' ∧
      t' = { t with domains := t.domains.store domain (r'.setHealth health) } := by
  obtain ⟨-, h⟩ := refuse_bind_ok h
  obtain ⟨r, hlock, h⟩ := bind_ok h
  obtain ⟨-, h⟩ := refuse_bind_ok h
  obtain ⟨hcode, h⟩ := refuse_bind_ok h
  obtain ⟨hclosed, h⟩ := refuse_bind_ok h
  obtain ⟨-, h⟩ := refuse_bind_ok h
  obtain ⟨r', hmark, h⟩ := bind_ok h
  cases h
  obtain ⟨hload, hlocked⟩ := lockMavenDomain_ok hlock
  obtain ⟨hcode, hunverified⟩ := not_or.mp hcode
  exact ⟨r, r', hload, hlocked, not_not.mp hcode, Bool.eq_false_iff.mpr hunverified,
    not_not.mp hclosed, hmark, rfl⟩

theorem reviewMavenDomainClaim_ok {expected : Expected} {health : Option MavenDomainHealth}
    {actor : Text} {approved : Bool} {reviewedAt : ℤ}
    (h : reviewMavenDomainClaim env t expected health actor approved reviewedAt = .ok t') :
    ∃ r, t.domains.load expected.domain = some r ∧ locked env t expected.domain = false ∧
      r.closedAt = 0 ∧ r.claimStatus = .pending ∧
      (approved = true → approvable expected health = true) ∧
      r.verificationCode = expected.row.verificationCode ∧ r.createdAt = expected.row.createdAt ∧
      t' = { t with
        domains := t.domains.store expected.domain (r.decideClaim health approved reviewedAt) } := by
  obtain ⟨-, h⟩ := refuse_bind_ok h
  obtain ⟨-, h⟩ := refuse_bind_ok h
  obtain ⟨-, h⟩ := refuse_bind_ok h
  obtain ⟨-, h⟩ := refuse_bind_ok h
  obtain ⟨r, hlock, h⟩ := bind_ok h
  obtain ⟨-, h⟩ := refuse_bind_ok h
  obtain ⟨hstatus, h⟩ := refuse_bind_ok h
  obtain ⟨hevidence, h⟩ := refuse_bind_ok h
  obtain ⟨hsame, h⟩ := refuse_bind_ok h
  cases h
  obtain ⟨hload, hlocked⟩ := lockMavenDomain_ok hlock
  obtain ⟨hclosed, hpending⟩ := not_or.mp hstatus
  obtain ⟨hcode, hcreated⟩ := not_or.mp hsame
  refine ⟨r, hload, hlocked, not_not.mp hclosed, not_not.mp hpending, ?_, not_not.mp hcode,
    not_not.mp hcreated, rfl⟩
  intro happroved
  exact Bool.not_eq_false _ |>.mp fun hnone => hevidence ⟨happroved, hnone⟩

theorem closeMavenDomain_ok {domain actor : Text} {administrator : Bool} {closedAt : ℤ}
    (h : closeMavenDomain env t domain actor administrator closedAt = .ok t') :
    ∃ r, t.domains.load domain = some r ∧ locked env t domain = false ∧ 0 < closedAt ∧
      r.closedAt = 0 ∧
      t' = { cancelDomainInvitations t domain with
        domains := t.domains.store domain (r.close closedAt) } := by
  obtain ⟨hargs, h⟩ := refuse_bind_ok h
  obtain ⟨r, hlock, h⟩ := bind_ok h
  obtain ⟨u, -, h⟩ := bind_ok h
  obtain ⟨-, h⟩ := refuse_bind_ok h
  obtain ⟨hopen, h⟩ := refuse_bind_ok h
  obtain ⟨-, h⟩ := refuse_bind_ok h
  cases h
  obtain ⟨hload, hlocked⟩ := lockMavenDomain_ok hlock
  have hpos : 0 < closedAt := by
    apply Int.not_le.mp
    intro hle
    exact hargs (Or.inr (Or.inr (Or.inl hle)))
  exact ⟨r, hload, hlocked, hpos, not_not.mp hopen, rfl⟩

theorem forceDeleteMavenDomain_ok {domain actor : Text}
    (h : forceDeleteMavenDomain env t domain actor = .ok t') :
    t' = { cancelDomainInvitations t domain with
      members := t.members.deleteWhere fun k _ => decide (k.1 = domain)
      domains := t.domains.delete domain } := by
  obtain ⟨-, h⟩ := refuse_bind_ok h
  obtain ⟨r, -, h⟩ := bind_ok h
  obtain ⟨-, h⟩ := refuse_bind_ok h
  obtain ⟨-, h⟩ := refuse_bind_ok h
  cases h
  rfl

theorem recordMavenDomainHealth_ok {expected : Expected} {health : MavenDomainHealth} {releaseAt : ℤ}
    {code : Text} (h : recordMavenDomainHealth t expected health releaseAt code = .ok t') :
    0 < health.checkedAt ∧ (t' = t ∨ ∃ r, t.domains.load expected.domain = some r ∧
      unchanged expected r = true ∧
      t' = { t with
        domains := t.domains.store expected.domain (recordedRow expected health releaseAt code r) }) := by
  obtain ⟨htimes, h⟩ := refuse_bind_ok h
  obtain ⟨-, h⟩ := refuse_bind_ok h
  obtain ⟨-, h⟩ := refuse_bind_ok h
  refine ⟨Int.not_le.mp (not_or.mp htimes).1, ?_⟩
  split at h
  · cases h
    exact Or.inl rfl
  · rename_i r hload
    split_ifs at h with hsame
    · cases h
      exact Or.inr ⟨r, hload, (Bool.and_eq_true _ _ ▸ hsame).1, rfl⟩
    · cases h
      exact Or.inl rfl

theorem redeemMavenDomain_ok {expected : Expected} {health : MavenDomainHealth}
    {actor session : Text} (h : redeemMavenDomain env t expected health actor session = .ok t') :
    ∃ r, t.domains.load expected.domain = some r ∧ env.session actor session = true ∧
      requireMavenMemberPermission env t expected.domain actor permissionOwner = .ok () ∧
      unchanged expected r = true ∧
      t' = { t with domains := t.domains.store expected.domain (r.redeem health) } := by
  obtain ⟨-, h⟩ := refuse_bind_ok h
  obtain ⟨-, h⟩ := refuse_bind_ok h
  obtain ⟨hsession, h⟩ := refuse_bind_ok h
  obtain ⟨r, hrow, h⟩ := bind_ok h
  obtain ⟨u, hpermission, h⟩ := bind_ok h
  obtain ⟨-, h⟩ := refuse_bind_ok h
  obtain ⟨hsame, h⟩ := refuse_bind_ok h
  cases h
  exact ⟨r, lockMavenDomainRow_ok hrow, Bool.not_eq_false _ |>.mp hsession, hpermission,
    Bool.not_eq_false _ |>.mp (not_or.mp hsame).1, rfl⟩

theorem ensureMirroredMavenDomain_ok {domain : Text} {createdAt : ℤ}
    (h : ensureMirroredMavenDomain t domain createdAt = .ok t') :
    t' = t ∨ (t.domains.load domain = none ∧
      t' = { t with domains := t.domains.store domain (mirroredRow domain createdAt) }) := by
  obtain ⟨-, h⟩ := refuse_bind_ok h
  split_ifs at h with hhas
  · cases h
    exact Or.inl rfl
  · cases h
    exact Or.inr ⟨(GoMap.has_eq_false _ _).mp (Bool.eq_false_iff.mpr hhas), rfl⟩

theorem ensureImportedMavenDomain_ok {d : NewDomain}
    (h : ensureImportedMavenDomain t d = .ok t') :
    t' = t ∨ (t.domains.load d.domain = none ∧
        t' = { t with domains := t.domains.store d.domain d.importedRow }) ∨
      ∃ r, t.domains.load d.domain = some r ∧ r.importable = true ∧
        t' = { t with domains := t.domains.store d.domain (r.importOver d) } := by
  obtain ⟨-, h⟩ := refuse_bind_ok h
  split at h
  · rename_i r hload
    split_ifs at h with himport
    · cases h
      exact Or.inr (Or.inr ⟨r, hload, himport, rfl⟩)
    · cases h
      exact Or.inl rfl
  · rename_i hload
    cases h
    exact Or.inr (Or.inl ⟨hload, rfl⟩)

end RenoP.Maven
