import RenoP.Maven.DomainCalls

/-!
# Reservations of Maven domains

The life of one domain row over closing, health locks, release and new claims.
-/

namespace RenoP.Maven

open RenoP.Database (Text)
open Fallible (refuse refuse_ok)

variable {env : Outside} {t t' : Tables} {domain : Text}

/-- The calls around a domain that is neither mirrored nor deleted by force; no claim names the
type of mirrored domains, which `VerificationTarget` does not give. -/
def DomainCall.Allowed (domain : Text) : DomainCall → Prop
  | .createMavenDomain d _ => d.domain = domain → d.verificationType ≠ .mirror
  | .ensureMirroredMavenDomain name _ | .forceDeleteMavenDomain name _ => name ≠ domain
  | _ => True

inductive RowChange (env : Outside) (t : Tables) (domain : Text) (r : MavenDomain) :
    DomainCall → MavenDomain → Prop
  | same (call : DomainCall) : RowChange env t domain r call r
  | claim (d : NewDomain) (owner : Text) (hdomain : d.domain = domain)
      (hreserved : checkReservation (some r) d.createdAt = .ok ()) :
      RowChange env t domain r (.createMavenDomain d owner) (d.row (r.releasedReservation d.createdAt))
  | mark (code : Text) (verifiedAt : ℤ) (health : Option MavenDomainHealth) (r' : MavenDomain)
      (hopen : r.closedAt = 0) (hmark : r.markVerified verifiedAt = .ok r')
      (hunverified : r.verified = false) :
      RowChange env t domain r (.markMavenDomainVerified domain code verifiedAt health)
        (r'.setHealth health)
  | review (expected : Expected) (health : Option MavenDomainHealth) (actor : Text) (approved : Bool)
      (reviewedAt : ℤ) (hdomain : expected.domain = domain) :
      RowChange env t domain r
        (.reviewMavenDomainClaim expected health actor approved reviewedAt)
        (r.decideClaim health approved reviewedAt)
  | imported (importedAt : ℤ) (himport : r.importable = true) :
      RowChange env t domain r (.importLegacyMavenPath domain importedAt)
        (r.importOver (legacyDomain domain importedAt))
  | close (actor : Text) (administrator : Bool) (closedAt : ℤ) (hpos : 0 < closedAt)
      (hunlocked : r.health.lockedAt ≤ 0) :
      RowChange env t domain r (.closeMavenDomain domain actor administrator closedAt)
        (r.close closedAt)
  | record (expected : Expected) (health : MavenDomainHealth) (releaseAt : ℤ) (code : Text)
      (hchecked : 0 < health.checkedAt) (hsame : unchanged expected r = true) :
      RowChange env t domain r (.recordMavenDomainHealth expected health releaseAt code)
        (recordedRow expected health releaseAt code r)
  | redeem (expected : Expected) (health : MavenDomainHealth) (actor session : Text)
      (hdomain : expected.domain = domain) (hsame : unchanged expected r = true)
      (hpermission : requireMavenMemberPermission env t domain actor permissionOwner = .ok ()) :
      RowChange env t domain r (.redeemMavenDomain expected health actor session) (r.redeem health)

theorem unlocked_health {r : MavenDomain} (hload : t.domains.load domain = some r)
    (h : locked env t domain = false) : r.health.lockedAt ≤ 0 := by
  unfold locked at h
  rw [hload, Bool.or_eq_false_iff] at h
  exact Int.not_lt.mp (of_decide_eq_false h.2)

theorem change_of_store {call : DomainCall} {name : Text} {r r₀ r' : MavenDomain}
    (hload : t.domains.load domain = some r)
    (hname : t.domains.load name = some r₀)
    (hchange : name = domain → RowChange env t domain r₀ call r') :
    ∃ r₁, (t.domains.store name r').load domain = some r₁ ∧ RowChange env t domain r call r₁ := by
  rw [GoMap.load_store]
  split_ifs with heq
  · rw [heq, hname] at hload
    cases hload
    exact ⟨r', rfl, hchange heq.symm⟩
  · exact ⟨r, hload, .same call⟩

theorem domainCall_row {call : DomainCall} (hallowed : call.Allowed domain)
    (hcall : domainCall env t call = .ok t') {r : MavenDomain}
    (hload : t.domains.load domain = some r) :
    ∃ r', t'.domains.load domain = some r' ∧ RowChange env t domain r call r' := by
  cases call with
  | createMavenDomain d owner =>
    obtain ⟨hreserved, -, rfl⟩ := createMavenDomain_ok hcall
    dsimp only
    rw [GoMap.load_store]
    split_ifs with heq
    · rw [← heq, hload] at hreserved
      have hreplaces : t.replaces d = r.releasedReservation d.createdAt := by
        unfold Tables.replaces
        rw [← heq, hload]
        rfl
      rw [hreplaces]
      exact ⟨_, rfl, .claim d owner heq.symm hreserved⟩
    · exact ⟨r, hload, .same _⟩
  | markMavenDomainVerified name code verifiedAt health =>
    obtain ⟨r₀, r', hname, -, -, hunverified, hopen, hmark, rfl⟩ := markMavenDomainVerified_ok hcall
    apply change_of_store hload hname
    rintro rfl
    exact .mark code verifiedAt health r' hopen hmark hunverified
  | reviewMavenDomainClaim expected health actor approved reviewedAt =>
    obtain ⟨r₀, hname, -, -, -, -, -, -, rfl⟩ := reviewMavenDomainClaim_ok hcall
    apply change_of_store hload hname
    exact .review expected health actor approved reviewedAt
  | ensureMirroredMavenDomain name createdAt =>
    rcases ensureMirroredMavenDomain_ok hcall with rfl | ⟨-, rfl⟩
    · exact ⟨r, hload, .same _⟩
    · exact ⟨r, (GoMap.load_store_ne _ _ (Ne.symm hallowed)).trans hload, .same _⟩
  | importLegacyMavenPath name importedAt =>
    rcases ensureImportedMavenDomain_ok hcall with rfl | ⟨hnone, rfl⟩ | ⟨r₀, hname, himport, rfl⟩
    · exact ⟨r, hload, .same _⟩
    · refine ⟨r, ?_, .same _⟩
      have hne : domain ≠ name := by
        intro heq
        rw [heq, show t.domains.load name = none from hnone] at hload
        cases hload
      exact (GoMap.load_store_ne _ _ hne).trans hload
    · apply change_of_store hload hname
      intro heq
      have hname : name = domain := heq
      rw [hname]
      exact .imported importedAt himport
  | closeMavenDomain name actor administrator closedAt =>
    obtain ⟨r₀, hname, hlocked, hpos, -, rfl⟩ := closeMavenDomain_ok hcall
    apply change_of_store hload hname
    rintro rfl
    exact .close actor administrator closedAt hpos (unlocked_health hname hlocked)
  | forceDeleteMavenDomain name actor =>
    cases forceDeleteMavenDomain_ok hcall
    refine ⟨r, ?_, .same _⟩
    rw [GoMap.load_delete, if_neg (Ne.symm hallowed)]
    exact hload
  | recordMavenDomainHealth expected health releaseAt code =>
    obtain ⟨hchecked, hcases⟩ := recordMavenDomainHealth_ok hcall
    rcases hcases with rfl | ⟨r₀, hname, hsame, rfl⟩
    · exact ⟨r, hload, .same _⟩
    · apply change_of_store hload hname
      intro _
      exact .record expected health releaseAt code hchecked hsame
  | redeemMavenDomain expected health actor session =>
    obtain ⟨r₀, hname, -, hpermission, hsame, rfl⟩ := redeemMavenDomain_ok hcall
    apply change_of_store hload hname
    intro heq
    rw [heq] at hpermission
    exact .redeem expected health actor session heq hsame hpermission

theorem domainCall_newRow {call : DomainCall} (hallowed : call.Allowed domain)
    (hcall : domainCall env t call = .ok t') (hload : t.domains.load domain = none)
    {r' : MavenDomain} (hload' : t'.domains.load domain = some r') :
    (∃ d owner, call = .createMavenDomain d owner ∧ d.domain = domain ∧ r' = d.row false) ∨
      ∃ importedAt, r' = (legacyDomain domain importedAt).importedRow := by
  have hstore : ∀ {name : Text} {r₀ r : MavenDomain}, t.domains.load name = some r₀ →
      ¬(t.domains.store name r).load domain = some r' := by
    intro name r₀ r hname hstored
    rw [GoMap.load_store] at hstored
    split_ifs at hstored with heq
    · rw [heq, hname] at hload
      cases hload
    · rw [hload] at hstored
      cases hstored
  cases call with
  | createMavenDomain d owner =>
    obtain ⟨-, -, rfl⟩ := createMavenDomain_ok hcall
    dsimp only at hload'
    rw [GoMap.load_store] at hload'
    split_ifs at hload' with heq
    · cases hload'
      refine Or.inl ⟨d, owner, rfl, heq.symm, ?_⟩
      unfold Tables.replaces
      rw [← heq, hload]
      rfl
    · rw [hload] at hload'
      cases hload'
  | markMavenDomainVerified name code verifiedAt health =>
    obtain ⟨r₀, r', hname, -, -, -, -, -, rfl⟩ := markMavenDomainVerified_ok hcall
    exact absurd hload' (hstore hname)
  | reviewMavenDomainClaim expected health actor approved reviewedAt =>
    obtain ⟨r₀, hname, -, -, -, -, -, -, rfl⟩ := reviewMavenDomainClaim_ok hcall
    exact absurd hload' (hstore hname)
  | ensureMirroredMavenDomain name createdAt =>
    rcases ensureMirroredMavenDomain_ok hcall with rfl | ⟨-, rfl⟩
    · rw [hload] at hload'
      cases hload'
    · dsimp only at hload'
      rw [GoMap.load_store_ne _ _ (Ne.symm hallowed), hload] at hload'
      cases hload'
  | importLegacyMavenPath name importedAt =>
    rcases ensureImportedMavenDomain_ok hcall with rfl | ⟨hnone, rfl⟩ | ⟨r₀, hname, himport, rfl⟩
    · rw [hload] at hload'
      cases hload'
    · dsimp only at hload'
      rw [GoMap.load_store] at hload'
      split_ifs at hload' with heq
      · cases hload'
        have hname : domain = name := heq
        rw [hname]
        exact Or.inr ⟨importedAt, rfl⟩
      · rw [hload] at hload'
        cases hload'
    · exact absurd hload' (hstore hname)
  | closeMavenDomain name actor administrator closedAt =>
    obtain ⟨r₀, hname, -, -, -, rfl⟩ := closeMavenDomain_ok hcall
    exact absurd hload' (hstore hname)
  | forceDeleteMavenDomain name actor =>
    cases forceDeleteMavenDomain_ok hcall
    dsimp only at hload'
    rw [GoMap.load_delete, if_neg (Ne.symm hallowed), hload] at hload'
    cases hload'
  | recordMavenDomainHealth expected health releaseAt code =>
    rcases (recordMavenDomainHealth_ok hcall).2 with rfl | ⟨r₀, hname, -, rfl⟩
    · rw [hload] at hload'
      cases hload'
    · exact absurd hload' (hstore hname)
  | redeemMavenDomain expected health actor session =>
    obtain ⟨r₀, hname, -, -, -, rfl⟩ := redeemMavenDomain_ok hcall
    exact absurd hload' (hstore hname)

structure Reserved (r : MavenDomain) : Prop where
  claimed : r.verificationType ≠ .mirror
  nonneg : 0 ≤ r.health.lockedAt
  apart : r.closedAt = 0 ∨ r.health.lockedAt = 0

theorem unchanged_iff {expected : Expected} {r : MavenDomain} :
    unchanged expected r = true ↔ r.verificationCode = expected.row.verificationCode ∧
      r.createdAt = expected.row.createdAt ∧ r.closedAt = 0 ∧
      r.health.lockedAt = expected.row.health.lockedAt ∧
      r.health.providerID = expected.row.health.providerID ∧
      r.health.providerType = expected.row.health.providerType := by
  unfold unchanged
  simp only [Bool.and_eq_true, decide_eq_true_eq, and_assoc]

theorem locks_unlocked {expected : Expected} {health : MavenDomainHealth}
    (h : locks expected health = true) : expected.row.health.lockedAt = 0 := by
  unfold locks at h
  simp only [Bool.and_eq_true, decide_eq_true_eq] at h
  exact h.1.1

theorem recordedRow_lock {expected : Expected} {health : MavenDomainHealth} {releaseAt : ℤ}
    {code : Text} {r : MavenDomain} (hsame : unchanged expected r = true) :
    ((recordedRow expected health releaseAt code r).health.lockedAt = r.health.lockedAt) ∨
      (r.health.lockedAt = 0 ∧
        (recordedRow expected health releaseAt code r).health.lockedAt = health.checkedAt) := by
  obtain ⟨-, -, -, hlocked, -⟩ := unchanged_iff.mp hsame
  rw [hlocked]
  unfold recordedRow
  dsimp only
  split_ifs with hlocks
  · exact Or.inr ⟨locks_unlocked hlocks, rfl⟩
  · exact Or.inl rfl

theorem reserved_row (d : NewDomain) (released : Bool) (h : d.verificationType ≠ .mirror) :
    Reserved (d.row released) :=
  ⟨h, Int.le_refl 0, Or.inl rfl⟩

theorem Reserved.keep {r r' : MavenDomain} (h : Reserved r)
    (htype : r'.verificationType = r.verificationType) (hclosed : r'.closedAt = r.closedAt)
    (hlocked : r'.health.lockedAt = r.health.lockedAt) : Reserved r' := by
  constructor
  · rw [htype]
    exact h.claimed
  · rw [hlocked]
    exact h.nonneg
  · rw [hclosed, hlocked]
    exact h.apart

theorem markVerified_columns {r r' : MavenDomain} {verifiedAt : ℤ}
    (h : r.markVerified verifiedAt = .ok r') :
    r'.verificationType = r.verificationType ∧ r'.closedAt = r.closedAt ∧ r'.health = r.health := by
  unfold MavenDomain.markVerified at h
  split at h
  · cases h
    exact ⟨rfl, rfl, rfl⟩
  · cases h
    exact ⟨rfl, rfl, rfl⟩
  · cases h
    exact ⟨rfl, rfl, rfl⟩
  · cases h

theorem setHealth_columns (r : MavenDomain) (health : Option MavenDomainHealth) :
    (r.setHealth health).verificationType = r.verificationType ∧
      (r.setHealth health).closedAt = r.closedAt ∧
      (r.setHealth health).health.lockedAt = r.health.lockedAt ∧
      (r.setHealth health).verified = r.verified ∧
      (r.setHealth health).claimStatus = r.claimStatus := by
  unfold MavenDomain.setHealth
  split
  · exact ⟨rfl, rfl, rfl, rfl, rfl⟩
  · exact ⟨rfl, rfl, rfl, rfl, rfl⟩

theorem decideClaim_columns (r : MavenDomain) (health : Option MavenDomainHealth) (approved : Bool)
    (reviewedAt : ℤ) :
    (r.decideClaim health approved reviewedAt).verificationType = r.verificationType ∧
      (r.decideClaim health approved reviewedAt).closedAt = r.closedAt ∧
      (r.decideClaim health approved reviewedAt).health.lockedAt = r.health.lockedAt := by
  unfold MavenDomain.decideClaim
  split
  · exact ⟨rfl, rfl, rfl⟩
  · exact ⟨rfl, rfl, rfl⟩

theorem Reserved.change {r r' : MavenDomain} {call : DomainCall} (h : Reserved r)
    (hallowed : call.Allowed domain) (hchange : RowChange env t domain r call r') : Reserved r' := by
  cases hchange with
  | same => exact h
  | claim d owner hdomain hreserved => exact reserved_row d _ (hallowed hdomain)
  | mark code verifiedAt health r₁ hopen hmark hunverified =>
    obtain ⟨htype, hclosed, hhealth⟩ := markVerified_columns hmark
    obtain ⟨htype', hclosed', hlocked', -⟩ := setHealth_columns r₁ health
    exact h.keep (htype'.trans htype) (hclosed'.trans hclosed) (hlocked'.trans (by rw [hhealth]))
  | review expected health actor approved reviewedAt hdomain =>
    obtain ⟨htype, hclosed, hlocked⟩ := decideClaim_columns r health approved reviewedAt
    exact h.keep htype hclosed hlocked
  | imported importedAt himport => exact ⟨nofun, h.nonneg, h.apart⟩
  | close actor administrator closedAt hpos hunlocked =>
    have hzero : r.health.lockedAt = 0 := Int.le_antisymm hunlocked h.nonneg
    exact ⟨h.claimed, h.nonneg, Or.inr hzero⟩
  | record expected health releaseAt code hchecked hsame =>
    have hopen := (unchanged_iff.mp hsame).2.2.1
    refine ⟨h.claimed, ?_, Or.inl hopen⟩
    rcases recordedRow_lock hsame with hkeep | ⟨-, hset⟩
    · rw [hkeep]
      exact h.nonneg
    · rw [hset]
      exact Int.le_of_lt hchecked
  | redeem expected health actor session hdomain hsame hpermission =>
    exact ⟨h.claimed, Int.le_refl 0, Or.inr rfl⟩

theorem Reserved.released {r : MavenDomain} {now : ℤ} (h : Reserved r)
    (hreserved : checkReservation (some r) now = .ok ()) : r.releasedReservation now = true := by
  unfold checkReservation at hreserved
  dsimp only at hreserved
  split_ifs at hreserved with hcases
  rw [Bool.or_eq_true] at hcases
  rcases hcases with hmirrored | hreleased
  · unfold MavenDomain.mirroredReservation at hmirrored
    simp only [Bool.and_eq_true, decide_eq_true_eq] at hmirrored
    exact absurd hmirrored.1.1.1 h.claimed
  · exact hreleased

theorem Reserved.release_le {r : MavenDomain} {now : ℤ} (h : Reserved r)
    (hreleased : r.releasedReservation now = true) :
    (r.closedAt ≠ 0 → r.releaseAt ≤ now) ∧ (r.health.lockedAt ≠ 0 → r.health.releaseAt ≤ now) := by
  unfold MavenDomain.releasedReservation at hreleased
  rw [Bool.or_eq_true, decide_eq_true_eq, decide_eq_true_eq] at hreleased
  have hapart := h.apart
  constructor
  · intro hclosed
    rcases hreleased with hrelease | hlock
    · exact hrelease.2.2
    · omega
  · intro hlocked
    rcases hreleased with hclose | hrelease
    · omega
    · exact hrelease.2.2

/-- The redemption that lifts the lock of a row: by an L4 member of the domain, with the code, the
time of creation and the time of the lock of the row. -/
def Redeems (env : Outside) (t : Tables) (domain : Text) (r : MavenDomain) (call : DomainCall) :
    Prop :=
  ∃ expected health actor session level,
    call = .redeemMavenDomain expected health actor session ∧ expected.domain = domain ∧
      expected.row.verificationCode = r.verificationCode ∧
      expected.row.createdAt = r.createdAt ∧
      expected.row.health.lockedAt = r.health.lockedAt ∧
      effectivePermission env t domain actor = .ok (level, true) ∧ permissionOwner ≤ level

theorem requireMavenMemberPermission_ok {user : Text} {required : ℤ}
    (h : requireMavenMemberPermission env t domain user required = .ok ()) :
    ∃ level, effectivePermission env t domain user = .ok (level, true) ∧ required ≤ level := by
  unfold requireMavenMemberPermission at h
  split at h
  · cases h
  · rename_i level member hlevel
    obtain ⟨hmember, hle⟩ := not_or.mp (refuse_ok h)
    refine ⟨level, ?_, Int.not_lt.mp hle⟩
    rw [hlevel, Bool.not_eq_false _ |>.mp hmember]

theorem Reserved.lock {r r' : MavenDomain} {call : DomainCall} (h : Reserved r)
    (hlocked : r.health.lockedAt ≠ 0) (hchange : RowChange env t domain r call r') :
    r'.health.lockedAt = r.health.lockedAt ∨ Redeems env t domain r call ∨
      ∃ d owner, call = .createMavenDomain d owner ∧ d.domain = domain ∧
        r.releasedReservation d.createdAt = true := by
  cases hchange with
  | same => exact Or.inl rfl
  | claim d owner hdomain hreserved =>
    exact Or.inr (Or.inr ⟨d, owner, rfl, hdomain, h.released hreserved⟩)
  | mark code verifiedAt health r₁ hopen hmark hunverified =>
    obtain ⟨-, -, hhealth⟩ := markVerified_columns hmark
    obtain ⟨-, -, hkeep, -⟩ := setHealth_columns r₁ health
    exact Or.inl (hkeep.trans (by rw [hhealth]))
  | review expected health actor approved reviewedAt hdomain =>
    exact Or.inl (decideClaim_columns r health approved reviewedAt).2.2
  | imported importedAt himport => exact Or.inl rfl
  | close actor administrator closedAt hpos hunlocked => exact Or.inl rfl
  | record expected health releaseAt code hchecked hsame =>
    rcases recordedRow_lock hsame with hkeep | ⟨hzero, -⟩
    · exact Or.inl hkeep
    · exact absurd hzero hlocked
  | redeem expected health actor session hdomain hsame hpermission =>
    obtain ⟨hcode, hcreated, -, hsince, -⟩ := unchanged_iff.mp hsame
    obtain ⟨level, hlevel, hle⟩ := requireMavenMemberPermission_ok hpermission
    exact Or.inr (Or.inl ⟨expected, health, actor, session, level, rfl, hdomain, hcode.symm,
      hcreated.symm, hsince.symm, hlevel, hle⟩)

structure Waiting (r : MavenDomain) : Prop where
  unverified : r.verified = false
  waits : r.claimStatus ≠ .empty ∨ r.closedAt ≠ 0

def Approves (domain : Text) : DomainCall → Prop
  | .reviewMavenDomainClaim expected _ _ approved _ => expected.domain = domain ∧ approved = true
  | _ => False

theorem waiting_row (d : NewDomain) : Waiting (d.row true) := by
  constructor
  · simp [NewDomain.row]
  · left
    cases hverified : d.verified <;> simp [NewDomain.row, hverified]

theorem Waiting.change {r r' : MavenDomain} {call : DomainCall} (h : Waiting r) (hr : Reserved r)
    (hnot : ¬Approves domain call) (hchange : RowChange env t domain r call r') : Waiting r' := by
  cases hchange with
  | same => exact h
  | claim d owner hdomain hreserved =>
    rw [hr.released hreserved]
    exact waiting_row d
  | mark code verifiedAt health r₁ hopen hmark hunverified =>
    obtain ⟨-, -, -, hverified, hclaim⟩ := setHealth_columns r₁ health
    have hwaits : r.claimStatus ≠ .empty := h.waits.resolve_right fun hclosed => hclosed hopen
    unfold MavenDomain.markVerified at hmark
    split at hmark
    · rename_i hempty
      exact absurd hempty hwaits
    · cases hmark
      exact ⟨hverified.trans h.unverified, Or.inl (by rw [hclaim]; exact nofun)⟩
    · cases hmark
      exact ⟨hverified.trans h.unverified, Or.inl (by rw [hclaim]; exact nofun)⟩
    · cases hmark
  | review expected health actor approved reviewedAt hdomain =>
    cases approved with
    | true => exact absurd ⟨hdomain, rfl⟩ hnot
    | false => exact ⟨rfl, Or.inl nofun⟩
  | imported importedAt himport =>
    unfold MavenDomain.importable at himport
    simp only [Bool.and_eq_true, decide_eq_true_eq] at himport
    rcases h.waits with hclaim | hclosed
    · exact absurd himport.2 hclaim
    · exact absurd himport.1.2 hclosed
  | close actor administrator closedAt hpos hunlocked =>
    exact ⟨rfl, Or.inr (Int.ne_of_gt hpos)⟩
  | record expected health releaseAt code hchecked hsame => exact ⟨h.unverified, h.waits⟩
  | redeem expected health actor session hdomain hsame hpermission => exact ⟨h.unverified, h.waits⟩

end RenoP.Maven
