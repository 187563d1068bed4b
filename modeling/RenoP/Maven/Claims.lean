import RenoP.Maven.DomainCalls
import RenoP.Lib.Runs

/-!
# Proofs of domain claims

The current claim of each domain is followed through the calls of `maven.go`.
-/

namespace RenoP.Maven

open RenoP.Database (Text)
open Fallible (refuse refuse_bind_ok)

variable {env : Outside} {t t' : Tables}

/-- What became of the claim that `CreateMavenDomain` made last for a domain. -/
structure Claim where
  madeVerified : Bool
  replacedReleased : Bool
  marked : Bool
  approved : Bool
  deriving DecidableEq

def Claim.Proved (c : Claim) : Prop :=
  (c.madeVerified = true ∨ c.marked = true) ∧ (c.replacedReleased = true → c.approved = true)

instance (c : Claim) : Decidable c.Proved := instDecidableAnd

structure History where
  tables : Tables
  claims : GoMap Text Claim

def noteCall (t : Tables) (claims : GoMap Text Claim) : DomainCall → GoMap Text Claim
  | .createMavenDomain d _ => claims.store d.domain ⟨d.verified, t.replaces d, false, false⟩
  | .markMavenDomainVerified domain _ _ _ =>
    claims.updateWhere (fun k _ => decide (k = domain)) fun _ c => { c with marked := true }
  | .reviewMavenDomainClaim expected _ _ true _ =>
    claims.updateWhere (fun k _ => decide (k = expected.domain)) fun _ c =>
      { c with approved := true }
  | _ => claims

def nextHistory (h : History) (call : Outside × DomainCall) : History :=
  match domainCall call.1 h.tables call.2 with
  | .error _ => h
  | .ok t => ⟨t, noteCall h.tables h.claims call.2⟩

def History.empty : History := ⟨⟨∅, ∅, ∅, ∅⟩, ∅⟩

def ClaimsProved (h : History) : Prop :=
  ∀ domain user r, h.tables.members.has (domain, user) = true →
    h.tables.domains.load domain = some r → r.verified = true →
      ∃ c, h.claims.load domain = some c ∧ c.Proved

structure Sound (r : MavenDomain) (c : Claim) : Prop where
  settled : r.closedAt = 0 → r.claimStatus = .empty →
    (c.replacedReleased = true → c.approved = true) ∧
      (r.verified = true ↔ c.madeVerified = true ∨ c.marked = true)
  closed : r.closedAt ≠ 0 → r.verified = false
  claimed : r.claimStatus ≠ .empty → r.verified = false
  pending : r.claimStatus = .pending → c.madeVerified = true ∨ c.marked = true

structure Followed (h : History) : Prop where
  sound : ∀ domain user, h.tables.members.has (domain, user) = true →
    ∃ r c, h.tables.domains.load domain = some r ∧ h.claims.load domain = some c ∧ Sound r c

theorem followed_empty : Followed .empty := ⟨nofun⟩

theorem Sound.proved {r : MavenDomain} {c : Claim} (h : Sound r c) (hverified : r.verified = true) :
    c.Proved := by
  have hopen : r.closedAt = 0 := by
    by_contra hclosed
    rw [h.closed hclosed] at hverified
    cases hverified
  have hempty : r.claimStatus = .empty := by
    by_contra hclaimed
    rw [h.claimed hclaimed] at hverified
    cases hverified
  obtain ⟨hreleased, hproof⟩ := h.settled hopen hempty
  exact ⟨hproof.mp hverified, hreleased⟩

theorem Followed.proved {h : History} (hf : Followed h) : ClaimsProved h := by
  intro domain user r hmember hrow hverified
  obtain ⟨r', c, hrow', hclaim, hsound⟩ := hf.sound domain user hmember
  rw [hrow] at hrow'
  cases hrow'
  exact ⟨c, hclaim, hsound.proved hverified⟩

theorem Sound.keep {r r' : MavenDomain} {c : Claim} (h : Sound r c) (hclosed : r'.closedAt = r.closedAt)
    (hclaim : r'.claimStatus = r.claimStatus) (hverified : r'.verified = r.verified) :
    Sound r' c := by
  constructor
  · rw [hclosed, hclaim, hverified]
    exact h.settled
  · rw [hclosed, hverified]
    exact h.closed
  · rw [hclaim, hverified]
    exact h.claimed
  · rw [hclaim]
    exact h.pending

theorem sound_close {r : MavenDomain} {c : Claim} (closedAt : ℤ) (hpos : 0 < closedAt) :
    Sound (r.close closedAt) c := by
  constructor
  · intro hopen
    exact absurd hopen (Int.ne_of_gt hpos)
  · intro _
    rfl
  · intro _
    rfl
  · exact nofun

theorem sound_row (d : NewDomain) (released : Bool) :
    Sound (d.row released) ⟨d.verified, released, false, false⟩ := by
  cases released with
  | false =>
    constructor
    · intro _ _
      simp [NewDomain.row]
    · intro hclosed
      exact absurd rfl hclosed
    · intro hclaimed
      exact absurd rfl hclaimed
    · exact nofun
  | true =>
    have hfalse : (d.row true).verified = false := by simp [NewDomain.row]
    constructor
    · intro _ hempty
      cases hverified : d.verified <;> simp [NewDomain.row, hverified] at hempty
    · intro _
      exact hfalse
    · intro _
      exact hfalse
    · intro hpending
      cases hverified : d.verified with
      | true => exact Or.inl rfl
      | false => simp [NewDomain.row, hverified] at hpending

theorem Sound.mark {r r' : MavenDomain} {c : Claim} {verifiedAt : ℤ} (h : Sound r c)
    (hunverified : r.verified = false) (hmark : r.markVerified verifiedAt = .ok r')
    (hopen : r.closedAt = 0) : Sound r' { c with marked := true } := by
  unfold MavenDomain.markVerified at hmark
  split at hmark
  · rename_i hclaim
    cases hmark
    constructor
    · intro _ _
      exact ⟨(h.settled hopen hclaim).1, fun _ => Or.inr rfl, fun _ => rfl⟩
    · intro hclosed
      exact absurd hopen hclosed
    · intro hclaimed
      exact absurd hclaim hclaimed
    · intro _
      exact Or.inr rfl
  · cases hmark
    exact ⟨nofun, fun _ => hunverified, fun _ => hunverified, fun _ => Or.inr rfl⟩
  · cases hmark
    exact ⟨nofun, fun _ => hunverified, fun _ => hunverified, fun _ => Or.inr rfl⟩
  · cases hmark

theorem sound_setHealth {r : MavenDomain} {c : Claim} (h : Sound r c)
    (health : Option MavenDomainHealth) : Sound (r.setHealth health) c := by
  unfold MavenDomain.setHealth
  split
  · exact h
  · exact h.keep rfl rfl rfl

theorem Sound.decide {r : MavenDomain} {c : Claim} {health : Option MavenDomainHealth}
    {expected : Expected} {approved : Bool} {reviewedAt : ℤ} (h : Sound r c) (hopen : r.closedAt = 0)
    (hpending : r.claimStatus = .pending)
    (hevidence : approved = true → approvable expected health = true) :
    Sound (r.decideClaim health approved reviewedAt)
      (if approved then { c with approved := true } else c) := by
  cases approved with
  | false =>
    constructor
    · exact nofun
    · intro _
      rfl
    · intro _
      rfl
    · exact nofun
  | true =>
    cases health with
    | none => exact absurd (hevidence rfl) nofun
    | some health =>
      constructor
      · intro _ _
        exact ⟨fun _ => rfl, fun _ => h.pending hpending, fun _ => rfl⟩
      · intro hclosed
        exact absurd hopen hclosed
      · intro hclaimed
        exact absurd rfl hclaimed
      · exact nofun

theorem Followed.write {h : History} (hf : Followed h) {domain : Text} {r : MavenDomain}
    {claims : GoMap Text Claim} (hdomains : t'.domains = h.tables.domains.store domain r)
    (hmembers : ∀ k, k.1 ≠ domain → t'.members.load k = h.tables.members.load k)
    (hclaims : ∀ k, k ≠ domain → claims.load k = h.claims.load k)
    (hsound : ∀ user, t'.members.has (domain, user) = true →
      ∃ c, claims.load domain = some c ∧ Sound r c) : Followed ⟨t', claims⟩ := by
  constructor
  intro domain' user hmember
  dsimp only at hmember ⊢
  rw [hdomains]
  by_cases heq : domain' = domain
  · rw [heq] at hmember ⊢
    obtain ⟨c, hclaim, hr⟩ := hsound user hmember
    exact ⟨r, c, GoMap.load_store_self _ _ _, hclaim, hr⟩
  · rw [GoMap.has, hmembers _ heq] at hmember
    rw [GoMap.load_store_ne _ _ heq, hclaims _ heq]
    exact hf.sound domain' user hmember

theorem Followed.row {h : History} (hf : Followed h) {domain : Text} {r r' : MavenDomain}
    (f : Claim → Claim) {claims : GoMap Text Claim} (hload : h.tables.domains.load domain = some r)
    (hdomains : t'.domains = h.tables.domains.store domain r')
    (hmembers : t'.members = h.tables.members)
    (hclaims : ∀ k, k ≠ domain → claims.load k = h.claims.load k)
    (hclaim : claims.load domain = (h.claims.load domain).map f)
    (hsound : ∀ c, Sound r c → Sound r' (f c)) : Followed ⟨t', claims⟩ := by
  refine hf.write hdomains (fun k _ => by rw [hmembers]) hclaims ?_
  intro user hmember
  rw [hmembers] at hmember
  obtain ⟨r₀, c, hload', hc, hr⟩ := hf.sound domain user hmember
  rw [hload] at hload'
  cases hload'
  rw [hclaim, hc]
  exact ⟨f c, rfl, hsound c hr⟩

theorem load_updateWhere_key {claims : GoMap Text Claim} {domain : Text} {f : Claim → Claim}
    (k : Text) :
    (claims.updateWhere (fun k _ => decide (k = domain)) fun _ c => f c).load k =
      if k = domain then (claims.load k).map f else claims.load k := by
  rw [GoMap.load_updateWhere]
  by_cases hk : k = domain
  · simp [hk]
  · simp [hk]

def ImportsUnclaimed (h : History) (call : Outside × DomainCall) : Prop :=
  ∀ domain importedAt, call.2 = .importLegacyMavenPath domain importedAt → domain ≠ [] →
    ∀ r, h.tables.domains.load domain = some r → r.importable = true →
      ∀ user, h.tables.members.has (domain, user) = false

theorem Followed.next {h : History} (hf : Followed h) {call : Outside × DomainCall}
    (hok : ImportsUnclaimed h call) : Followed (nextHistory h call) := by
  obtain ⟨env, call⟩ := call
  unfold nextHistory
  split
  · exact hf
  rename_i t' hcall
  cases call with
  | createMavenDomain d owner =>
    obtain ⟨-, -, rfl⟩ := createMavenDomain_ok hcall
    refine hf.write rfl ?_ ?_ ?_
    · intro k hk
      have hne : k ≠ (d.domain, owner) := fun heq => hk (congrArg Prod.fst heq)
      dsimp only
      rw [GoMap.load_store_ne _ _ hne]
      unfold claimBase
      split_ifs
      · apply GoMap.load_deleteWhere_of_false
        intro level
        exact decide_eq_false hk
      · rfl
    · intro k hk
      exact GoMap.load_store_ne _ _ hk
    · intro user _
      exact ⟨_, GoMap.load_store_self _ _ _, sound_row d _⟩
  | markMavenDomainVerified domain code verifiedAt health =>
    obtain ⟨r, r', hload, -, -, hunverified, hopen, hmark, rfl⟩ := markMavenDomainVerified_ok hcall
    refine hf.row (fun c => { c with marked := true }) hload rfl rfl ?_ ?_ ?_
    · intro k hk
      exact (load_updateWhere_key k).trans (if_neg hk)
    · exact (load_updateWhere_key domain).trans (if_pos rfl)
    · intro c hc
      exact sound_setHealth (hc.mark hunverified hmark hopen) health
  | reviewMavenDomainClaim expected health actor approved reviewedAt =>
    obtain ⟨r, hload, -, hopen, hpending, hevidence, -, -, rfl⟩ := reviewMavenDomainClaim_ok hcall
    cases approved with
    | true =>
      refine hf.row (fun c => { c with approved := true }) hload rfl rfl ?_ ?_ ?_
      · intro k hk
        exact (load_updateWhere_key k).trans (if_neg hk)
      · exact (load_updateWhere_key _).trans (if_pos rfl)
      · intro c hc
        exact hc.decide hopen hpending hevidence
    | false =>
      refine hf.row id hload rfl rfl ?_ ?_ ?_
      · intro k _
        rfl
      · exact (congrFun Option.map_id _).symm
      · intro c hc
        exact hc.decide hopen hpending hevidence
  | ensureMirroredMavenDomain domain createdAt =>
    rcases ensureMirroredMavenDomain_ok hcall with rfl | ⟨hnone, rfl⟩
    · exact hf
    · refine hf.write rfl (fun _ _ => rfl) (fun _ _ => rfl) ?_
      intro user hmember
      obtain ⟨r, c, hload, -⟩ := hf.sound domain user hmember
      rw [hnone] at hload
      cases hload
  | importLegacyMavenPath domain importedAt =>
    have hnamed : domain ≠ [] := by
      obtain ⟨hnamed, -⟩ := refuse_bind_ok hcall
      exact (not_or.mp hnamed).1
    rcases ensureImportedMavenDomain_ok hcall with rfl | ⟨hnone, rfl⟩ | ⟨r, hload, himport, rfl⟩
    · exact hf
    · refine hf.write rfl (fun _ _ => rfl) (fun _ _ => rfl) ?_
      intro user hmember
      obtain ⟨r, c, hload, -⟩ := hf.sound domain user hmember
      rw [show h.tables.domains.load domain = none from hnone] at hload
      cases hload
    · refine hf.write rfl (fun _ _ => rfl) (fun _ _ => rfl) ?_
      intro user hmember
      have hnone := hok domain importedAt rfl hnamed r hload himport user
      exact Bool.noConfusion (hmember.symm.trans hnone)
  | closeMavenDomain domain actor administrator closedAt =>
    obtain ⟨r, hload, -, hpos, -, rfl⟩ := closeMavenDomain_ok hcall
    refine hf.row id hload rfl rfl ?_ ?_ ?_
    · intro k _
      rfl
    · exact (congrFun Option.map_id _).symm
    · intro c _
      exact sound_close closedAt hpos
  | forceDeleteMavenDomain domain actor =>
    have htables := forceDeleteMavenDomain_ok hcall
    constructor
    intro domain' user hmember
    rw [htables] at hmember ⊢
    unfold GoMap.has at hmember
    dsimp only at hmember ⊢
    rw [GoMap.load_deleteWhere] at hmember
    by_cases heq : domain' = domain
    · rw [heq] at hmember
      cases hlevel : h.tables.members.load (domain, user) with
      | none => simp [hlevel] at hmember
      | some level => simp [hlevel, Option.filter] at hmember
    · rw [GoMap.load_delete_ne _ heq]
      apply hf.sound domain' user
      unfold GoMap.has
      cases hlevel : h.tables.members.load (domain', user) with
      | none => simp [hlevel] at hmember
      | some level => rfl
  | recordMavenDomainHealth expected health releaseAt code =>
    rcases (recordMavenDomainHealth_ok hcall).2 with rfl | ⟨r, hload, -, rfl⟩
    · exact hf
    · refine hf.row id hload rfl rfl ?_ ?_ ?_
      · intro k _
        rfl
      · exact (congrFun Option.map_id _).symm
      · intro c hc
        exact hc.keep rfl rfl rfl
  | redeemMavenDomain expected health actor session =>
    obtain ⟨r, hload, -, -, -, rfl⟩ := redeemMavenDomain_ok hcall
    refine hf.row id hload rfl rfl ?_ ?_ ?_
    · intro k _
      rfl
    · exact (congrFun Option.map_id _).symm
    · intro c hc
      exact hc.keep rfl rfl rfl

theorem Followed.breaks {h : History} (hf : Followed h) {call : Outside × DomainCall}
    (hnot : ¬ImportsUnclaimed h call) : ¬ClaimsProved (nextHistory h call) := by
  intro hproved
  apply hnot
  intro domain importedAt hcall hnamed r hload himport user
  apply Bool.eq_false_iff.mpr
  intro hmember
  obtain ⟨r', c, hload', hclaim, hsound⟩ := hf.sound domain user hmember
  rw [hload] at hload'
  cases hload'
  have hok : domainCall call.1 h.tables call.2 = .ok { h.tables with
      domains := h.tables.domains.store domain (r.importOver (legacyDomain domain importedAt)) } := by
    rw [hcall]
    simp only [domainCall, ensureImportedMavenDomain, legacyDomain, refuse, hnamed, hload, himport,
      Bool.true_eq_false, or_self, if_false, if_true]
    rfl
  have hnext : nextHistory h call = ⟨{ h.tables with
      domains := h.tables.domains.store domain (r.importOver (legacyDomain domain importedAt)) },
      h.claims⟩ := by
    unfold nextHistory
    rw [hok, hcall]
    rfl
  rw [hnext] at hproved
  obtain ⟨c', hclaim', hc'⟩ := hproved domain user _ hmember (GoMap.load_store_self _ _ _) rfl
  rw [show h.claims.load domain = some c from hclaim] at hclaim'
  cases hclaim'
  unfold MavenDomain.importable at himport
  simp only [Bool.and_eq_true, Bool.not_eq_true', decide_eq_true_eq] at himport
  obtain ⟨⟨hunverified, hopen⟩, hempty⟩ := himport
  have hverified := (hsound.settled hopen hempty).2.mpr hc'.1
  rw [hunverified] at hverified
  cases hverified

def openOutside : Outside where
  profile _ := true
  existing _ := true
  deleted _ := false
  session _ _ := true
  isManager _ := true
  superRole _ _ := none
  managesTeam _ _ := true
  validTeam _ := true
  domainLock _ := false
  teamLock _ := false
  pendingReview _ := false
  messagePending _ := true
  live _ := true
  deprecated _ := false
  artifactLock _ := false

/-- A claim of the domain `c.v` by the user `u`, without a proof. -/
def unprovedClaim : NewDomain :=
  ⟨['c', '.', 'v'], .dns, ['v', '.', 'c'], ['x'], [], false, 1, 0, none⟩

def importedClaim : List (Outside × DomainCall) :=
  [(openOutside, .createMavenDomain unprovedClaim ['u']),
    (openOutside, .importLegacyMavenPath ['c', '.', 'v'] 2)]

end RenoP.Maven
