import RenoP.Accounts.LoginMethods

/-!
# Effects of the login calls

What a transaction on the login methods can commit, with what its checks have found.
-/

namespace RenoP.Accounts

open RenoP.Database (Text)
open Fallible (refuse refuse_bind_ok bind_ok)

/-- What a transaction commits: the code that it takes, the revision that it draws, whether the
code is valid, and the account. -/
inductive Effect (d : Digests) (a : Account) : Option Code → Option Text → Bool → Account → Prop where
  | unchanged : Effect d a none none true a
  | passwordLogin (enabled : Bool) (now : ℤ) (hset : enabled = true → a.encryptedSecret ≠ [])
      (hother : enabled = false → hasExternalLogin a = true) :
      Effect d a none none true (storePasswordLogin a enabled now)
  | password (passwordHash : Text) (now : ℤ) (hset : passwordHash ≠ []) :
      Effect d a none none true (resetAccountPassword a passwordHash now)
  | recovery (passwordHash : Text) (now : ℤ) (hset : passwordHash ≠ []) :
      Effect d a none none true { resetAccountPassword a passwordHash now with mfa := none }
  | secondFactors (secret revision : Text) (passkey : Bool) (lastStep : ℤ)
      (hpasskey : passkey = true → hasFido a = true ∧ hasPrimaryWithoutFido a = true) :
      Effect d a none (some revision) true
        { a with mfa := some ⟨secret, revision, passkey, lastStep, 0, 0⟩ }
  | code (c : Code) (m m' : MFARow) (valid : Bool) (hrow : a.mfa = some m)
      (hcode : consumeMFACodeTx m c.revision c.step c.now = .ok (m', valid)) :
      Effect d a (some c) none valid (storeCounters a m')
  | codeAndPassword (c : Code) (m m' : MFARow) (passwordHash : Text) (now : ℤ)
      (hset : passwordHash ≠ []) (hrow : a.mfa = some m)
      (hcode : consumeMFACodeTx m c.revision c.step c.now = .ok (m', true)) :
      Effect d a (some c) none true (resetAccountPassword (storeCounters a m') passwordHash now)
  | linkOAuth (identity : OAuthIdentity) (now : ℤ) :
      Effect d a none none true (touchAccountSecurity
        { a with oauthIdentities :=
          a.oauthIdentities.store identity.providerID ⟨d.key identity, identity, now⟩ } now)
  | refreshOAuth (changed : Bool) (identity : OAuthIdentity) (now : ℤ) :
      Effect d a none none true (refreshOAuthIdentityRow d (touchIf changed a now) identity now)
  | deleteOAuth (provider : Text) (now : ℤ)
      (hother : hasOAuthLogin a provider = true ∨ a.gitHubIdentity.isSome = true ∨
        hasPasswordLogin a = true ∨ (hasFido a = true ∧ passkeySecondFactor a = false)) :
      Effect d a none none true (touchAccountSecurity
        { a with oauthIdentities := a.oauthIdentities.delete provider } now)
  | linkGitHub (changed : Bool) (now : ℤ) (row : GitHubIdentityRow) :
      Effect d a none none true { touchIf changed a now with gitHubIdentity := some row }
  | deleteGitHub (hother : hasLoginWithoutGitHub a = true) :
      Effect d a none none true { a with gitHubIdentity := none }
  | saveFido (deviceID credentialID : Text) :
      Effect d a none none true
        { a with fidoDevices := a.fidoDevices.store deviceID credentialID }
  | deleteFido (deviceID : Text) (hother : hasLoginWithoutFido a deviceID = true) :
      Effect d a none none true { a with fidoDevices := a.fidoDevices.delete deviceID }

variable {d : Digests} {a a' : Account} {o : Outside}

theorem not_invalidPasswordHash {passwordHash : Text} (h : ¬invalidPasswordHash passwordHash) :
    passwordHash ≠ [] := by
  intro hnil
  exact h (Or.inl hnil)

theorem setPasswordLoginEnabled_effect {enabled : Bool} {updatedAt : ℤ}
    (h : setPasswordLoginEnabled a o enabled updatedAt = .ok a') :
    Effect d a none none true a' := by
  unfold setPasswordLoginEnabled at h
  obtain ⟨_, h⟩ := refuse_bind_ok h
  obtain ⟨_, h⟩ := refuse_bind_ok h
  obtain ⟨hset, h⟩ := refuse_bind_ok h
  obtain ⟨hother, h⟩ := refuse_bind_ok h
  cases h
  apply Effect.passwordLogin
  · intro henabled hnil
    exact hset ⟨henabled, hnil⟩
  · intro hdisabled
    rw [← Bool.not_eq_false]
    intro hnone
    exact hother ⟨hdisabled, hnone⟩

theorem setAccountPassword_effect {passwordHash : Text} {updatedAt : ℤ}
    (h : setAccountPassword a o passwordHash updatedAt = .ok a') :
    Effect d a none none true a' := by
  unfold setAccountPassword at h
  obtain ⟨hhash, h⟩ := refuse_bind_ok h
  obtain ⟨_, h⟩ := refuse_bind_ok h
  obtain ⟨_, h⟩ := refuse_bind_ok h
  cases h
  exact .password passwordHash updatedAt (not_invalidPasswordHash hhash)

theorem resetPasswordWithEmailCode_effect {passwordHash : Text} {updatedAt : ℤ}
    (h : resetPasswordWithEmailCode a o passwordHash updatedAt = .ok a') :
    Effect d a none none true a' := by
  unfold resetPasswordWithEmailCode at h
  obtain ⟨hhash, h⟩ := refuse_bind_ok h
  obtain ⟨_, _, h⟩ := bind_ok h
  cases h
  exact .password passwordHash updatedAt (not_invalidPasswordHash (hhash ∘ Or.inl))

theorem resetPasswordWithRecoveryCodes_effect {passwordHash : Text} {updatedAt : ℤ}
    (h : resetPasswordWithRecoveryCodes a o passwordHash updatedAt = .ok a') :
    Effect d a none none true a' := by
  unfold resetPasswordWithRecoveryCodes at h
  obtain ⟨hhash, h⟩ := refuse_bind_ok h
  obtain ⟨_, h⟩ := refuse_bind_ok h
  obtain ⟨_, _, h⟩ := bind_ok h
  cases h
  exact .recovery passwordHash updatedAt (not_invalidPasswordHash (hhash ∘ Or.inl))

theorem mfaStateQuery_ok {state : MFAState} (h : mfaStateQuery d a o = .ok state) :
    state.toMFARow = a.mfa.getD .absent ∧ state.passwordHash = a.encryptedSecret ∧
      state.gitHubID = (a.gitHubIdentity.map (·.gitHubUserID)).getD 0 ∧
      state.passwordLoginEnabled = passwordEnabled a := by
  unfold mfaStateQuery at h
  obtain ⟨_, h⟩ := refuse_bind_ok h
  cases h
  exact ⟨rfl, rfl, rfl, rfl⟩

theorem accountEmailSession_ok {session : Text} {state : MFAState}
    (h : accountEmailSession d a o session = .ok state) :
    state.toMFARow = a.mfa.getD .absent ∧ state.passwordHash = a.encryptedSecret ∧
      state.gitHubID = (a.gitHubIdentity.map (·.gitHubUserID)).getD 0 ∧
      state.passwordLoginEnabled = passwordEnabled a := by
  unfold accountEmailSession at h
  obtain ⟨_, h⟩ := refuse_bind_ok h
  obtain ⟨_, h⟩ := refuse_bind_ok h
  obtain ⟨_, h⟩ := refuse_bind_ok h
  exact mfaStateQuery_ok h

theorem passkeySecondFactor_eq (a : Account) :
    passkeySecondFactor a = (a.mfa.getD .absent).passkeyEnabled := by
  unfold passkeySecondFactor
  cases a.mfa with
  | none => rfl
  | some row => rfl

theorem consumeMFACodeTx_ok {m m' : MFARow} {revision : Text} {step now : ℤ} {valid : Bool}
    (h : consumeMFACodeTx m revision step now = .ok (m', valid)) :
    m.secret ≠ [] ∧ m.revision = revision ∧ (m.rolled now).failures < maxFailures ∧
      valid = (m.rolled now).accepts step ∧
      m' = if (m.rolled now).accepts step then { m.rolled now with lastStep := step }
        else { m.rolled now with failures := (m.rolled now).failures + 1 } := by
  unfold consumeMFACodeTx at h
  obtain ⟨hcurrent, h⟩ := refuse_bind_ok h
  obtain ⟨hopen, h⟩ := refuse_bind_ok h
  simp only [not_or, ne_eq, not_not] at hcurrent
  have hfailures : (m.rolled now).failures < maxFailures := by omega
  split at h
  next hvalid =>
    cases h
    rw [if_pos hvalid]
    exact ⟨hcurrent.1, hcurrent.2, hfailures, hvalid.symm, rfl⟩
  next hvalid =>
    cases h
    rw [if_neg hvalid]
    exact ⟨hcurrent.1, hcurrent.2, hfailures, (Bool.eq_false_iff.mpr hvalid).symm, rfl⟩

theorem row_of_code {m' : MFARow} {revision : Text} {step now : ℤ} {valid : Bool}
    (h : consumeMFACodeTx (a.mfa.getD .absent) revision step now = .ok (m', valid)) :
    ∃ m, a.mfa = some m ∧ consumeMFACodeTx m revision step now = .ok (m', valid) := by
  cases hrow : a.mfa with
  | none =>
    rw [hrow] at h
    exact absurd rfl (consumeMFACodeTx_ok h).1
  | some m =>
    rw [hrow] at h
    exact ⟨m, rfl, h⟩

theorem updateMFA_effect {snapshot secret : Text} {passkey : Bool} {lastStep : ℤ}
    {keepSession revision : Text}
    (h : updateMFA d a o snapshot secret passkey lastStep keepSession revision = .ok a') :
    Effect d a none (some revision) true a' := by
  unfold updateMFA at h
  obtain ⟨_, h⟩ := refuse_bind_ok h
  obtain ⟨_, h⟩ := refuse_bind_ok h
  obtain ⟨current, _, h⟩ := bind_ok h
  obtain ⟨_, h⟩ := refuse_bind_ok h
  obtain ⟨_, h⟩ := refuse_bind_ok h
  obtain ⟨_, h⟩ := refuse_bind_ok h
  obtain ⟨hlast, h⟩ := refuse_bind_ok h
  cases h
  apply Effect.secondFactors
  intro hpasskey
  simpa only [hpasskey, true_and, not_or, Bool.not_eq_false] using hlast

theorem consumeMFACode_effect {revision : Text} {step now : ℤ} {valid : Bool}
    (h : consumeMFACode d a o revision step now = .ok (a', valid)) :
    Effect d a (some ⟨revision, step, now⟩) none valid a' := by
  unfold consumeMFACode at h
  obtain ⟨_, h⟩ := refuse_bind_ok h
  obtain ⟨state, hstate, h⟩ := bind_ok h
  obtain ⟨⟨m', accepted⟩, hcode, h⟩ := bind_ok h
  cases h
  rw [(mfaStateQuery_ok hstate).1] at hcode
  obtain ⟨m, hrow, hcode⟩ := row_of_code hcode
  exact .code ⟨revision, step, now⟩ m m' valid hrow hcode

theorem changeAccountPassword_effect {passwordHash session snapshot : Text}
    {factor : PasswordFactor} {now : ℤ} {valid : Bool}
    (h : changeAccountPassword d a o passwordHash session snapshot factor now = .ok (a', valid)) :
    Effect d a ((LoginCall.changeAccountPassword passwordHash session snapshot factor now).code a)
      none valid a' := by
  unfold changeAccountPassword at h
  obtain ⟨hhash, h⟩ := refuse_bind_ok h
  obtain ⟨current, hcurrent, h⟩ := bind_ok h
  obtain ⟨_, h⟩ := refuse_bind_ok h
  have hset := not_invalidPasswordHash (hhash ∘ Or.inl)
  cases factor with
  | unneeded =>
    obtain ⟨_, h⟩ := refuse_bind_ok h
    cases h
    exact .password passwordHash now hset
  | totp step =>
    obtain ⟨⟨m', accepted⟩, hcode, h⟩ := bind_ok h
    rw [(accountEmailSession_ok hcurrent).1] at hcode
    obtain ⟨m, hrow, hcode⟩ := row_of_code hcode
    cases accepted with
    | true =>
      cases h
      exact .codeAndPassword ⟨_, step, now⟩ m m' passwordHash now hset hrow hcode
    | false =>
      cases h
      exact .code ⟨_, step, now⟩ m m' false hrow hcode
  | passkey credentialID =>
    obtain ⟨_, h⟩ := refuse_bind_ok h
    obtain ⟨_, h⟩ := refuse_bind_ok h
    cases h
    exact .password passwordHash now hset
  | email =>
    obtain ⟨_, _, h⟩ := bind_ok h
    cases h
    exact .password passwordHash now hset
  | unknown => cases h

theorem storeOAuthIdentity_effect {identity : OAuthIdentity} {now : ℤ}
    (h : storeOAuthIdentity d a o identity now = .ok a') : Effect d a none none true a' := by
  unfold storeOAuthIdentity at h
  obtain ⟨_, h⟩ := refuse_bind_ok h
  obtain ⟨_, h⟩ := refuse_bind_ok h
  obtain ⟨_, h⟩ := refuse_bind_ok h
  obtain ⟨_, h⟩ := refuse_bind_ok h
  obtain ⟨_, _, h⟩ := bind_ok h
  split at h
  · cases h
    exact .refreshOAuth true identity now
  · obtain ⟨_, h⟩ := refuse_bind_ok h
    obtain ⟨_, h⟩ := refuse_bind_ok h
    cases h
    exact .linkOAuth identity now

theorem linkOAuthIdentity_effect {session snapshot : Text} {identity : OAuthIdentity} {now : ℤ}
    (h : linkOAuthIdentity d a o session snapshot identity now = .ok a') :
    Effect d a none none true a' := by
  unfold linkOAuthIdentity at h
  obtain ⟨current, _, h⟩ := bind_ok h
  obtain ⟨_, h⟩ := refuse_bind_ok h
  exact storeOAuthIdentity_effect h

theorem refreshOAuthIdentity_effect {identity : OAuthIdentity} {now : ℤ}
    (h : refreshOAuthIdentity d a o identity now = .ok a') : Effect d a none none true a' := by
  unfold refreshOAuthIdentity at h
  obtain ⟨_, h⟩ := refuse_bind_ok h
  obtain ⟨_, h⟩ := refuse_bind_ok h
  obtain ⟨_, h⟩ := refuse_bind_ok h
  obtain ⟨changed, _, h⟩ := bind_ok h
  cases h
  exact .refreshOAuth changed identity now

theorem gitHubID_of_none {state : MFAState}
    (hgitHub : state.gitHubID = (a.gitHubIdentity.map (·.gitHubUserID)).getD 0)
    (hnone : ¬a.gitHubIdentity.isSome = true) : state.gitHubID = 0 := by
  rw [Option.not_isSome_iff_eq_none] at hnone
  rw [hgitHub, hnone]
  rfl

theorem deleteOAuthIdentity_effect {username session provider : Text} {now : ℤ}
    (h : deleteOAuthIdentity d a o username session provider now = .ok a') :
    Effect d a none none true a' := by
  unfold deleteOAuthIdentity at h
  obtain ⟨account, haccount, h⟩ := bind_ok h
  obtain ⟨_, h⟩ := refuse_bind_ok h
  obtain ⟨hlast, h⟩ := refuse_bind_ok h
  cases h
  obtain ⟨hrow, hpassword, hgitHub, henabled⟩ := accountEmailSession_ok haccount
  apply Effect.deleteOAuth
  by_contra hnone
  simp only [not_or] at hnone
  obtain ⟨hnoOAuth, hnoGitHub, hnoPassword, hnoFido⟩ := hnone
  apply hlast
  constructor
  · refine ⟨Bool.eq_false_iff.mpr hnoOAuth, gitHubID_of_none hgitHub hnoGitHub, ?_⟩
    rw [hpassword, henabled]
    intro hset
    apply hnoPassword
    rw [hasPasswordLogin, hset.2, decide_eq_true hset.1]
    rfl
  · rw [hrow, ← passkeySecondFactor_eq]
    by_cases hsecond : passkeySecondFactor a = true
    · exact Or.inl hsecond
    · right
      unfold fidoCount
      split
      · by_contra hsize
        have hfido : hasFido a = true := decide_eq_true (Nat.pos_of_ne_zero hsize)
        exact hnoFido ⟨hfido, Bool.eq_false_iff.mpr hsecond⟩
      · rfl

theorem storeGitHubIdentity_effect {g : GitHubAuthorization}
    (h : storeGitHubIdentity a o g = .ok a') : Effect d a none none true a' := by
  unfold storeGitHubIdentity at h
  obtain ⟨_, h⟩ := refuse_bind_ok h
  obtain ⟨_, h⟩ := refuse_bind_ok h
  obtain ⟨_, h⟩ := refuse_bind_ok h
  obtain ⟨_, h⟩ := refuse_bind_ok h
  obtain ⟨changed, _, h⟩ := bind_ok h
  obtain ⟨_, h⟩ := refuse_bind_ok h
  cases h
  exact .linkGitHub changed g.authorizedAt ⟨g.gitHubUserID, g.gitHubLogin, g.authorizedAt⟩

theorem linkGitHubIdentity_effect {session snapshot : Text} {g : GitHubAuthorization}
    (h : linkGitHubIdentity d a o session snapshot g = .ok a') :
    Effect d a none none true a' := by
  unfold linkGitHubIdentity at h
  obtain ⟨current, _, h⟩ := bind_ok h
  obtain ⟨_, h⟩ := refuse_bind_ok h
  exact storeGitHubIdentity_effect h

theorem refreshGitHubIdentity_effect {g : GitHubAuthorization}
    (h : refreshGitHubIdentity a o g = .ok a') : Effect d a none none true a' := by
  unfold refreshGitHubIdentity at h
  obtain ⟨_, h⟩ := refuse_bind_ok h
  obtain ⟨_, h⟩ := refuse_bind_ok h
  exact storeGitHubIdentity_effect h

theorem deleteGitHubIdentity_effect (h : deleteGitHubIdentity a o = .ok a') :
    Effect d a none none true a' := by
  unfold deleteGitHubIdentity at h
  obtain ⟨_, h⟩ := refuse_bind_ok h
  obtain ⟨_, h⟩ := refuse_bind_ok h
  obtain ⟨hlast, h⟩ := refuse_bind_ok h
  cases h
  rw [Bool.not_eq_false] at hlast
  exact .deleteGitHub hlast

theorem saveFidoDevice_effect {deviceID credentialID : Text}
    (h : saveFidoDevice a o deviceID credentialID = .ok a') : Effect d a none none true a' := by
  unfold saveFidoDevice at h
  split at h
  · cases h
    exact .unchanged
  · obtain ⟨_, h⟩ := refuse_bind_ok h
    obtain ⟨_, h⟩ := refuse_bind_ok h
    obtain ⟨_, h⟩ := refuse_bind_ok h
    cases h
    exact .saveFido deviceID credentialID

theorem deleteFidoDevice_effect {deviceID : Text} (h : deleteFidoDevice a o deviceID = .ok a') :
    Effect d a none none true a' := by
  unfold deleteFidoDevice at h
  split at h
  · cases h
    exact .unchanged
  obtain ⟨_, h⟩ := refuse_bind_ok h
  obtain ⟨_, h⟩ := refuse_bind_ok h
  split at h
  · cases h
    exact .unchanged
  obtain ⟨hlast, h⟩ := refuse_bind_ok h
  cases h
  rw [Bool.not_eq_false] at hlast
  exact .deleteFido deviceID hlast

theorem withoutCode_effect {result : Except LoginError Account} {drawn : Option Text}
    {valid : Bool} (heffect : ∀ {b}, result = .ok b → Effect d a none drawn true b)
    (h : withoutCode result = .ok (a', valid)) : Effect d a none drawn valid a' := by
  cases result with
  | error err => cases h
  | ok b =>
    cases h
    exact heffect rfl

theorem transaction_effect {call : LoginCall} {valid : Bool}
    (h : call.transaction d a o = .ok (a', valid)) :
    Effect d a (call.code a) call.drawn valid a' := by
  cases call with
  | setPasswordLoginEnabled enabled updatedAt =>
    exact withoutCode_effect setPasswordLoginEnabled_effect h
  | setAccountPassword passwordHash updatedAt =>
    exact withoutCode_effect setAccountPassword_effect h
  | resetPasswordWithEmailCode passwordHash updatedAt =>
    exact withoutCode_effect resetPasswordWithEmailCode_effect h
  | resetPasswordWithRecoveryCodes passwordHash updatedAt =>
    exact withoutCode_effect resetPasswordWithRecoveryCodes_effect h
  | changeAccountPassword passwordHash session snapshot factor now =>
    exact changeAccountPassword_effect h
  | updateMFA snapshot secret passkey lastStep keepSession revision =>
    exact withoutCode_effect updateMFA_effect h
  | consumeMFACode revision step now => exact consumeMFACode_effect h
  | linkOAuthIdentity session snapshot identity now =>
    exact withoutCode_effect linkOAuthIdentity_effect h
  | refreshOAuthIdentity identity now => exact withoutCode_effect refreshOAuthIdentity_effect h
  | deleteOAuthIdentity username session provider now =>
    exact withoutCode_effect deleteOAuthIdentity_effect h
  | storeGitHubIdentity authorization => exact withoutCode_effect storeGitHubIdentity_effect h
  | linkGitHubIdentity session snapshot authorization =>
    exact withoutCode_effect linkGitHubIdentity_effect h
  | refreshGitHubIdentity authorization => exact withoutCode_effect refreshGitHubIdentity_effect h
  | deleteGitHubIdentity => exact withoutCode_effect deleteGitHubIdentity_effect h
  | saveFidoDevice deviceID credentialID => exact withoutCode_effect saveFidoDevice_effect h
  | deleteFidoDevice deviceID => exact withoutCode_effect deleteFidoDevice_effect h

theorem run_effect (d : Digests) (a : Account) (o : Outside) (call : LoginCall) :
    (call.run d a o).1 = a ∧ (∀ a' valid, call.transaction d a o ≠ .ok (a', valid)) ∨
      ∃ valid, call.transaction d a o = .ok ((call.run d a o).1, valid) ∧
        Effect d a (call.code a) call.drawn valid (call.run d a o).1 := by
  cases htransaction : call.transaction d a o with
  | error err =>
    left
    rw [LoginCall.run, htransaction]
    exact ⟨rfl, fun a' valid h => by cases h⟩
  | ok result =>
    obtain ⟨a', valid⟩ := result
    right
    have hrun : (call.run d a o).1 = a' := by
      rw [LoginCall.run, htransaction]
      cases valid with
      | false => rfl
      | true => rfl
    rw [hrun]
    exact ⟨valid, rfl, transaction_effect htransaction⟩

end RenoP.Accounts
