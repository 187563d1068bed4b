import RenoP.Accounts.Effects

/-!
# The last login method

Every call that takes a login method away looks first at those that remain, each with a check of its
own.
-/

namespace RenoP.Accounts

open RenoP.Database (Text)

def PasswordLogin (a : Account) : Prop := a.encryptedSecret ≠ [] ∧ passwordEnabled a = true

def OAuthLinked (a : Account) : Prop := ∃ provider, a.oauthIdentities.has provider = true

def GitHubLinked (a : Account) : Prop := a.gitHubIdentity.isSome = true

def PasskeyExists (a : Account) : Prop := ∃ device, a.fidoDevices.has device = true

def PrimaryLogin (a : Account) : Prop :=
  PasswordLogin a ∨ OAuthLinked a ∨ GitHubLinked a ∨
    (PasskeyExists a ∧ passkeySecondFactor a = false)

def SecondFactorExists (a : Account) : Prop := passkeySecondFactor a = true → PasskeyExists a

theorem passwordLogin_of_hasPasswordLogin {a : Account} (h : hasPasswordLogin a = true) :
    PasswordLogin a := by
  simp only [hasPasswordLogin, Bool.and_eq_true, decide_eq_true_eq] at h
  exact ⟨h.2, h.1⟩

theorem exists_of_hasOAuthLogin {a : Account} {excludedProvider : Text}
    (h : hasOAuthLogin a excludedProvider = true) :
    ∃ provider, a.oauthIdentities.has provider = true ∧ provider ≠ excludedProvider := by
  simp only [hasOAuthLogin, List.any_eq_true, decide_eq_true_eq] at h
  obtain ⟨provider, hkey, hne⟩ := h
  exact ⟨provider, (GoMap.has_eq_true _ _).mpr ((GoMap.mem_keys_iff _ _).mp hkey), hne⟩

theorem exists_of_hasFidoWithout {a : Account} {excludedDeviceID : Text}
    (h : hasFidoWithout a excludedDeviceID = true) :
    ∃ device, a.fidoDevices.has device = true ∧ device ≠ excludedDeviceID := by
  simp only [hasFidoWithout, List.any_eq_true, decide_eq_true_eq] at h
  obtain ⟨device, hkey, hne⟩ := h
  exact ⟨device, (GoMap.has_eq_true _ _).mpr ((GoMap.mem_keys_iff _ _).mp hkey), hne⟩

theorem oauthLinked_of_hasOAuthLogin {a : Account} {excludedProvider : Text}
    (h : hasOAuthLogin a excludedProvider = true) : OAuthLinked a := by
  obtain ⟨provider, hhas, _⟩ := exists_of_hasOAuthLogin h
  exact ⟨provider, hhas⟩

theorem passkeyExists_of_hasFido {a : Account} (h : hasFido a = true) : PasskeyExists a := by
  obtain ⟨e, he⟩ := List.exists_mem_of_length_pos (of_decide_eq_true h)
  exact ⟨e.1, (GoMap.has_eq_true _ _).mpr ⟨e.2, (GoMap.mem_entries_iff _ _ _).mp he⟩⟩

structure Keeps (a a' : Account) : Prop where
  primary : PrimaryLogin a → PrimaryLogin a'
  second : SecondFactorExists a → SecondFactorExists a'

structure Gains (a a' : Account) : Prop where
  password : PasswordLogin a → PasswordLogin a'
  oauth : OAuthLinked a → OAuthLinked a'
  gitHub : GitHubLinked a → GitHubLinked a'
  passkey : PasskeyExists a → PasskeyExists a'
  second : passkeySecondFactor a' = true → passkeySecondFactor a = true

theorem Gains.keeps {a a' : Account} (h : Gains a a') : Keeps a a' where
  primary := by
    intro hprimary
    rcases hprimary with hpassword | hoauth | hgitHub | ⟨hpasskey, hfirst⟩
    · exact Or.inl (h.password hpassword)
    · exact Or.inr (Or.inl (h.oauth hoauth))
    · exact Or.inr (Or.inr (Or.inl (h.gitHub hgitHub)))
    · have hfirst' : passkeySecondFactor a' = false := by
        rw [← Bool.not_eq_true]
        intro hsecond
        rw [h.second hsecond] at hfirst
        cases hfirst
      exact Or.inr (Or.inr (Or.inr ⟨h.passkey hpasskey, hfirst'⟩))
  second := fun hexists hsecond => h.passkey (hexists (h.second hsecond))

theorem Gains.refl (a : Account) : Gains a a := ⟨id, id, id, id, id⟩

theorem Gains.trans {a b c : Account} (hab : Gains a b) (hbc : Gains b c) : Gains a c where
  password := hbc.password ∘ hab.password
  oauth := hbc.oauth ∘ hab.oauth
  gitHub := hbc.gitHub ∘ hab.gitHub
  passkey := hbc.passkey ∘ hab.passkey
  second := hab.second ∘ hbc.second

theorem touchAccountSecurity_gains (a : Account) (now : ℤ) :
    Gains a (touchAccountSecurity a now) := by
  have henabled : passwordEnabled (touchAccountSecurity a now) = passwordEnabled a := by
    unfold touchAccountSecurity passwordEnabled ensureAccountSecurity
    cases a.security with
    | none => rfl
    | some row => rfl
  exact ⟨fun h => ⟨h.1, henabled.trans h.2⟩, id, id, id, id⟩

theorem touchIf_gains (changed : Bool) (a : Account) (now : ℤ) : Gains a (touchIf changed a now) := by
  unfold touchIf
  split
  · exact touchAccountSecurity_gains a now
  · exact Gains.refl a

theorem resetAccountPassword_gains {passwordHash : Text} (h : passwordHash ≠ []) (a : Account)
    (updatedAt : ℤ) : Gains a (resetAccountPassword a passwordHash updatedAt) :=
  ⟨fun _ => ⟨h, rfl⟩, id, id, id, id⟩

theorem storeCounters_gains (a : Account) (m : MFARow) : Gains a (storeCounters a m) := by
  have hsecond : passkeySecondFactor (storeCounters a m) = passkeySecondFactor a := by
    unfold storeCounters passkeySecondFactor
    cases a.mfa with
    | none => rfl
    | some row => rfl
  exact ⟨id, id, id, id, fun h => hsecond ▸ h⟩

theorem refreshOAuthIdentityRow_gains (d : Digests) (a : Account) (identity : OAuthIdentity)
    (now : ℤ) : Gains a (refreshOAuthIdentityRow d a identity now) := by
  have hoauth : OAuthLinked a → OAuthLinked (refreshOAuthIdentityRow d a identity now) := by
    intro h
    obtain ⟨provider, hhas⟩ := h
    exists provider
    unfold refreshOAuthIdentityRow
    rw [GoMap.has_updateWhere]
    exact hhas
  exact ⟨id, hoauth, id, id, id⟩

theorem storePasswordLogin_keeps {a : Account} {enabled : Bool} {now : ℤ}
    (hset : enabled = true → a.encryptedSecret ≠ [])
    (hother : enabled = false → hasExternalLogin a = true) :
    Keeps a (storePasswordLogin a enabled now) := by
  cases enabled with
  | true => exact Gains.keeps ⟨fun _ => ⟨hset rfl, rfl⟩, id, id, id, id⟩
  | false =>
    have hexternal := hother rfl
    simp only [hasExternalLogin, Bool.or_eq_true, Bool.and_eq_true, Bool.not_eq_true']
      at hexternal
    constructor
    · intro _
      rcases hexternal with (hoauth | ⟨hfido, hfirst⟩) | hgitHub
      · exact Or.inr (Or.inl (oauthLinked_of_hasOAuthLogin hoauth))
      · exact Or.inr (Or.inr (Or.inr ⟨passkeyExists_of_hasFido hfido, hfirst⟩))
      · exact Or.inr (Or.inr (Or.inl hgitHub))
    · exact id

theorem secondFactors_keeps {a : Account} {m : MFARow}
    (hpasskey : m.passkeyEnabled = true → hasFido a = true ∧ hasPrimaryWithoutFido a = true) :
    Keeps a { a with mfa := some m } := by
  cases hrole : m.passkeyEnabled with
  | false =>
    apply Gains.keeps
    refine ⟨id, id, id, id, ?_⟩
    intro hsecond
    rw [show passkeySecondFactor { a with mfa := some m } = m.passkeyEnabled from rfl, hrole]
      at hsecond
    cases hsecond
  | true =>
    obtain ⟨hfido, hprimary⟩ := hpasskey hrole
    simp only [hasPrimaryWithoutFido, Bool.or_eq_true] at hprimary
    constructor
    · intro _
      rcases hprimary with (hoauth | hpassword) | hgitHub
      · exact Or.inr (Or.inl (oauthLinked_of_hasOAuthLogin hoauth))
      · exact Or.inl (passwordLogin_of_hasPasswordLogin hpassword)
      · exact Or.inr (Or.inr (Or.inl hgitHub))
    · intro _ _
      exact passkeyExists_of_hasFido hfido

theorem deleteOAuth_keeps {a : Account} {provider : Text}
    (hother : hasOAuthLogin a provider = true ∨ a.gitHubIdentity.isSome = true ∨
      hasPasswordLogin a = true ∨ (hasFido a = true ∧ passkeySecondFactor a = false)) :
    Keeps a { a with oauthIdentities := a.oauthIdentities.delete provider } := by
  constructor
  · intro _
    rcases hother with hoauth | hgitHub | hpassword | ⟨hfido, hfirst⟩
    · obtain ⟨other, hhas, hne⟩ := exists_of_hasOAuthLogin hoauth
      right
      left
      exists other
      rw [GoMap.has, GoMap.load_delete_ne _ hne]
      exact hhas
    · exact Or.inr (Or.inr (Or.inl hgitHub))
    · exact Or.inl (passwordLogin_of_hasPasswordLogin hpassword)
    · exact Or.inr (Or.inr (Or.inr ⟨passkeyExists_of_hasFido hfido, hfirst⟩))
  · exact id

theorem deleteGitHub_keeps {a : Account} (hother : hasLoginWithoutGitHub a = true) :
    Keeps a { a with gitHubIdentity := none } := by
  simp only [hasLoginWithoutGitHub, Bool.or_eq_true, Bool.and_eq_true, Bool.not_eq_true'] at hother
  constructor
  · intro _
    rcases hother with (hoauth | hpassword) | ⟨hfido, hfirst⟩
    · exact Or.inr (Or.inl (oauthLinked_of_hasOAuthLogin hoauth))
    · exact Or.inl (passwordLogin_of_hasPasswordLogin hpassword)
    · exact Or.inr (Or.inr (Or.inr ⟨passkeyExists_of_hasFido hfido, hfirst⟩))
  · exact id

theorem passkeyExists_delete {a : Account} {deviceID : Text}
    (h : hasFidoWithout a deviceID = true) :
    PasskeyExists { a with fidoDevices := a.fidoDevices.delete deviceID } := by
  obtain ⟨other, hhas, hne⟩ := exists_of_hasFidoWithout h
  exists other
  rw [GoMap.has, GoMap.load_delete_ne _ hne]
  exact hhas

theorem deleteFido_keeps {a : Account} {deviceID : Text}
    (hother : hasLoginWithoutFido a deviceID = true) :
    Keeps a { a with fidoDevices := a.fidoDevices.delete deviceID } := by
  unfold hasLoginWithoutFido at hother
  split at hother
  next hsecond =>
    -- the check looks at the passkeys only: the primary methods are the others
    constructor
    · intro hprimary
      rcases hprimary with hpassword | hoauth | hgitHub | ⟨_, hfirst⟩
      · exact Or.inl hpassword
      · exact Or.inr (Or.inl hoauth)
      · exact Or.inr (Or.inr (Or.inl hgitHub))
      · rw [hsecond] at hfirst
        cases hfirst
    · intro _ _
      exact passkeyExists_delete hother
  next hfirst =>
    simp only [Bool.or_eq_true] at hother
    constructor
    · intro _
      rcases hother with ((hoauth | hpassword) | hgitHub) | hleft
      · exact Or.inr (Or.inl (oauthLinked_of_hasOAuthLogin hoauth))
      · exact Or.inl (passwordLogin_of_hasPasswordLogin hpassword)
      · exact Or.inr (Or.inr (Or.inl hgitHub))
      · have hrole := Bool.eq_false_iff.mpr hfirst
        exact Or.inr (Or.inr (Or.inr ⟨passkeyExists_delete hleft, hrole⟩))
    · intro _ hsecond
      exact absurd hsecond hfirst

theorem Keeps.trans {a b c : Account} (hab : Keeps a b) (hbc : Keeps b c) : Keeps a c :=
  ⟨hbc.primary ∘ hab.primary, hbc.second ∘ hab.second⟩

theorem Effect.keeps {d : Digests} {a a' : Account} {code : Option Code} {drawn : Option Text}
    {valid : Bool} (h : Effect d a code drawn valid a') : Keeps a a' := by
  cases h with
  | unchanged => exact (Gains.refl a).keeps
  | passwordLogin enabled now hset hother => exact storePasswordLogin_keeps hset hother
  | password passwordHash now hset => exact (resetAccountPassword_gains hset a now).keeps
  | recovery passwordHash now hset =>
    exact Gains.keeps ⟨fun _ => ⟨hset, rfl⟩, id, id, id, fun hsecond => by cases hsecond⟩
  | secondFactors secret revision passkey lastStep hpasskey => exact secondFactors_keeps hpasskey
  | code c m m' valid hrow hcode => exact (storeCounters_gains a m').keeps
  | codeAndPassword c m m' passwordHash now hset hrow hcode =>
    exact ((storeCounters_gains a m').trans (resetAccountPassword_gains hset _ now)).keeps
  | linkOAuth identity now =>
    have hstored (row : OAuthIdentityRow) : Gains a { a with
        oauthIdentities := a.oauthIdentities.store identity.providerID row } :=
      ⟨id, fun _ => ⟨identity.providerID, GoMap.has_store_self _ _ _⟩, id, id, id⟩
    exact ((hstored _).trans (touchAccountSecurity_gains _ now)).keeps
  | refreshOAuth changed identity now =>
    have htouched := touchIf_gains changed a now
    exact (htouched.trans (refreshOAuthIdentityRow_gains d _ identity now)).keeps
  | deleteOAuth provider now hother =>
    exact (deleteOAuth_keeps hother).trans (touchAccountSecurity_gains _ now).keeps
  | linkGitHub changed now row =>
    have hstored (b : Account) : Gains b { b with gitHubIdentity := some row } :=
      ⟨id, id, fun _ => rfl, id, id⟩
    exact ((touchIf_gains changed a now).trans (hstored _)).keeps
  | deleteGitHub hother => exact deleteGitHub_keeps hother
  | saveFido deviceID credentialID =>
    exact Gains.keeps ⟨id, id, id, fun _ => ⟨deviceID, GoMap.has_store_self _ _ _⟩, id⟩
  | deleteFido deviceID hother => exact deleteFido_keeps hother

theorem run_keeps (d : Digests) (a : Account) (o : Outside) (call : LoginCall) :
    Keeps a (call.run d a o).1 := by
  rcases run_effect d a o call with ⟨hsame, _⟩ | ⟨valid, _, heffect⟩
  · rw [hsame]
    exact (Gains.refl a).keeps
  · exact heffect.keeps

def runLogins (d : Digests) (a : Account) (calls : List (Outside × LoginCall)) : Account :=
  calls.foldl (fun a c => (c.2.run d a c.1).1) a

theorem runLogins_keeps (d : Digests) (a : Account) (calls : List (Outside × LoginCall)) :
    Keeps a (runLogins d a calls) := by
  unfold runLogins
  induction calls generalizing a with
  | nil => exact (Gains.refl a).keeps
  | cons c calls ih => exact (run_keeps d a c.1 c.2).trans (ih (c.2.run d a c.1).1)

theorem last_login_method (d : Digests) (a : Account) (calls : List (Outside × LoginCall))
    (hprimary : PrimaryLogin a) :
    PrimaryLogin (runLogins d a calls) ∧
      (SecondFactorExists a → SecondFactorExists (runLogins d a calls)) := by
  have hkeeps := runLogins_keeps d a calls
  exact ⟨hkeeps.primary hprimary, hkeeps.second⟩

def revisionDigests : Digests where
  snapshot := fun input => (input.revision ++ List.replicate 64 '0').take 64
  key := fun identity => identity.providerID ++ identity.authority ++ identity.subject

def oneSession : Outside where
  existing := true
  deletedAt := 0
  bannedAt := 0
  bannedUntil := 0
  expiresAt := none
  holdUntil := 0
  time := 1
  sessions := [['s']]
  taken := false
  emailsValid := true
  reserveAccountEmails := .ok false
  proof := none

def passwordAccount : Account where
  userID := ['u']
  username := ['a']
  encryptedSecret := ['h']
  security := none
  mfa := none
  oauthIdentities := ∅
  gitHubIdentity := none
  fidoDevices := ∅

/-- The passkey becomes a second factor and a login method again, and the only one in the end. -/
def roleSwitches : List (Outside × LoginCall) :=
  [.saveFidoDevice ['p'] ['c'],
    .updateMFA (List.replicate 64 '0') [] true 0 ['s'] ['1'],
    .storeGitHubIdentity ⟨7, ['g'], [⟨"user".toList, 7, ['g']⟩], 1⟩,
    .setPasswordLoginEnabled false 1,
    .deleteFidoDevice ['p'],
    .deleteGitHubIdentity,
    .updateMFA ('1' :: List.replicate 63 '0') [] false 0 ['s'] ['2'],
    .deleteGitHubIdentity,
    .deleteFidoDevice ['p']].map fun call => (oneSession, call)

theorem roleSwitches_last_login_method :
    (runLogins revisionDigests passwordAccount roleSwitches).gitHubIdentity = none ∧
      hasPasswordLogin (runLogins revisionDigests passwordAccount roleSwitches) = false ∧
      PrimaryLogin (runLogins revisionDigests passwordAccount roleSwitches) ∧
      (SecondFactorExists passwordAccount →
        SecondFactorExists (runLogins revisionDigests passwordAccount roleSwitches)) :=
  ⟨by decide +kernel, by decide +kernel,
    last_login_method revisionDigests passwordAccount roleSwitches (Or.inl ⟨by decide, rfl⟩)⟩

end RenoP.Accounts
