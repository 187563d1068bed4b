import RenoP.Accounts.EmailSteps
import RenoP.Lib.Runs

/-!
# Replaced primary addresses

Runs of the transactions, on any accounts, with a clock that does not go back.
-/

namespace RenoP.Accounts

open RenoP.Database (Text)
open Fallible (bind_ok)
open Runs (Along)

variable {uni : Unicode} {t t' : EmailTables} {userID email : Text} {clock now : ℤ}

/-- An address that nobody but the account can take, and that recovers it at a time. -/
structure EmailTables.Held (uni : Unicode) (t : EmailTables) (userID email : Text) (now : ℤ) :
    Prop where
  owned : t.Owns userID email
  normal : normalizeEmail uni email = some email
  notReserved : ∀ other, other ≠ userID → ∀ proofs retained result,
    (∃ proof ∈ proofs, normalizeEmail uni proof.email = some email) →
      reserveAccountEmails uni t other proofs retained ≠ .ok result
  notPrimary : ∀ other, other ≠ userID → ∀ value deletedAt updatedAt result,
    normalizeEmail uni value = some email →
      updateAccountEmail uni t deletedAt other value updatedAt ≠ .ok result
  notRecovered : ∀ other, other ≠ userID → ∀ identifier updatedAt result,
    normalizeEmail uni identifier = some email →
      recoveryPrimaryEmail uni t other identifier updatedAt ≠ .ok result
  accepted : ∀ identifier, normalizeEmail uni identifier = some email →
    recoveryPrimaryEmail uni t userID identifier now =
      .ok (decide (t.primaryEmail userID ≠ email), t.primaryEmail userID)

/-- An address of the account that is not retained is its primary address, or one of the history
that expires later, or one of some others; and those of the first two kinds are its own. -/
structure EmailTables.RowsAccounted (t : EmailTables) (userID : Text) (now : ℤ) (others : Text → Prop) :
    Prop where
  unretained : ∀ email, t.addresses.load email = some ⟨userID, false⟩ →
    email = t.primaryEmail userID ∨ t.protects userID email now = true ∨ others email
  owned : ∀ email, email ≠ [] →
    email = t.primaryEmail userID ∨ t.protects userID email now = true → t.Owns userID email

def TimedCall.ReservesUnretained (uni : Unicode) (c : TimedCall) (userID email : Text) : Prop :=
  ∃ proofs, c.call = .reserveAccountEmails userID proofs false ∧
    ∃ proof ∈ proofs, normalizeEmail uni proof.email = some email

def ReservedUnretained (uni : Unicode) (calls : List TimedCall) (userID email : Text) : Prop :=
  ∃ c ∈ calls, c.ReservesUnretained uni userID email

structure EmailTables.SoundFor (uni : Unicode) (t : EmailTables) (clock : ℤ) (loose : Text → Prop)
    (userID : Text) : Prop where
  primary : t.primaryEmail userID ≠ [] → t.Owns userID (t.primaryEmail userID) ∧
    normalizeEmail uni (t.primaryEmail userID) = some (t.primaryEmail userID)
  history : ∀ email expiresAt, t.history.load (userID, email) = some expiresAt →
    email ≠ [] ∧ normalizeEmail uni email = some email ∧ t.security.has userID = true
  held : ∀ email, t.protects userID email clock = true → t.Owns userID email
  unretained : ∀ email, t.addresses.load email = some ⟨userID, false⟩ →
    email = t.primaryEmail userID ∨ t.history.has (userID, email) = true ∨ loose email

def EmailTables.Sound (uni : Unicode) (t : EmailTables) (clock : ℤ) (loose : Text → Text → Prop) :
    Prop :=
  ∀ userID, t.SoundFor uni clock (loose userID) userID

variable {loose : Text → Prop}

theorem EmailTables.SoundFor.later (h : t.SoundFor uni clock loose userID) (hclock : clock ≤ now) :
    t.SoundFor uni now loose userID :=
  ⟨h.primary, h.history, fun email hheld => h.held email (protects_of_le hclock hheld),
    h.unretained⟩

theorem OthersKept.soundFor {user : Text} (h : OthersKept t t' userID) (hne : user ≠ userID)
    (hsound : t.SoundFor uni clock loose user) : t'.SoundFor uni clock loose user := by
  have hprimary : t'.primaryEmail user = t.primaryEmail user := by
    unfold EmailTables.primaryEmail
    rw [h.security user hne]
  have howns : ∀ email, t'.Owns user email ↔ t.Owns user email :=
    fun email => exists_congr fun retained => h.addresses email ⟨user, retained⟩ hne
  have hprotects : ∀ email, t'.protects user email clock = t.protects user email clock := by
    intro email
    unfold EmailTables.protects
    rw [h.history user email hne]
  constructor
  · rw [hprimary, howns]
    exact hsound.primary
  · intro email expiresAt hload
    rw [h.history user email hne] at hload
    unfold GoMap.has
    rw [h.security user hne]
    exact hsound.history email expiresAt hload
  · intro email hheld
    rw [hprotects] at hheld
    exact (howns email).mpr (hsound.held email hheld)
  · intro email hload
    rw [h.addresses email _ hne] at hload
    rw [hprimary, GoMap.has, h.history user email hne]
    exact hsound.unretained email hload

theorem Updated.soundFor (h : Updated t t' userID email now)
    (hnormal : normalizeEmail uni email = some email)
    (hsound : t.SoundFor uni now loose userID) : t'.SoundFor uni now loose userID := by
  constructor
  · rw [h.primary]
    exact fun hne => ⟨h.owned hne, hnormal⟩
  · intro address expiresAt hload
    rcases h.history address expiresAt hload with hold | ⟨rfl, hne⟩
    · obtain ⟨hne, hsame, -⟩ := hsound.history address expiresAt hold
      exact ⟨hne, hsame, h.row⟩
    · exact ⟨hne, (hsound.primary hne).2, h.row⟩
  · intro address hheld
    apply h.kept address hheld
    obtain ⟨expiresAt, hload, hlater⟩ := protects_iff.mp hheld
    rcases h.history address expiresAt hload with hold | ⟨rfl, hne⟩
    · exact hsound.held address (protects_iff.mpr ⟨expiresAt, hold, hlater⟩)
    · exact (hsound.primary hne).1
  · intro address hload
    rw [h.primary]
    refine (h.unretained address hload).imp_right fun hheld => .inl ?_
    obtain ⟨expiresAt, hload, -⟩ := protects_iff.mp hheld
    exact (GoMap.has_eq_true ..).mpr ⟨expiresAt, hload⟩

theorem Reserved.soundFor {retained : Bool} {emails : List Text}
    (h : Reserved t t' userID retained emails)
    (hloose : retained = false → ∀ email ∈ emails, loose email)
    (hsound : t.SoundFor uni clock loose userID) : t'.SoundFor uni clock loose userID := by
  have hprimary : t'.primaryEmail userID = t.primaryEmail userID := by
    unfold EmailTables.primaryEmail
    rw [h.security]
  constructor
  · rw [hprimary]
    exact fun hne => (hsound.primary hne).imp_left (h.kept _)
  · rw [h.history, h.security]
    exact hsound.history
  · intro email hheld
    unfold EmailTables.protects at hheld
    rw [h.history] at hheld
    exact h.kept email (hsound.held email hheld)
  · intro email hload
    rw [hprimary, h.history]
    rcases h.unretained email hload with hold | ⟨hretained, hmem⟩
    · exact hsound.unretained email hold
    · exact .inr (.inr (hloose hretained email hmem))

theorem Deleted.soundFor (h : Deleted t t' userID email now)
    (hsound : t.SoundFor uni now loose userID) : t'.SoundFor uni now loose userID := by
  have howns : ∀ address, address ≠ email → t.Owns userID address → t'.Owns userID address := by
    rintro address hne ⟨retained, hload⟩
    exact ⟨retained, (h.addresses address _).mpr ⟨hload, fun hdeleted => hne hdeleted.2⟩⟩
  constructor
  · rw [h.primary]
    exact fun hne => (hsound.primary hne).imp_left (howns _ h.notPrimary.symm)
  · intro address expiresAt hload
    rw [h.history] at hload
    obtain ⟨hne, hsame, -⟩ := hsound.history address expiresAt hload
    exact ⟨hne, hsame, h.row⟩
  · intro address hheld
    unfold EmailTables.protects at hheld
    rw [h.history] at hheld
    refine howns address ?_ (hsound.held address hheld)
    rintro rfl
    exact absurd (hheld.symm.trans h.notHeld) (by decide)
  · intro address hload
    rw [h.primary, h.history]
    exact hsound.unretained address ((h.addresses address _).mp hload).1

theorem Released.primaryEmail (h : Released t t' userID now) :
    t'.primaryEmail userID = t.primaryEmail userID := by
  unfold EmailTables.primaryEmail
  rw [h.security]

theorem Released.protects (h : Released t t' userID now) (email : Text) :
    t'.protects userID email now = true ↔ t.protects userID email now = true := by
  rw [protects_iff, protects_iff]
  exact exists_congr fun expiresAt => by rw [h.history, and_assoc, and_self]

theorem Released.soundFor (h : Released t t' userID now)
    (hsound : t.SoundFor uni now loose userID) : t'.SoundFor uni now loose userID := by
  constructor
  · rw [h.primaryEmail]
    exact fun hne => (hsound.primary hne).imp_left fun howns => h.kept _ howns (.inl rfl)
  · intro email expiresAt hload
    rw [h.security]
    exact hsound.history email expiresAt ((h.history email expiresAt).mp hload).1
  · intro email hheld
    have hheld := (h.protects email).mp hheld
    exact h.kept email (hsound.held email hheld) (.inr hheld)
  · intro email hload
    rw [h.primaryEmail]
    rcases h.unretained email hload with hprimary | hprotects | hgone
    · exact .inl hprimary
    · obtain ⟨expiresAt, hfound, hlater⟩ := protects_iff.mp hprotects
      exact .inr (.inl ((GoMap.has_eq_true ..).mpr
        ⟨expiresAt, (h.history email expiresAt).mpr ⟨hfound, hlater⟩⟩))
    · refine (hsound.unretained email (h.addresses email _ hload)).imp_right fun hrest => ?_
      rw [hgone] at hrest
      exact .inr (hrest.resolve_left (by decide))

theorem Restored.soundFor (h : Restored t t' userID email)
    (hnormal : normalizeEmail uni email = some email) (howns : t.Owns userID email) :
    t'.SoundFor uni now loose userID := by
  constructor
  · rw [h.primary]
    exact fun _ => ⟨h.owned howns, hnormal⟩
  · intro address expiresAt hload
    rw [h.history] at hload
    cases hload
  · intro address hheld
    obtain ⟨expiresAt, hload, -⟩ := protects_iff.mp hheld
    rw [h.history] at hload
    cases hload
  · intro address hload
    rw [h.primary]
    exact .inl (h.unretained address hload)

variable {loose : Text → Text → Prop} {c : TimedCall}

theorem EmailTables.Sound.of_account (h : t.Sound uni now loose) (hothers : OthersKept t t' userID)
    (hown : t'.SoundFor uni now (loose userID) userID) : t'.Sound uni now loose := by
  intro user
  by_cases huser : user = userID
  · rw [huser]
    exact hown
  · exact hothers.soundFor huser (h user)

theorem updateAccountEmail_ok {deletedAt : ℤ} {value : Text}
    (h : updateAccountEmail uni t deletedAt userID value now = .ok t') :
    ∃ email, normalizeEmail uni value = some email ∧ normalizeEmail uni email = some email ∧
      Updated t t' userID email now := by
  unfold updateAccountEmail at h
  split at h
  · cases h
  · next email hemail =>
    obtain ⟨u, -, h⟩ := bind_ok h
    have hnormal := normalizeEmail_idem hemail
    exact ⟨email, hemail, hnormal, updateAccountEmailTx_ok hnormal h⟩

theorem TimedCall.apply_sound (hclock : clock ≤ c.now) (hsound : t.Sound uni clock loose)
    (hloose : ∀ userID email, c.ReservesUnretained uni userID email → loose userID email)
    (h : c.apply uni t = .ok t') : t'.Sound uni c.now loose := by
  have hlater : t.Sound uni c.now loose := fun user => (hsound user).later hclock
  unfold TimedCall.apply at h
  split at h
  case h_1 userID value hcall =>
    obtain ⟨email, -, hnormal, hupdated⟩ := updateAccountEmail_ok h
    exact hlater.of_account hupdated.others (hupdated.soundFor hnormal (hlater userID))
  case h_2 userID proofs retained hcall =>
    obtain ⟨u, -, h⟩ := bind_ok h
    obtain ⟨⟨reserved, changed⟩, hreserve, h⟩ := bind_ok h
    cases h
    obtain ⟨emails, hemails, hreserved⟩ := reserveAccountEmails_ok hreserve
    refine hlater.of_account hreserved.others (hreserved.soundFor ?_ (hlater userID))
    intro hretained email hmem
    rw [hretained] at hcall
    exact hloose userID email ⟨proofs, hcall, (hemails email).mp hmem⟩
  case h_3 account value hcall =>
    obtain ⟨userID, email, -, hdeleted⟩ := deleteAccountEmailAlias_ok h
    exact hlater.of_account hdeleted.others (hdeleted.soundFor (hlater userID))
  case h_4 userID hcall =>
    have hreleased := releaseExpiredPrimaryEmails_ok h
    exact hlater.of_account hreleased.others (hreleased.soundFor (hlater userID))
  case h_5 userID identifier hcall =>
    obtain ⟨u, -, h⟩ := bind_ok h
    obtain ⟨⟨restore, current⟩, hfound, h⟩ := bind_ok h
    obtain ⟨email, hemail, -, howns, hrow, hne⟩ := recoveryPrimaryEmail_ok hfound
    split_ifs at h with hrestore
    · have hrestored := restorePrimaryEmail_ok hemail hrow (hne hrestore) h
      exact hlater.of_account hrestored.others
        (hrestored.soundFor (normalizeEmail_idem hemail) howns)
    · cases h
      exact hlater

theorem EmailState.next_sound {s : EmailState} (hclock : s.clock ≤ c.now)
    (hsound : s.tables.Sound uni s.clock loose)
    (hloose : ∀ userID email, c.ReservesUnretained uni userID email → loose userID email) :
    (s.next uni c).tables.Sound uni (s.next uni c).clock loose := by
  unfold EmailState.next
  split
  · exact fun user => (hsound user).later hclock
  · next tables happly => exact TimedCall.apply_sound hclock hsound hloose happly

theorem empty_sound : EmailTables.empty.Sound uni clock loose := by
  intro userID
  refine ⟨fun hne => absurd rfl hne, ?_, ?_, ?_⟩
  · intro email expiresAt hload
    cases hload
  · intro email hheld
    cases hheld
  · intro email hload
    cases hload

theorem run_sound {calls : List TimedCall} {start : ℤ}
    (hclock : Along (EmailState.next uni) (fun s c => s.clock ≤ c.now) ⟨.empty, start⟩ calls) :
    (calls.foldl (EmailState.next uni) ⟨.empty, start⟩).tables.Sound uni
      (calls.foldl (EmailState.next uni) ⟨.empty, start⟩).clock (ReservedUnretained uni calls) := by
  refine @Along.invariant_of_forall _ _ (EmailState.next uni) _ (fun c => c ∈ calls)
    (fun s => s.tables.Sound uni s.clock (ReservedUnretained uni calls))
    ?_ _ _ empty_sound (fun c hc => hc) hclock
  intro s c hsound hmem hlater
  exact EmailState.next_sound hlater hsound fun userID email hreserves => ⟨c, hmem, hreserves⟩

theorem EmailTables.Owns.held (h : t.Owns userID email) (hne : email ≠ [])
    (hnormal : normalizeEmail uni email = some email) (hrow : t.security.has userID = true)
    (hheld : t.primaryEmail userID = email ∨ t.protects userID email now = true) :
    t.Held uni userID email now := by
  have htaken : ∀ {u : EmailTables} {other : Text}, other ≠ userID → OthersKept t u other →
      ¬u.Owns other email := by
    intro u other hother hkept howns
    obtain ⟨retained, hload⟩ := h
    exact hother (howns.unique ⟨retained, (hkept.addresses email _ hother.symm).mpr hload⟩)
  refine ⟨h, hnormal, ?_, ?_, ?_, ?_⟩
  · rintro other hother proofs retained ⟨u, changed⟩ hproof hreserve
    obtain ⟨emails, hemails, hreserved⟩ := reserveAccountEmails_ok hreserve
    exact htaken hother hreserved.others (hreserved.owned email ((hemails email).mpr hproof))
  · intro other hother value deletedAt updatedAt u hvalue hupdate
    obtain ⟨email', hemail', -, hupdated⟩ := updateAccountEmail_ok hupdate
    have hsame : email' = email := Option.some.inj (hemail'.symm.trans hvalue)
    rw [hsame] at hupdated
    exact htaken hother hupdated.others (hupdated.owned hne)
  · rintro other hother identifier updatedAt ⟨restore, current⟩ hidentifier hfound
    obtain ⟨email', hemail', -, howns, -⟩ := recoveryPrimaryEmail_ok hfound
    rw [Option.some.inj (hemail'.symm.trans hidentifier)] at howns
    exact htaken hother (.refl t other) howns
  · intro identifier hidentifier
    obtain ⟨security, hload⟩ := (GoMap.has_eq_true ..).mp hrow
    have hprimary : t.primaryEmail userID = security.email := by
      unfold EmailTables.primaryEmail
      rw [hload]
      rfl
    rw [hprimary] at hheld ⊢
    exact recoveryPrimaryEmail_of_owns hidentifier hne h hload hheld

theorem has_of_primaryEmail (h : t.primaryEmail userID ≠ []) : t.security.has userID = true := by
  unfold EmailTables.primaryEmail at h
  unfold GoMap.has
  cases hload : t.security.load userID with
  | none =>
    rw [hload] at h
    exact absurd rfl h
  | some security => rfl

theorem EmailTables.SoundFor.rowsAccounted {loose : Text → Prop} (h : t.SoundFor uni now loose userID)
    {others : Text → Prop} (hrows : ∀ email, t.addresses.load email = some ⟨userID, false⟩ →
      email = t.primaryEmail userID ∨ t.protects userID email now = true ∨ others email) :
    t.RowsAccounted userID now others := by
  refine ⟨hrows, ?_⟩
  rintro email hne (rfl | hprotects)
  · exact (h.primary hne).1
  · exact h.held email hprotects

/-- In every state that transactions reach with a clock that does not go back, the primary address
of an account and the addresses of its history are held until they expire, and the addresses that
are not retained are accounted for. -/
theorem primary_email_held {uni : Unicode} {calls : List TimedCall} {start : ℤ}
    (hclock : Along (EmailState.next uni) (fun s c => s.clock ≤ c.now) ⟨.empty, start⟩ calls) :
    let s := calls.foldl (EmailState.next uni) ⟨.empty, start⟩
    (∀ userID, s.tables.primaryEmail userID ≠ [] → ∀ now,
      s.tables.Held uni userID (s.tables.primaryEmail userID) now) ∧
    (∀ userID email now, s.clock ≤ now → s.tables.protects userID email now = true →
      s.tables.Held uni userID email now) ∧
    (∀ userID deletedAt now t', s.clock ≤ now →
      releaseExpiredPrimaryEmails s.tables deletedAt userID now = .ok t' →
        t'.RowsAccounted userID now (ReservedUnretained uni calls userID)) ∧
    ∀ userID deletedAt value now t', s.clock ≤ now →
      updateAccountEmail uni s.tables deletedAt userID value now = .ok t' →
        t'.RowsAccounted userID now fun _ => False := by
  intro s
  have hsound := run_sound hclock
  change s.tables.Sound uni s.clock _ at hsound
  refine ⟨?_, ?_, ?_, ?_⟩
  · intro userID hne now
    obtain ⟨howns, hnormal⟩ := (hsound userID).primary hne
    exact howns.held hne hnormal (has_of_primaryEmail hne) (.inl rfl)
  · intro userID email now hlater hprotects
    have howns := ((hsound userID).later hlater).held email hprotects
    obtain ⟨expiresAt, hload, -⟩ := protects_iff.mp hprotects
    obtain ⟨hne, hnormal, hrow⟩ := (hsound userID).history email expiresAt hload
    exact howns.held hne hnormal hrow (.inr hprotects)
  · intro userID deletedAt now t' hlater hrelease
    have hreleased := releaseExpiredPrimaryEmails_ok hrelease
    have hafter := hreleased.soundFor ((hsound userID).later hlater)
    apply hafter.rowsAccounted
    intro email hload
    rw [hreleased.primaryEmail, hreleased.protects]
    rcases hreleased.unretained email hload with hprimary | hprotects | hgone
    · exact .inl hprimary
    · exact .inr (.inl hprotects)
    · refine ((hsound userID).unretained email (hreleased.addresses email _ hload)).imp_right ?_
      intro hrest
      rw [hgone] at hrest
      exact .inr (hrest.resolve_left (by decide))
  · intro userID deletedAt value now t' hlater hupdate
    obtain ⟨email, -, hnormal, hupdated⟩ := updateAccountEmail_ok hupdate
    apply (hupdated.soundFor hnormal ((hsound userID).later hlater)).rowsAccounted
    intro address hload
    rw [hupdated.primary]
    exact (hupdated.unretained address hload).imp_right .inl

def asciiUnicode : Unicode where
  toLower := Char.toLower
  fold := Char.toLower
  toASCII domain := if domain.all fun c => decide (c.val < 128) then some domain else none
  toLower_ascii _ _ := rfl
  toASCII_idem domain ascii h := by
    split_ifs at h with hall
    cases h
    exact if_pos hall

def alice : Text := ['a', 'l', 'i', 'c', 'e']
def oldEmail : Text := ['o', 'l', 'd', '@', 'x']
def newEmail : Text := ['n', 'e', 'w', '@', 'x']

theorem oldEmail_held :
    ([⟨.updateAccountEmail alice oldEmail, 1, 0⟩, ⟨.updateAccountEmail alice newEmail, 2, 0⟩].foldl
      (EmailState.next asciiUnicode) ⟨.empty, 0⟩).tables.Held asciiUnicode alice oldEmail 3 :=
  (primary_email_held (by simp only [Along]; decide +kernel)).2.1 alice oldEmail 3 (by decide +kernel)
    (by decide +kernel)

/-- The addresses that are not retained are exactly the primary address and those of the history
that expire later. -/
def EmailTables.RowsExact (t : EmailTables) (userID : Text) (now : ℤ) : Prop :=
  ∀ email, t.addresses.load email = some ⟨userID, false⟩ ↔
    email ≠ [] ∧ (email = t.primaryEmail userID ∨ t.protects userID email now = true)

/-- A retained alias that becomes the primary address stays retained, and an address that was
reserved by itself outlives a release. -/
theorem rows_not_exact :
    (∃ t', updateAccountEmail asciiUnicode
      (EmailState.next asciiUnicode ⟨.empty, 0⟩
        ⟨.reserveAccountEmails alice [⟨oldEmail, true⟩] true, 1, 0⟩).tables 0 alice oldEmail 2 =
          .ok t' ∧ ¬t'.RowsExact alice 2) ∧
    ∃ t', releaseExpiredPrimaryEmails
      (EmailState.next asciiUnicode ⟨.empty, 0⟩
        ⟨.reserveAccountEmails alice [⟨oldEmail, true⟩] false, 1, 0⟩).tables 0 alice 2 =
          .ok t' ∧ ¬t'.RowsExact alice 2 := by
  constructor
  · refine ⟨⟨GoMap.store ∅ alice ⟨⟨true, 3⟩, oldEmail⟩, GoMap.store ∅ oldEmail ⟨alice, true⟩, ∅⟩,
      rfl, fun hexact => ?_⟩
    have hrow := (hexact oldEmail).mpr ⟨by decide, .inl (by decide +kernel)⟩
    exact absurd hrow (by decide +kernel)
  · refine ⟨⟨∅, GoMap.store ∅ oldEmail ⟨alice, false⟩, ∅⟩, rfl, fun hexact => ?_⟩
    have hkind := (hexact oldEmail).mp (by decide +kernel)
    exact absurd hkind (by decide +kernel)

end RenoP.Accounts
