import RenoP.Accounts.PrimaryEmail

/-!
# Transactions on addresses

What a transaction that succeeds does to the addresses of its account, and that it leaves those
of the others alone.
-/

namespace RenoP.Accounts

open RenoP.Database (Text)
open Fallible (refuse bind_ok refuse_ok refuse_bind_ok foldlM_cons_ok)

variable {uni : Unicode} {t t' t'' : EmailTables} {userID email : Text} {now : ℤ}

def EmailTables.Owns (t : EmailTables) (userID email : Text) : Prop :=
  ∃ retained, t.addresses.load email = some ⟨userID, retained⟩

theorem EmailTables.Owns.unique {user : Text} (h : t.Owns userID email) (h' : t.Owns user email) :
    userID = user := by
  obtain ⟨retained, hload⟩ := h
  obtain ⟨retained', hload'⟩ := h'
  rw [hload, Option.some.injEq, AddressRow.mk.injEq] at hload'
  exact hload'.1

theorem protects_iff : t.protects userID email now = true ↔
    ∃ expiresAt, t.history.load (userID, email) = some expiresAt ∧ now < expiresAt := by
  unfold EmailTables.protects
  cases t.history.load (userID, email) with
  | none => simp
  | some expiresAt => simp

structure OthersKept (t t' : EmailTables) (userID : Text) : Prop where
  security : ∀ user, user ≠ userID → t'.security.load user = t.security.load user
  history : ∀ user email, user ≠ userID →
    t'.history.load (user, email) = t.history.load (user, email)
  addresses : ∀ email row, row.userID ≠ userID →
    (t'.addresses.load email = some row ↔ t.addresses.load email = some row)

theorem OthersKept.refl (t : EmailTables) (userID : Text) : OthersKept t t userID :=
  ⟨fun _ _ => rfl, fun _ _ _ => rfl, fun _ _ _ => Iff.rfl⟩

theorem OthersKept.trans (h : OthersKept t t' userID) (h' : OthersKept t' t'' userID) :
    OthersKept t t'' userID :=
  ⟨fun user hne => (h'.security user hne).trans (h.security user hne),
    fun user email hne => (h'.history user email hne).trans (h.history user email hne),
    fun email row hne => (h'.addresses email row hne).trans (h.addresses email row hne)⟩

theorem load_deleteAddresses {p : Text → AddressRow → Bool} {row : AddressRow} :
    (t.deleteAddresses p).addresses.load email = some row ↔
      t.addresses.load email = some row ∧ p email row = false := by
  unfold EmailTables.deleteAddresses
  rw [GoMap.load_deleteWhere, Option.filter_eq_some_iff, Bool.not_eq_true']

theorem othersKept_deleteAddresses {p : Text → AddressRow → Bool}
    (h : ∀ email row, p email row = true → row.userID = userID) :
    OthersKept t (t.deleteAddresses p) userID := by
  refine ⟨fun _ _ => rfl, fun _ _ _ => rfl, fun email row hne => ?_⟩
  rw [load_deleteAddresses, and_iff_left_iff_imp]
  intro _
  exact Bool.eq_false_iff.mpr fun hp => hne (h email row hp)

theorem othersKept_security (row : EmailSecurityRow) :
    OthersKept t { t with security := t.security.store userID row } userID :=
  ⟨fun _ hne => GoMap.load_store_ne _ _ hne, fun _ _ _ => rfl, fun _ _ _ => Iff.rfl⟩

theorem primaryEmail_store (row : EmailSecurityRow) :
    EmailTables.primaryEmail { t with security := t.security.store userID row } userID =
      row.email := by
  unfold EmailTables.primaryEmail
  rw [GoMap.load_store_self]
  rfl

theorem addProof_ok {proof : ProviderEmail} {verified verified' : GoMap Text Bool}
    (h : addProof uni verified proof = .ok verified') :
    ∃ found, normalizeEmail uni proof.email = some found ∧
      ∀ email, email ∈ verified'.keys ↔ email = found ∨ email ∈ verified.keys := by
  unfold addProof at h
  split at h
  · cases h
  · cases h
  · next found _ hfound =>
    cases h
    exact ⟨found, hfound, fun _ => AList.mem_insert _⟩

theorem verifiedEmails_keys {proofs : List ProviderEmail} {verified : GoMap Text Bool}
    (h : verifiedEmails uni proofs = .ok verified) (email : Text) :
    email ∈ verified.keys ↔ ∃ proof ∈ proofs, normalizeEmail uni proof.email = some email := by
  have hfold : ∀ (proofs : List ProviderEmail) (start : GoMap Text Bool),
      proofs.foldlM (addProof uni) start = .ok verified →
      (email ∈ verified.keys ↔ email ∈ start.keys ∨
        ∃ proof ∈ proofs, normalizeEmail uni proof.email = some email) := by
    intro proofs
    induction proofs with
    | nil =>
      intro start hrun
      cases hrun
      simp
    | cons proof proofs ih =>
      intro start hrun
      obtain ⟨next, hstep, hrest⟩ := foldlM_cons_ok hrun
      obtain ⟨found, hfound, hkeys⟩ := addProof_ok hstep
      rw [ih next hrest, hkeys, List.exists_mem_cons_iff, hfound, Option.some.injEq, eq_comm, or_assoc,
        or_left_comm]
  rw [hfold proofs ∅ h]
  exact or_iff_right List.not_mem_nil

structure Reserved (t t' : EmailTables) (userID : Text) (retained : Bool) (emails : List Text) :
    Prop where
  others : OthersKept t t' userID
  security : t'.security = t.security
  history : t'.history = t.history
  owned : ∀ email ∈ emails, t'.Owns userID email
  kept : ∀ email, t.Owns userID email → t'.Owns userID email
  unretained : ∀ email, t'.addresses.load email = some ⟨userID, false⟩ →
    t.addresses.load email = some ⟨userID, false⟩ ∨ retained = false ∧ email ∈ emails

theorem owns_of_owner (h : t.owner email ≠ []) (howner : t.owner email = userID) :
    t.Owns userID email := by
  unfold EmailTables.owner at h howner
  cases hload : t.addresses.load email with
  | none =>
    rw [hload] at h
    exact absurd rfl h
  | some row =>
    rw [hload] at howner
    exact ⟨row.retained, by rw [← howner]; exact hload⟩

theorem load_storeAddresses {retained : Bool} {values promote : List Text} (email : Text) :
    (t.storeAddresses userID retained values promote).addresses.load email =
      (if email ∈ values then some ⟨userID, retained⟩ else t.addresses.load email).map fun row =>
        if row.userID = userID ∧ email ∈ promote then { row with retained := true } else row := by
  unfold EmailTables.storeAddresses
  simp only [GoMap.load_updateWhere, Bool.and_eq_true, decide_eq_true_eq]
  refine congrArg _ ?_
  rcases GoMap.load_storeAll t.addresses
    (values.map fun email => (email, (⟨userID, retained⟩ : AddressRow))) email with
    ⟨row, hmem, hload⟩ | ⟨hnone, hload⟩
  · obtain ⟨email', hemail', heq⟩ := List.mem_map.mp hmem
    rw [Prod.mk.injEq] at heq
    rw [hload, if_pos (heq.1 ▸ hemail'), heq.2]
  · rw [hload, if_neg fun hmem => hnone _ (List.mem_map.mpr ⟨email, hmem, rfl⟩)]

theorem reserved_storeAddresses {retained : Bool} {emails values promote : List Text}
    (hvalues : ∀ email ∈ values, t.addresses.load email = none)
    (hemails : ∀ email ∈ emails, email ∈ values ∨ t.Owns userID email)
    (hsub : ∀ email ∈ values, email ∈ emails) :
    Reserved t (t.storeAddresses userID retained values promote) userID retained emails := by
  have hkept : ∀ email, t.Owns userID email →
      (t.storeAddresses userID retained values promote).Owns userID email := by
    intro email howns
    obtain ⟨keep, hload⟩ := howns
    have hnew : email ∉ values := by
      intro hmem
      rw [hvalues email hmem] at hload
      cases hload
    unfold EmailTables.Owns
    rw [load_storeAddresses, if_neg hnew, hload, Option.map_some]
    split_ifs
    · exact ⟨true, rfl⟩
    · exact ⟨keep, rfl⟩
  refine ⟨⟨fun _ _ => rfl, fun _ _ _ => rfl, ?_⟩, rfl, rfl, ?_, hkept, ?_⟩
  · intro email row hne
    rw [load_storeAddresses]
    by_cases hmem : email ∈ values
    · rw [if_pos hmem, hvalues email hmem, Option.map_some]
      constructor
      · intro heq
        rw [← Option.some.inj heq] at hne
        split_ifs at hne <;> exact absurd rfl hne
      · intro heq
        cases heq
    · rw [if_neg hmem, Option.map_eq_some_iff]
      constructor
      · rintro ⟨row', hload, heq⟩
        split_ifs at heq with hpromote
        · exact absurd (by rw [← heq]; exact hpromote.1) hne
        · rwa [heq] at hload
      · intro hload
        exact ⟨row, hload, if_neg fun h => hne h.1⟩
  · intro email hmem
    rcases hemails email hmem with hvalue | howns
    · unfold EmailTables.Owns
      rw [load_storeAddresses, if_pos hvalue, Option.map_some]
      split_ifs
      · exact ⟨true, rfl⟩
      · exact ⟨retained, rfl⟩
    · exact hkept email howns
  · intro email hload
    rw [load_storeAddresses, Option.map_eq_some_iff] at hload
    obtain ⟨row, hrow, heq⟩ := hload
    split_ifs at heq with hpromote
    · cases heq
    · rw [heq] at hrow
      split_ifs at hrow with hvalue
      · exact .inr ⟨by cases hrow; rfl, hsub email hvalue⟩
      · exact .inl hrow

theorem reserveAccountEmails_ok {proofs : List ProviderEmail} {retained changed : Bool}
    (h : reserveAccountEmails uni t userID proofs retained = .ok (t', changed)) :
    ∃ emails, (∀ email, email ∈ emails ↔
      ∃ proof ∈ proofs, normalizeEmail uni proof.email = some email) ∧
      Reserved t t' userID retained emails := by
  unfold reserveAccountEmails at h
  split_ifs at h with hproofs
  · cases h
    refine ⟨[], fun email => by simp [hproofs], .refl t userID, rfl, rfl, ?_, fun _ h => h, ?_⟩
    · exact fun _ hmem => absurd hmem List.not_mem_nil
    · exact fun _ h => .inl h
  · obtain ⟨-, h⟩ := refuse_bind_ok h
    obtain ⟨verified, hverified, h⟩ := bind_ok h
    obtain ⟨u, hchecks, h⟩ := bind_ok h
    obtain ⟨-, h⟩ := refuse_bind_ok h
    obtain ⟨hprimary, h⟩ := refuse_bind_ok h
    cases h
    have hmem : ∀ email, email ∈ verified.keys.insertionSort (· ≤ ·) ↔ email ∈ verified.keys :=
      fun email => (List.perm_insertionSort _ _).mem_iff
    refine ⟨verified.keys.insertionSort (· ≤ ·), fun email => ?_, ?_⟩
    · rw [hmem]
      exact verifiedEmails_keys hverified email
    · apply reserved_storeAddresses
      · intro email hvalue
        by_contra hsome
        refine hprimary ⟨email, hvalue, ?_⟩
        rw [GoMap.has, Option.isSome_iff_ne_none]
        exact hsome
      · intro email hemail
        by_cases howner : t.owner email = []
        · exact .inl (List.mem_filter.mpr ⟨hemail, decide_eq_true howner⟩)
        · have hcheck := Fallible.foldlM_checks hchecks email hemail
          obtain ⟨hforeign, -⟩ := refuse_bind_ok hcheck
          exact .inr (owns_of_owner howner (not_not.mp fun hne => hforeign ⟨howner, hne⟩))
      · exact fun email hvalue => (List.mem_filter.mp hvalue).1

theorem protects_of_le {clock : ℤ} (hclock : clock ≤ now)
    (h : t.protects userID email now = true) : t.protects userID email clock = true := by
  rw [protects_iff] at h ⊢
  obtain ⟨expiresAt, hload, hlater⟩ := h
  exact ⟨expiresAt, hload, hclock.trans_lt hlater⟩

structure Remembered (t t' : EmailTables) (userID next : Text) (now : ℤ) : Prop where
  others : OthersKept t t' userID
  security : t'.security = t.security
  addresses : t'.addresses = t.addresses
  history : ∀ email expiresAt, t'.history.load (userID, email) = some expiresAt →
    t.history.load (userID, email) = some expiresAt ∨ email = t.primaryEmail userID ∧ email ≠ []
  kept : ∀ email, t.protects userID email now = true → t'.protects userID email now = true
  previous : t.primaryEmail userID ≠ [] → t.primaryEmail userID ≠ next →
    t'.protects userID (t.primaryEmail userID) now = true

theorem rememberPrimaryEmail_ok {next : Text}
    (h : rememberPrimaryEmail t userID next now = .ok t') : Remembered t t' userID next now := by
  unfold rememberPrimaryEmail at h
  dsimp only at h
  split_ifs at h with hnow hsame
  · cases h
    exact ⟨.refl t userID, rfl, rfl, fun _ _ h => .inl h, fun _ h => h,
      fun hne hnext => absurd hsame (not_or.mpr ⟨hne, hnext⟩)⟩
  · cases h
    rw [not_or] at hsame
    have hload : ∀ user email, ((t.history.deleteWhere fun k expiresAt =>
        decide (k.1 = userID) && (decide (k.2 = t.primaryEmail userID) ||
          decide (expiresAt ≤ now))).store (userID, t.primaryEmail userID)
            (now + primaryEmailRecoveryPeriod)).load (user, email) =
        if (user, email) = (userID, t.primaryEmail userID) then
          some (now + primaryEmailRecoveryPeriod)
        else (t.history.load (user, email)).filter fun expiresAt =>
          !(decide (user = userID) && (decide (email = t.primaryEmail userID) ||
            decide (expiresAt ≤ now))) := by
      intro user email
      rw [GoMap.load_store, GoMap.load_deleteWhere]
    have hnew : now < now + primaryEmailRecoveryPeriod := by
      unfold primaryEmailRecoveryPeriod
      omega
    refine ⟨⟨fun _ _ => rfl, ?_, fun _ _ _ => Iff.rfl⟩, rfl, rfl, ?_, ?_, ?_⟩
    · intro user email hne
      rw [hload, if_neg fun heq => hne (Prod.mk.inj heq).1]
      cases t.history.load (user, email) with
      | none => rfl
      | some expiresAt => simp [hne]
    · intro email expiresAt hfound
      rw [hload] at hfound
      split_ifs at hfound with hkey
      · exact .inr ⟨(Prod.mk.inj hkey).2, (Prod.mk.inj hkey).2 ▸ hsame.1⟩
      · exact .inl (Option.filter_eq_some_iff.mp hfound).1
    · intro email hprotects
      rw [protects_iff] at hprotects ⊢
      obtain ⟨expiresAt, hfound, hlater⟩ := hprotects
      rw [hload]
      by_cases hkey : (userID, email) = (userID, t.primaryEmail userID)
      · rw [if_pos hkey]
        exact ⟨_, rfl, hnew⟩
      · rw [if_neg hkey, hfound]
        have hne : email ≠ t.primaryEmail userID := fun heq => hkey (by rw [heq])
        refine ⟨expiresAt, ?_, hlater⟩
        simp [hne, hlater]
    · intro _ _
      rw [protects_iff, hload, if_pos rfl]
      exact ⟨_, rfl, hnew⟩

structure Updated (t t' : EmailTables) (userID email : Text) (now : ℤ) : Prop where
  others : OthersKept t t' userID
  row : t'.security.has userID = true
  primary : t'.primaryEmail userID = email
  history : ∀ address expiresAt, t'.history.load (userID, address) = some expiresAt →
    t.history.load (userID, address) = some expiresAt ∨
      address = t.primaryEmail userID ∧ address ≠ []
  owned : email ≠ [] → t'.Owns userID email
  previous : t.primaryEmail userID ≠ [] → t.primaryEmail userID ≠ email →
    t'.protects userID (t.primaryEmail userID) now = true
  kept : ∀ address, t'.protects userID address now = true → t.Owns userID address →
    t'.Owns userID address
  unretained : ∀ address, t'.addresses.load address = some ⟨userID, false⟩ →
    address = email ∨ t'.protects userID address now = true

theorem othersKept_dropUnprotected : OthersKept t (t.dropUnprotected userID email now) userID := by
  apply othersKept_deleteAddresses
  intro address row h
  simp only [Bool.and_eq_true, decide_eq_true_eq] at h
  exact h.1.1.1

theorem reservePrimary_ok (hnormal : normalizeEmail uni email = some email)
    (h : reservePrimary uni t userID email = .ok t') :
    ∃ emails, (∀ address, address ∈ emails ↔ address = email ∧ email ≠ []) ∧
      Reserved t t' userID false emails := by
  unfold reservePrimary at h
  split_ifs at h with hempty
  · cases h
    refine ⟨[], fun address => by simp [hempty], .refl t userID, rfl, rfl, ?_, fun _ h => h, ?_⟩
    · exact fun _ hmem => absurd hmem List.not_mem_nil
    · exact fun _ h => .inl h
  · cases hrun : reserveAccountEmails uni t userID [⟨email, true⟩] false with
    | error err =>
      rw [hrun] at h
      cases h
    | ok result =>
      rw [hrun] at h
      cases h
      obtain ⟨emails, hemails, hresult⟩ := reserveAccountEmails_ok hrun
      refine ⟨emails, fun address => ?_, hresult⟩
      rw [hemails]
      simp [hnormal, hempty, eq_comm]

theorem updateAccountEmailTx_ok (hnormal : normalizeEmail uni email = some email)
    (h : updateAccountEmailTx uni t userID email now = .ok t') : Updated t t' userID email now := by
  obtain ⟨remembered, hremember, h⟩ := bind_ok h
  obtain ⟨reserved, hreserve, h⟩ := bind_ok h
  obtain ⟨-, h⟩ := refuse_bind_ok h
  cases h
  have hremembered := rememberPrimaryEmail_ok hremember
  obtain ⟨emails, hemails, hreserved⟩ := reservePrimary_ok hnormal hreserve
  have hprotects : ∀ address, reserved.protects userID address now =
      remembered.protects userID address now := by
    intro address
    unfold EmailTables.protects
    rw [hreserved.history]
    rfl
  constructor
  · exact hremembered.others.trans (othersKept_dropUnprotected.trans
      (hreserved.others.trans (othersKept_security _)))
  · exact GoMap.has_store_self ..
  · exact primaryEmail_store _
  · intro address expiresAt hload
    apply hremembered.history
    rw [← hload]
    exact congrArg (fun history => GoMap.load history (userID, address)) hreserved.history.symm
  · exact fun hne => hreserved.owned email ((hemails email).mpr ⟨rfl, hne⟩)
  · intro hne hnext
    exact (hprotects _).trans (hremembered.previous hne hnext)
  · intro address haddress howns
    apply hreserved.kept
    obtain ⟨retained, hload⟩ := howns
    refine ⟨retained, load_deleteAddresses.mpr ⟨?_, ?_⟩⟩
    · rw [hremembered.addresses]
      exact hload
    · have hsame : remembered.protects userID address now = true :=
        (hprotects address).symm.trans haddress
      simp [hsame]
  · intro address hload
    rcases hreserved.unretained address hload with hold | ⟨-, hmem⟩
    · have hstays := (load_deleteAddresses.mp hold).2
      simp only [decide_true, Bool.not_false, Bool.true_and, Bool.and_eq_false_iff,
        decide_eq_false_iff_not, not_not, Bool.not_eq_false'] at hstays
      exact hstays.imp_right fun hsame => (hprotects address).trans hsame
    · exact .inl ((hemails address).mp hmem).1

structure Deleted (t t' : EmailTables) (userID email : Text) (now : ℤ) : Prop where
  others : OthersKept t t' userID
  history : t'.history = t.history
  row : t'.security.has userID = true
  primary : t'.primaryEmail userID = t.primaryEmail userID
  notPrimary : email ≠ t.primaryEmail userID
  notHeld : t.protects userID email now = false
  addresses : ∀ address row, t'.addresses.load address = some row ↔
    t.addresses.load address = some row ∧ ¬(row.userID = userID ∧ address = email)

theorem deleteAccountEmailAlias_ok {account : Except EmailError Text} {value : Text}
    (h : deleteAccountEmailAlias uni t account value now = .ok t') :
    ∃ userID email, account = .ok userID ∧ Deleted t t' userID email now := by
  unfold deleteAccountEmailAlias at h
  split at h
  · cases h
  · next email _ =>
    obtain ⟨-, h⟩ := refuse_bind_ok h
    obtain ⟨userID, haccount, h⟩ := bind_ok h
    obtain ⟨hprimary, h⟩ := refuse_bind_ok h
    obtain ⟨hheld, h⟩ := refuse_bind_ok h
    cases h
    refine ⟨userID, email, haccount, ?_, rfl, GoMap.has_store_self .., ?_, hprimary,
      Bool.eq_false_iff.mpr hheld, ?_⟩
    · refine (othersKept_deleteAddresses ?_).trans (othersKept_security _)
      intro address row hdeleted
      simp only [Bool.and_eq_true, decide_eq_true_eq] at hdeleted
      exact hdeleted.1
    · rw [primaryEmail_store]
      unfold EmailTables.securityRow EmailTables.primaryEmail EmailTables.deleteAddresses
      cases t.security.load userID with
      | none => rfl
      | some row => rfl
    · intro address row
      refine load_deleteAddresses.trans ?_
      simp only [Bool.and_eq_false_iff, decide_eq_false_iff_not, not_and_or]

structure Released (t t' : EmailTables) (userID : Text) (now : ℤ) : Prop where
  others : OthersKept t t' userID
  security : t'.security = t.security
  history : ∀ email expiresAt, t'.history.load (userID, email) = some expiresAt ↔
    t.history.load (userID, email) = some expiresAt ∧ now < expiresAt
  addresses : ∀ email row, t'.addresses.load email = some row →
    t.addresses.load email = some row
  kept : ∀ email, t.Owns userID email →
    email = t.primaryEmail userID ∨ t.protects userID email now = true → t'.Owns userID email
  unretained : ∀ email, t'.addresses.load email = some ⟨userID, false⟩ →
    email = t.primaryEmail userID ∨ t.protects userID email now = true ∨
      t.history.has (userID, email) = false

theorem releaseExpiredPrimaryEmails_ok {deletedAt : ℤ}
    (h : releaseExpiredPrimaryEmails t deletedAt userID now = .ok t') :
    Released t t' userID now := by
  obtain ⟨u, -, h⟩ := bind_ok h
  cases h
  refine ⟨⟨fun _ _ => rfl, ?_, ?_⟩, rfl, ?_, ?_, ?_, ?_⟩
  · intro user email hne
    apply GoMap.load_deleteWhere_of_false
    simp [hne]
  · intro email row hne
    refine load_deleteAddresses.trans (and_iff_left ?_)
    simp [hne]
  · intro email expiresAt
    refine (Option.ext_iff.mp (GoMap.load_deleteWhere ..) expiresAt).trans ?_
    rw [Option.filter_eq_some_iff]
    simp [EmailTables.deleteAddresses]
  · exact fun email row hload => (load_deleteAddresses.mp hload).1
  · rintro email ⟨retained, hload⟩ hheld
    refine ⟨retained, load_deleteAddresses.mpr ⟨hload, ?_⟩⟩
    rcases hheld with hprimary | hprotects
    · simp [hprimary]
    · obtain ⟨expiresAt, hhistory, hlater⟩ := protects_iff.mp hprotects
      simp [hhistory, hlater]
  · intro email hload
    have hstays := (load_deleteAddresses.mp hload).2
    by_cases hprimary : email = t.primaryEmail userID
    · exact .inl hprimary
    · refine .inr ?_
      unfold EmailTables.protects GoMap.has
      cases hhistory : t.history.load (userID, email) with
      | none => exact .inr rfl
      | some expiresAt =>
        rw [hhistory] at hstays
        simp [hprimary] at hstays
        exact .inl (by simpa using hstays)

theorem recoveryPrimaryEmail_ok {identifier current : Text} {restore : Bool}
    (h : recoveryPrimaryEmail uni t userID identifier now = .ok (restore, current)) :
    ∃ email, normalizeEmail uni identifier = some email ∧ email ≠ [] ∧ t.Owns userID email ∧
      t.security.has userID = true ∧ (restore = true → current ≠ email) := by
  unfold recoveryPrimaryEmail at h
  split at h
  · cases h
  · cases h
  · next email hne hemail =>
    split at h
    · cases h
    · next address haddress =>
      split at h
      · cases h
      · next security hsecurity =>
        split_ifs at h with hforeign hsame
        all_goals
          cases h
          rw [not_not] at hforeign
          refine ⟨email, hemail, hne, ⟨address.retained, by rw [haddress, ← hforeign]⟩, ?_, ?_⟩
        · exact (GoMap.has_eq_true ..).mpr ⟨security, hforeign ▸ hsecurity⟩
        · exact fun hrestore => absurd hrestore (by decide)
        · exact (GoMap.has_eq_true ..).mpr ⟨security, hforeign ▸ hsecurity⟩
        · exact fun _ => hsame

theorem recoveryPrimaryEmail_of_owns {identifier : Text}
    (hemail : normalizeEmail uni identifier = some email) (hne : email ≠ [])
    (howns : t.Owns userID email) {security : EmailSecurityRow}
    (hrow : t.security.load userID = some security)
    (hheld : security.email = email ∨ t.protects userID email now = true) :
    recoveryPrimaryEmail uni t userID identifier now =
      .ok (decide (security.email ≠ email), security.email) := by
  obtain ⟨retained, hload⟩ := howns
  unfold recoveryPrimaryEmail
  rw [hemail]
  cases email with
  | nil => exact absurd rfl hne
  | cons c rest =>
    simp only [hload, hrow]
    by_cases hsame : security.email = c :: rest
    · simp [hsame]
    · simp [hsame, hheld.resolve_left hsame]

structure Restored (t t' : EmailTables) (userID email : Text) : Prop where
  others : OthersKept t t' userID
  primary : t'.primaryEmail userID = email
  history : ∀ address, t'.history.load (userID, address) = none
  owned : t.Owns userID email → t'.Owns userID email
  unretained : ∀ address, t'.addresses.load address = some ⟨userID, false⟩ → address = email

theorem restorePrimaryEmail_ok {identifier replaced : Text} {email : Text}
    (hemail : normalizeEmail uni identifier = some email) (hrow : t.security.has userID = true)
    (hne : replaced ≠ email)
    (h : restorePrimaryEmail uni t userID identifier replaced = .ok t') :
    Restored t t' userID email := by
  obtain ⟨-, h⟩ := refuse_bind_ok h
  cases h
  rw [hemail, Option.getD_some]
  refine ⟨⟨?_, ?_, ?_⟩, ?_, ?_, ?_, ?_⟩
  · intro user hother
    dsimp only
    rw [GoMap.load_updateWhere]
    cases t.security.load user with
    | none => rfl
    | some row => simp [hother]
  · intro user address hother
    apply GoMap.load_deleteWhere_of_false
    simp [hother]
  · intro address row hother
    dsimp only
    rw [GoMap.load_deleteWhere, Option.filter_eq_some_iff, GoMap.load_deleteWhere,
      Option.filter_eq_some_iff]
    simp [hother]
  · obtain ⟨row, hload⟩ := (GoMap.has_eq_true ..).mp hrow
    unfold EmailTables.primaryEmail
    dsimp only
    rw [GoMap.load_updateWhere, hload]
    simp
  · intro address
    dsimp only
    rw [GoMap.load_deleteWhere, Option.filter_eq_none_iff]
    simp
  · rintro ⟨retained, hload⟩
    refine ⟨retained, ?_⟩
    dsimp only
    rw [GoMap.load_deleteWhere, Option.filter_eq_some_iff, GoMap.load_deleteWhere,
      Option.filter_eq_some_iff]
    simp [hload, hne.symm]
  · intro address hload
    dsimp only at hload
    rw [GoMap.load_deleteWhere, Option.filter_eq_some_iff] at hload
    simpa using hload.2

end RenoP.Accounts
