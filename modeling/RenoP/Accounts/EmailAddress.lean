import RenoP.Maven.Domains
import Mathlib.Data.List.Infix

/-!
# Email addresses

`NormalizeEmail` of `internal/core/account_security.go`. The ASCII form of a domain is that of
`idna.Lookup`, which is outside.
-/

namespace RenoP.Accounts

open RenoP.Database (Text trimSpace isSpace exists_ascii trimSpace_of_noSpace)
open RenoP.Maven (byteLength)

/-- What `strings` knows of letters, and `idna.Lookup`. -/
structure Unicode where
  toLower : Char → Char
  /-- one letter for those that `strings.EqualFold` takes for the same -/
  fold : Char → Char
  toASCII : Text → Option Text
  toLower_ascii : ∀ c, c.val < 128 → toLower c = c.toLower
  /-- a domain in ASCII form is its own -/
  toASCII_idem : ∀ domain ascii, toASCII domain = some ascii → toASCII ascii = some ascii

def maxEmailLength : ℕ := 254

def between (first last c : Char) : Bool := decide (first.val ≤ c.val ∧ c.val ≤ last.val)

def mailboxCharacter (c : Char) : Bool :=
  between 'a' 'z' c || between 'A' 'Z' c || between '0' '9' c ||
    decide (c.val ∈ [33, 35, 36, 37, 38, 39, 42, 43, 45, 47, 61, 63, 94, 95, 96, 123, 124, 125, 126, 46])

/-- What is asked of the part before the `@`. -/
def validMailbox (mailbox : Text) : Bool :=
  decide (mailbox ≠ []) && decide (byteLength mailbox ≤ 64) && decide (mailbox.head? ≠ some '.') &&
    decide (mailbox.getLast? ≠ some '.') && !decide (['.', '.'] <:+: mailbox) &&
    mailbox.all mailboxCharacter

def labelCharacter (c : Char) : Bool :=
  between 'a' 'z' c || between '0' '9' c || decide (c = '-')

def validLabel (label : Text) : Bool :=
  decide (label ≠ []) && decide (byteLength label ≤ 63) && decide (label.head? ≠ some '-') &&
    decide (label.getLast? ≠ some '-') && label.all labelCharacter

def validDomain (ascii : Text) : Bool :=
  decide (ascii ≠ []) && decide (byteLength ascii ≤ 253) && (ascii.splitOn '.').all validLabel

def trimDot (s : Text) : Text := if s.getLast? = some '.' then s.dropLast else s

def normalizeEmail (uni : Unicode) (value : Text) : Option Text :=
  let value := trimSpace value
  if value = [] then some []
  else if byteLength value > maxEmailLength ∨ value.count '@' ≠ 1 then none
  else
    let mailbox := value.takeWhile fun c => decide (c ≠ '@')
    let domain := (value.dropWhile fun c => decide (c ≠ '@')).drop 1
    if validMailbox mailbox = false ∨ domain = [] then none
    else match uni.toASCII (trimDot (domain.map uni.toLower)) with
    | none => none
    | some ascii =>
      let normalized := mailbox.map Char.toLower ++ '@' :: ascii
      if validDomain ascii = true ∧ byteLength normalized ≤ maxEmailLength then some normalized
      else none

structure Lowered (c : Char) : Prop where
  ascii : c.val < 128
  lower : c.toLower = c
  noSpace : isSpace c = false
  noAt : c ≠ '@'
  size : c.utf8Size = 1

theorem lowered_iff {c : Char} : Lowered c ↔
    c.val < 128 ∧ c.toLower = c ∧ isSpace c = false ∧ c ≠ '@' ∧ c.utf8Size = 1 :=
  ⟨fun h => ⟨h.1, h.2, h.3, h.4, h.5⟩, fun ⟨h₁, h₂, h₃, h₄, h₅⟩ => ⟨h₁, h₂, h₃, h₄, h₅⟩⟩

theorem ascii_of_mailboxCharacter {c : Char} (h : mailboxCharacter c = true) : c.val < 128 := by
  simp only [mailboxCharacter, between, Bool.or_eq_true, decide_eq_true_eq, List.mem_cons,
    List.not_mem_nil, or_false] at h
  rw [UInt32.lt_iff_toNat_lt]
  simp only [UInt32.le_iff_toNat_le, ← UInt32.toNat_inj] at h
  simp at h ⊢
  omega

theorem mailboxCharacter_toLower {c : Char} (h : mailboxCharacter c = true) :
    mailboxCharacter c.toLower = true ∧ Lowered c.toLower ∧ (c.toLower = '.' ↔ c = '.') ∧
      c.utf8Size = 1 := by
  obtain ⟨n, hn, rfl⟩ := exists_ascii (ascii_of_mailboxCharacter h)
  have hall : ∀ n < 128, mailboxCharacter (Char.ofNat n) = true →
      mailboxCharacter (Char.ofNat n).toLower = true ∧ Lowered (Char.ofNat n).toLower ∧
        ((Char.ofNat n).toLower = '.' ↔ Char.ofNat n = '.') ∧ (Char.ofNat n).utf8Size = 1 := by
    simp only [lowered_iff]
    decide +kernel
  exact hall n hn h

theorem lowered_of_labelCharacter {c : Char} (h : labelCharacter c = true) : Lowered c := by
  have hmailbox : mailboxCharacter c = true := by
    simp only [labelCharacter, Bool.or_eq_true, decide_eq_true_eq] at h
    rcases h with (hlower | hdigit) | rfl
    · simp [mailboxCharacter, hlower]
    · simp [mailboxCharacter, hdigit]
    · rfl
  obtain ⟨n, hn, rfl⟩ := exists_ascii (ascii_of_mailboxCharacter hmailbox)
  have hall : ∀ n < 128, labelCharacter (Char.ofNat n) = true → Lowered (Char.ofNat n) := by
    simp only [lowered_iff]
    decide +kernel
  exact hall n hn h

theorem mem_splitOn {sep c : Char} {s : Text} (hc : c ∈ s) (hne : c ≠ sep) :
    ∃ part ∈ s.splitOn sep, c ∈ part := by
  induction s with
  | nil => cases hc
  | cons d s ih =>
    rw [List.splitOn_cons_eq_if_modifyHead]
    split_ifs with hsep
    · have hd : c ≠ d := by
        rw [beq_iff_eq] at hsep
        rwa [hsep]
      obtain ⟨part, hpart, hmem⟩ := ih ((List.mem_cons.mp hc).resolve_left hd)
      exact ⟨part, List.mem_cons_of_mem _ hpart, hmem⟩
    · obtain ⟨first, rest, hsplit⟩ := List.exists_cons_of_ne_nil (List.splitOn_ne_nil sep s)
      rw [hsplit] at ih ⊢
      rcases List.mem_cons.mp hc with rfl | htail
      · exact ⟨c :: first, List.mem_cons_self .., List.mem_cons_self ..⟩
      · obtain ⟨part, hpart, hmem⟩ := ih htail
        rcases List.mem_cons.mp hpart with rfl | hlater
        · exact ⟨d :: part, List.mem_cons_self .., List.mem_cons_of_mem d hmem⟩
        · exact ⟨part, List.mem_cons_of_mem _ hlater, hmem⟩

theorem lowered_of_validDomain {ascii : Text} (h : validDomain ascii = true) :
    (∀ c ∈ ascii, Lowered c) ∧ ascii.getLast? ≠ some '.' ∧ ascii ≠ [] := by
  simp only [validDomain, Bool.and_eq_true, decide_eq_true_eq, List.all_eq_true] at h
  obtain ⟨⟨hne, -⟩, hlabels⟩ := h
  refine ⟨fun c hc => ?_, fun hlast => ?_, hne⟩
  · by_cases hdot : c = '.'
    · rw [hdot, lowered_iff]
      decide
    · obtain ⟨label, hlabel, hmem⟩ := mem_splitOn hc hdot
      have hvalid := hlabels label hlabel
      simp only [validLabel, Bool.and_eq_true, List.all_eq_true] at hvalid
      exact lowered_of_labelCharacter (hvalid.2 c hmem)
  · obtain ⟨front, hfront⟩ := List.getLast?_eq_some_iff.mp hlast
    rw [hfront, List.splitOn_append_cons_self] at hlabels
    have hempty := hlabels [] (List.mem_append_right _ (List.mem_singleton.mpr rfl))
    cases hempty

theorem validMailbox_toLower {mailbox : Text} (h : validMailbox mailbox = true) :
    validMailbox (mailbox.map Char.toLower) = true := by
  simp only [validMailbox, Bool.and_eq_true, decide_eq_true_eq, Bool.not_eq_true',
    decide_eq_false_iff_not, List.all_eq_true] at h ⊢
  obtain ⟨⟨⟨⟨⟨hne, hlength⟩, hhead⟩, hlast⟩, hdots⟩, hchars⟩ := h
  have hdot : ∀ c ∈ mailbox, c.toLower = '.' → c = '.' :=
    fun c hc => (mailboxCharacter_toLower (hchars c hc)).2.2.1.mp
  refine ⟨⟨⟨⟨⟨by simpa using hne, ?_⟩, ?_⟩, ?_⟩, ?_⟩, ?_⟩
  · have hsize : byteLength (mailbox.map Char.toLower) = byteLength mailbox := by
      unfold byteLength
      rw [List.map_map]
      refine congrArg List.sum (List.map_congr_left fun c hc => ?_)
      obtain ⟨-, hlowered, -, hone⟩ := mailboxCharacter_toLower (hchars c hc)
      rw [hone]
      exact hlowered.size
    rwa [hsize]
  · intro hdotted
    rw [List.head?_map, Option.map_eq_some_iff] at hdotted
    obtain ⟨c, hc, hlower⟩ := hdotted
    exact hhead (hc.trans (congrArg some (hdot c (List.mem_of_mem_head? hc) hlower)))
  · intro hdotted
    rw [List.getLast?_map, Option.map_eq_some_iff] at hdotted
    obtain ⟨c, hc, hlower⟩ := hdotted
    exact hlast (hc.trans (congrArg some (hdot c (List.mem_of_getLast? hc) hlower)))
  · rintro ⟨front, back, hparts⟩
    obtain ⟨upTo, after, hmailbox, hupTo, -⟩ := List.append_eq_map_iff.mp hparts
    obtain ⟨before, dots, hsplit, -, hmapped⟩ := List.append_eq_map_iff.mp hupTo.symm
    have hsame : dots = ['.', '.'] := by
      obtain ⟨c, d, rfl⟩ : ∃ c d, dots = [c, d] :=
        List.length_eq_two.mp (by simpa using congrArg List.length hmapped)
      simp only [List.map_cons, List.map_nil, List.cons.injEq, and_true] at hmapped
      have hmem : ∀ e ∈ [c, d], e ∈ mailbox := by
        intro e he
        rw [hmailbox, hsplit]
        exact List.mem_append_left _ (List.mem_append_right _ he)
      rw [hdot c (hmem c (by simp)) hmapped.1, hdot d (hmem d (by simp)) hmapped.2]
    rw [hsame] at hsplit
    exact hdots ⟨before, after, by rw [hmailbox, hsplit]⟩
  · intro c hc
    obtain ⟨d, hd, rfl⟩ := List.mem_map.mp hc
    exact (mailboxCharacter_toLower (hchars d hd)).1

theorem trimDot_of_ne {s : Text} (h : s.getLast? ≠ some '.') : trimDot s = s := if_neg h

theorem normalizeEmail_some {uni : Unicode} {value email : Text}
    (h : normalizeEmail uni value = some email) : email = [] ∨
      ∃ mailbox domain ascii, validMailbox mailbox = true ∧ uni.toASCII domain = some ascii ∧
        validDomain ascii = true ∧ byteLength email ≤ maxEmailLength ∧
        email = mailbox.map Char.toLower ++ '@' :: ascii := by
  unfold normalizeEmail at h
  simp only [] at h
  split_ifs at h with hempty hlong hparts
  · exact .inl (Option.some.inj h).symm
  · rw [not_or, Bool.not_eq_false] at hparts
    split at h
    · cases h
    · next ascii hascii =>
      split_ifs at h with hvalid
      cases h
      exact .inr ⟨_, _, ascii, hparts.1, hascii, hvalid.1, hvalid.2, rfl⟩

theorem normalizeEmail_idem {uni : Unicode} {value email : Text}
    (h : normalizeEmail uni value = some email) : normalizeEmail uni email = some email := by
  rcases normalizeEmail_some h with
    rfl | ⟨mailbox, domain, ascii, hmailbox, hascii, hvalid, hlength, hemail⟩
  · rfl
  have hlower := validMailbox_toLower hmailbox
  obtain ⟨hchars, hdot, hne⟩ := lowered_of_validDomain hvalid
  have hbefore : ∀ c ∈ mailbox.map Char.toLower, Lowered c := by
    intro c hc
    obtain ⟨d, hd, rfl⟩ := List.mem_map.mp hc
    simp only [validMailbox, Bool.and_eq_true, List.all_eq_true] at hmailbox
    exact (mailboxCharacter_toLower (hmailbox.2 d hd)).2.1
  generalize mailbox.map Char.toLower = before at hemail hlower hbefore
  have htrim : trimSpace email = email := by
    apply trimSpace_of_noSpace
    intro c hc
    rw [hemail, List.mem_append, List.mem_cons] at hc
    rcases hc with hc | rfl | hc
    · exact (hbefore c hc).noSpace
    · rfl
    · exact (hchars c hc).noSpace
  have hcount : email.count '@' = 1 := by
    rw [hemail, List.count_append, List.count_cons_self,
      List.count_eq_zero_of_not_mem fun hat => (hbefore _ hat).noAt rfl,
      List.count_eq_zero_of_not_mem fun hat => (hchars _ hat).noAt rfl]
  have htake : email.takeWhile (fun c => decide (c ≠ '@')) = before := by
    rw [hemail, List.takeWhile_append_of_pos fun c hc => decide_eq_true (hbefore c hc).noAt,
      List.takeWhile_cons_of_neg (by decide), List.append_nil]
  have hdrop : (email.dropWhile (fun c => decide (c ≠ '@'))).drop 1 = ascii := by
    rw [hemail, List.dropWhile_append_of_pos fun c hc => decide_eq_true (hbefore c hc).noAt,
      List.dropWhile_cons_of_neg (by decide)]
    rfl
  have hmap : before.map Char.toLower = before := by
    rw [List.map_congr_left fun c hc => (hbefore c hc).lower, List.map_id']
  have hdomain : trimDot (ascii.map uni.toLower) = ascii := by
    have hsame : ascii.map uni.toLower = ascii := by
      rw [List.map_congr_left fun c hc =>
        (uni.toLower_ascii c (hchars c hc).ascii).trans (hchars c hc).lower, List.map_id']
    rw [hsame, trimDot_of_ne hdot]
  have hempty : email ≠ [] := by
    rw [hemail]
    simp
  unfold normalizeEmail
  simp only [htrim, hempty, if_false, hcount, htake, hdrop, hlower, hne, hdomain,
    uni.toASCII_idem domain ascii hascii, hvalid, hmap]
  simp [← hemail, hlength]

end RenoP.Accounts
