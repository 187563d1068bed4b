import RenoP.Lib.GoMap
import RenoP.Lib.CivilDate

/-!
# Publication quotas

`internal/database/publication_quota.go` and the window of `internal/core/publication_quota.go`.
A table is a map from its primary key to the other columns. A call returns the tables only
where the source commits its transaction: every other return rolls back. The texts of a
subject are what `strings.ToLower(strings.TrimSpace(_))` leaves of the request.
-/

namespace RenoP.Database

abbrev Text := List Char

inductive QuotaError where
  | publicationQuotaInvalid
  | publicationFileLimit
  | publicationByteLimit
  | publicationCountLimit
  | publicationQuotaReservation
  | userProfileNotFound
  | superTeamNotFound
  | databaseUnavailable
  | store (context : String)
  deriving DecidableEq

structure PublicationQuotaLimits where
  fileLimit : ℤ
  byteLimit : ℤ
  publicationLimit : ℤ
  period : Text
  deriving DecidableEq

structure PublicationQuotaSubject where
  ownerType : Text
  ownerKey : Text
  deriving DecidableEq

structure PublicationQuotaDelta where
  files : ℤ
  bytes : ℤ
  publications : ℤ
  deriving DecidableEq

structure PublicationQuotaUsage where
  files : ℤ
  bytes : ℤ
  publications : ℤ
  deriving DecidableEq

structure PublicationQuotaReservation where
  id : Text
  unlimited : Bool
  deriving DecidableEq

structure PublicationQuotaStoredOverride where
  fileLimit : ℤ
  byteLimit : ℤ
  publicationLimit : ℤ
  period : Text
  unlimited : ℤ
  deriving DecidableEq

structure ReservationRow where
  owner : PublicationQuotaSubject
  periodStart : ℤ
  reserved : PublicationQuotaDelta
  expiresAt : ℤ
  createdAt : ℤ
  deriving DecidableEq

structure Tables where
  profiles : GoMap Text Text
  /-- `tokens`: the deletion time of a name -/
  deletedAt : GoMap Text ℤ
  /-- `super_teams`: the prefixes -/
  superTeams : List Text
  overrides : GoMap PublicationQuotaSubject PublicationQuotaStoredOverride
  usage : GoMap (PublicationQuotaSubject × ℤ) PublicationQuotaUsage
  reservations : GoMap Text ReservationRow

def periodDay : Text := ['d', 'a', 'y']
def periodWeek : Text := ['w', 'e', 'e', 'k']
def periodMonth : Text := ['m', 'o', 'n', 't', 'h']
def periodLifetime : Text := ['l', 'i', 'f', 'e', 't', 'i', 'm', 'e']

def validPublicationQuotaPeriod (period : Text) : Bool :=
  period == periodDay || period == periodWeek || period == periodMonth || period == periodLifetime

def dayMillis : ℤ := 24 * 60 * 60 * 1000

/-- Start and end of the window of `now`, in Unix milliseconds. -/
def publicationQuotaWindow (period : Text) (now : ℤ) : Option (ℤ × ℤ) :=
  let today := now / dayMillis
  if period = periodLifetime then some (0, 0)
  else if period = periodDay then some (today * dayMillis, (today + 1) * dayMillis)
  else if period = periodWeek then
    let start := today - CivilDate.weekdayFromMonday today
    some (start * dayMillis, (start + 7) * dayMillis)
  else if period = periodMonth then
    let year := CivilDate.year today
    let month := CivilDate.month today
    some (CivilDate.days year month 1 * dayMillis, CivilDate.days year (month + 1) 1 * dayMillis)
  else none

def ownerUser : Text := ['u', 's', 'e', 'r']
def ownerSuperTeam : Text := ['s', 'u', 'p', 'e', 'r', '_', 't', 'e', 'a', 'm']

def isSpace (c : Char) : Bool :=
  (9 ≤ c.val && c.val ≤ 13) || c.val == 0x20 || c.val == 0x85 || c.val == 0xA0 || c.val == 0x1680 ||
    (0x2000 ≤ c.val && c.val ≤ 0x200a) || c.val == 0x2028 || c.val == 0x2029 || c.val == 0x202f ||
    c.val == 0x205f || c.val == 0x3000

def trimSpace (s : Text) : Text := ((s.dropWhile isSpace).reverse.dropWhile isSpace).reverse

theorem trimSpace_of_noSpace {s : Text} (h : ∀ c ∈ s, isSpace c = false) : trimSpace s = s := by
  have hkept : ∀ t : Text, (∀ c ∈ t, isSpace c = false) → t.dropWhile isSpace = t := by
    intro t ht
    cases t with
    | nil => rfl
    | cons c t =>
      rw [List.dropWhile_cons_of_neg]
      simp [ht c (List.mem_cons_self ..)]
  unfold trimSpace
  rw [hkept s h, hkept _ fun c hc => h c (List.mem_reverse.mp hc), List.reverse_reverse]

theorem exists_ascii {c : Char} (h : c.val < 128) : ∃ n < 128, c = Char.ofNat n :=
  ⟨c.toNat, h, (Char.ofNat_toNat c).symm⟩

def sanitizeControlBytes (s : Text) : Text :=
  s.filter fun c => (32 ≤ c.val || c == '\t' || c == '\n' || c == '\r') && c.val != 127

/-- The longest prefix of whole runes in `maxLen` bytes. -/
def truncateUTF8 : Text → ℕ → Text
  | [], _ => []
  | c :: s, maxLen => if c.utf8Size ≤ maxLen then c :: truncateUTF8 s (maxLen - c.utf8Size) else []

def minSuperTeamPrefixLength : ℕ := 2
def maxSuperTeamPrefixLength : ℕ := 64

def isPrefixAlnum (c : Char) : Bool := ('a' ≤ c && c ≤ 'z') || ('0' ≤ c && c ≤ '9')

def normalizeSuperTeamPrefix (s : Text) : Option Text :=
  let s := trimSpace s
  -- a longer byte count than the number of characters means a character that is refused below
  if s.length < minSuperTeamPrefixLength || s.length > maxSuperTeamPrefixLength then none
  else if s.all (fun c => isPrefixAlnum c || c == '-' || c == '_') &&
      s.head?.all isPrefixAlnum && s.getLast?.all isPrefixAlnum then some s
  else none

def sanitizeSuperTeamPrefix (s : Text) : Option Text :=
  normalizeSuperTeamPrefix
    (truncateUTF8 (sanitizeControlBytes (trimSpace s)) maxSuperTeamPrefixLength)

def userIDForUsernameTx (t : Tables) (username : Text) : Option Text :=
  match t.profiles.load username with
  | none => none
  | some userID => if (t.deletedAt.load username).getD 0 > 0 then none else some userID

/-- The owner that a subject names. `newUser` is what `id.New()` returns for a name without a
profile. -/
def normalizePublicationQuotaSubjectTx (t : Tables) (subject : PublicationQuotaSubject)
    (createMissingUser : Bool) (newUser : Text) :
    Except QuotaError (PublicationQuotaSubject × Tables) :=
  if subject.ownerKey = [] then .error .publicationQuotaInvalid
  else if subject.ownerType = ownerUser then
    match userIDForUsernameTx t subject.ownerKey with
    | some userID => .ok (⟨ownerUser, userID⟩, t)
    | none =>
      if !createMissingUser then .error .userProfileNotFound
      -- both columns are unique: the profile of a deleted account is still there
      else if t.profiles.has subject.ownerKey || t.profiles.entries.any (·.2 = newUser) then
        .error (.store "create publication quota user identity")
      else .ok (⟨ownerUser, newUser⟩, { t with profiles := t.profiles.store subject.ownerKey newUser })
  else if subject.ownerType = ownerSuperTeam then
    match sanitizeSuperTeamPrefix subject.ownerKey with
    | none => .error .superTeamNotFound
    | some team =>
      if t.superTeams.contains team then .ok (⟨ownerSuperTeam, team⟩, t)
      else .error .superTeamNotFound
  else .error .publicationQuotaInvalid

def validatePublicationQuotaLimits (limits : PublicationQuotaLimits) : Bool :=
  decide (0 ≤ limits.fileLimit) && decide (0 ≤ limits.byteLimit) &&
    decide (0 ≤ limits.publicationLimit) && validPublicationQuotaPeriod limits.period

/-- Effective limits, whether they are inherited and whether the owner is unlimited. -/
def effectivePublicationQuotaTx (t : Tables) (subject : PublicationQuotaSubject)
    (defaults : PublicationQuotaLimits) : Except QuotaError (PublicationQuotaLimits × Bool × Bool) :=
  if !validatePublicationQuotaLimits defaults then .error .publicationQuotaInvalid
  else match t.overrides.load subject with
  | none => .ok (defaults, true, false)
  | some stored =>
    .ok ({ fileLimit := if 0 ≤ stored.fileLimit then stored.fileLimit else defaults.fileLimit
           byteLimit := if 0 ≤ stored.byteLimit then stored.byteLimit else defaults.byteLimit
           publicationLimit :=
             if 0 ≤ stored.publicationLimit then stored.publicationLimit
             else defaults.publicationLimit
           period :=
             if validPublicationQuotaPeriod stored.period then stored.period
             else defaults.period }, false, stored.unlimited == 1)

def loadPublicationQuotaUsageTx (t : Tables) (subject : PublicationQuotaSubject)
    (periodStart : ℤ) : PublicationQuotaUsage :=
  (t.usage.load (subject, periodStart)).getD ⟨0, 0, 0⟩

/-- `WHERE owner_type = ? AND owner_key = ? AND period_start = ? AND expires_at > ?` -/
def ReservationRow.counts (subject : PublicationQuotaSubject) (periodStart now : ℤ)
    (row : ReservationRow) : Bool :=
  decide (row.owner = subject) && decide (row.periodStart = periodStart) &&
    decide (now < row.expiresAt)

def loadPublicationQuotaReservationsTx (t : Tables) (subject : PublicationQuotaSubject)
    (periodStart now : ℤ) : PublicationQuotaUsage :=
  let total (column : PublicationQuotaDelta → ℤ) : ℤ :=
    t.reservations.sum fun _ row =>
      if row.counts subject periodStart now then column row.reserved else 0
  ⟨total (·.files), total (·.bytes), total (·.publications)⟩

def publicationQuotaExceeded (used reserved requested limit : ℤ) : Bool :=
  if used < 0 ∨ reserved < 0 ∨ requested < 0 ∨ limit < 0 ∨ used > limit ∨ reserved > limit - used
  then true
  else decide (requested > limit - used - reserved)

/-- `id` and `newUser` are what `id.New()` returns. -/
def reservePublicationQuota (t : Tables) (id newUser : Text) (subject : PublicationQuotaSubject)
    (defaults : PublicationQuotaLimits) (delta : PublicationQuotaDelta) (now expiresAt : ℤ) :
    Except QuotaError (PublicationQuotaReservation × Tables) :=
  if now ≤ 0 ∨ expiresAt ≤ now ∨ delta.files < 0 ∨ delta.bytes < 0 ∨ delta.publications < 0 ∨
      (delta.files = 0 ∧ delta.bytes = 0 ∧ delta.publications = 0) then
    .error .publicationQuotaInvalid
  else match normalizePublicationQuotaSubjectTx t subject true newUser with
  | .error err => .error err
  | .ok (resolved, tx) =>
    match effectivePublicationQuotaTx tx resolved defaults with
    | .error err => .error err
    | .ok (limits, _, unlimited) =>
      -- nothing is committed here, a profile made above is rolled back
      if unlimited then .ok (⟨[], true⟩, t)
      else match publicationQuotaWindow limits.period now with
      | none => .error .publicationQuotaInvalid
      | some (periodStart, _) =>
        let usage := loadPublicationQuotaUsageTx tx resolved periodStart
        let reserved := loadPublicationQuotaReservationsTx tx resolved periodStart now
        if publicationQuotaExceeded usage.files reserved.files delta.files limits.fileLimit then
          .error .publicationFileLimit
        else if publicationQuotaExceeded usage.bytes reserved.bytes delta.bytes limits.byteLimit then
          .error .publicationByteLimit
        else if publicationQuotaExceeded usage.publications reserved.publications
            delta.publications limits.publicationLimit then
          .error .publicationCountLimit
        else if tx.reservations.has id then
          .error (.store "create publication quota reservation")
        else
          .ok (⟨id, false⟩, { tx with
            reservations := tx.reservations.store id
              ⟨resolved, periodStart, delta, expiresAt, now⟩ })

def maxInt64 : ℤ := 2 ^ 63 - 1

/-- The reservation row is read whatever its `expires_at` is. -/
def commitPublicationQuotaReservation (t : Tables) (id : Text) (committedAt : ℤ) :
    Except QuotaError Tables :=
  if trimSpace id = [] ∨ committedAt ≤ 0 then .error .publicationQuotaInvalid
  else match t.reservations.load id with
  | none => .error .publicationQuotaReservation
  | some row =>
    let usage := loadPublicationQuotaUsageTx t row.owner row.periodStart
    if usage.files > maxInt64 - row.reserved.files ∨ usage.bytes > maxInt64 - row.reserved.bytes ∨
        usage.publications > maxInt64 - row.reserved.publications then
      .error .publicationQuotaInvalid
    else
      .ok { t with
        usage := t.usage.store (row.owner, row.periodStart)
          ⟨usage.files + row.reserved.files, usage.bytes + row.reserved.bytes,
            usage.publications + row.reserved.publications⟩
        reservations := t.reservations.delete id }

def releasePublicationQuotaReservation (t : Tables) (id : Text) : Tables :=
  if trimSpace id = [] then t
  else { t with reservations := t.reservations.delete (trimSpace id) }

def publicationQuotaUsageRetention : ℤ := 45 * dayMillis

def cleanExpiredPublicationQuotaReservations (t : Tables) (now : ℤ) : Except QuotaError Tables :=
  if now ≤ 0 then .error .databaseUnavailable
  else
    let cutoff := now - publicationQuotaUsageRetention
    .ok { t with
      reservations := t.reservations.deleteWhere fun _ row => decide (row.expiresAt ≤ now)
      usage := t.usage.deleteWhere fun key _ => decide (key.2 > 0) && decide (key.2 < cutoff) }

end RenoP.Database
