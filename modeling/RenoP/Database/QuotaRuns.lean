import RenoP.Lib.Runs
import RenoP.Database.PublicationQuota

/-!
# Runs of quota calls

A world is the tables together with what no table keeps: the last clock value, the rows that were
granted and the rows that were committed.
-/

namespace RenoP.Database

inductive QuotaMeasure where
  | files
  | bytes
  | publications
  deriving DecidableEq

def PublicationQuotaDelta.at (d : PublicationQuotaDelta) : QuotaMeasure → ℤ
  | .files => d.files
  | .bytes => d.bytes
  | .publications => d.publications

def PublicationQuotaUsage.at (u : PublicationQuotaUsage) : QuotaMeasure → ℤ
  | .files => u.files
  | .bytes => u.bytes
  | .publications => u.publications

def PublicationQuotaLimits.at (l : PublicationQuotaLimits) : QuotaMeasure → ℤ
  | .files => l.fileLimit
  | .bytes => l.byteLimit
  | .publications => l.publicationLimit

inductive QuotaCall where
  | reserve (id newUser : Text) (subject : PublicationQuotaSubject)
      (defaults : PublicationQuotaLimits) (delta : PublicationQuotaDelta) (now expiresAt : ℤ)
  | commit (id : Text) (committedAt : ℤ)
  | release (id : Text)
  | clean (now : ℤ)

def QuotaCall.clock : QuotaCall → Option ℤ
  | .reserve _ _ _ _ _ now _ => some now
  | .commit _ committedAt => some committedAt
  | .release _ => none
  | .clean now => some now

structure World where
  tables : Tables
  clock : ℤ
  granted : List ReservationRow
  committed : List ReservationRow

def World.next (w : World) : QuotaCall → World
  | .reserve id newUser subject defaults delta now expiresAt =>
    match reservePublicationQuota w.tables id newUser subject defaults delta now expiresAt with
    | .error _ => { w with clock := now }
    | .ok (reservation, t) =>
      let row := if reservation.unlimited then none else t.reservations.load reservation.id
      { w with tables := t, clock := now, granted := row.toList ++ w.granted }
  | .commit id committedAt =>
    match commitPublicationQuotaReservation w.tables id committedAt with
    | .error _ => { w with clock := committedAt }
    | .ok t =>
      { w with
        tables := t, clock := committedAt
        committed := (w.tables.reservations.load id).toList ++ w.committed }
  | .release id => { w with tables := releasePublicationQuotaReservation w.tables id }
  | .clean now =>
    match cleanExpiredPublicationQuotaReservations w.tables now with
    | .error _ => { w with clock := now }
    | .ok t => { w with tables := t, clock := now }

def World.start (t : Tables) (clock : ℤ) : World := ⟨t, clock, [], []⟩

def ReservationRow.inWindow (o : PublicationQuotaSubject) (p : ℤ) (row : ReservationRow) : Bool :=
  decide (row.owner = o) && decide (row.periodStart = p)

def spentOf (o : PublicationQuotaSubject) (p : ℤ) : List ReservationRow → PublicationQuotaUsage
  | [] => ⟨0, 0, 0⟩
  | row :: rows =>
    let rest := spentOf o p rows
    if row.inWindow o p then
      ⟨rest.files + row.reserved.files, rest.bytes + row.reserved.bytes,
        rest.publications + row.reserved.publications⟩
    else rest

def World.spent (w : World) (o : PublicationQuotaSubject) (p : ℤ) : PublicationQuotaUsage :=
  spentOf o p w.committed

def World.latestGrant (w : World) (o : PublicationQuotaSubject) (p : ℤ) : Option ℤ :=
  (w.granted.find? fun row => row.inWindow o p).map (·.createdAt)

def World.counted (w : World) (o : PublicationQuotaSubject) (p : ℤ) : PublicationQuotaUsage :=
  match w.latestGrant o p with
  | none => ⟨0, 0, 0⟩
  | some g => loadPublicationQuotaReservationsTx w.tables o p g

def Timely (w : World) (c : QuotaCall) : Prop := ∀ now ∈ c.clock, w.clock ≤ now

instance (w : World) (c : QuotaCall) : Decidable (Timely w c) :=
  inferInstanceAs (Decidable (∀ now ∈ c.clock, w.clock ≤ now))

/-- The owner is metered by `limits` whenever it reserves. -/
def InForce (o : PublicationQuotaSubject) (limits : PublicationQuotaLimits) (w : World) :
    QuotaCall → Prop
  | .reserve _ newUser subject defaults _ _ _ =>
    ∀ tx, normalizePublicationQuotaSubjectTx w.tables subject true newUser = .ok (o, tx) →
      ∃ inherited, effectivePublicationQuotaTx tx o defaults = .ok (limits, inherited, false)
  | _ => True

def CommitCounted (o : PublicationQuotaSubject) (limits : PublicationQuotaLimits) (w : World) :
    QuotaCall → Prop
  | .commit id _ =>
    ∀ row, w.tables.reservations.load id = some row → row.owner = o →
      (∃ g, w.latestGrant o row.periodStart = some g ∧ g < row.expiresAt) ∨
      ∀ m, publicationQuotaExceeded ((w.spent o row.periodStart).at m)
        ((w.counted o row.periodStart).at m) (row.reserved.at m) (limits.at m) = false
  | _ => True

theorem exceeded_eq_false (used reserved requested limit : ℤ) :
    publicationQuotaExceeded used reserved requested limit = false ↔
      0 ≤ used ∧ 0 ≤ reserved ∧ 0 ≤ requested ∧ used + reserved + requested ≤ limit := by
  unfold publicationQuotaExceeded
  split_ifs with h
  · constructor
    · intro h'
      exact absurd h' (by decide)
    · intro h'
      omega
  · rw [decide_eq_false_iff_not]
    constructor <;> intro h' <;> omega

theorem spentOf_cons (o : PublicationQuotaSubject) (p : ℤ) (row : ReservationRow)
    (rows : List ReservationRow) (m : QuotaMeasure) :
    (spentOf o p (row :: rows)).at m =
      (spentOf o p rows).at m + if row.inWindow o p then row.reserved.at m else 0 := by
  simp only [spentOf]
  split_ifs with h
  · cases m <;> rfl
  · exact (add_zero _).symm

/-- The rows of a window that a call at `now` counts, as a weight. -/
def rowWeight (o : PublicationQuotaSubject) (p now : ℤ) (m : QuotaMeasure) (_ : Text)
    (row : ReservationRow) : ℤ :=
  if row.counts o p now then row.reserved.at m else 0

theorem reservations_at (t : Tables) (o : PublicationQuotaSubject) (p now : ℤ)
    (m : QuotaMeasure) :
    (loadPublicationQuotaReservationsTx t o p now).at m =
      t.reservations.sum (rowWeight o p now m) := by
  cases m <;> rfl

theorem counts_eq (o : PublicationQuotaSubject) (p now : ℤ) (row : ReservationRow) :
    row.counts o p now = (row.inWindow o p && decide (now < row.expiresAt)) := rfl

theorem inWindow_iff (o : PublicationQuotaSubject) (p : ℤ) (row : ReservationRow) :
    row.inWindow o p = true ↔ row.owner = o ∧ row.periodStart = p := by
  rw [ReservationRow.inWindow, Bool.and_eq_true, decide_eq_true_eq, decide_eq_true_eq]

theorem window_recent {period : Text} {now start stop : ℤ}
    (h : publicationQuotaWindow period now = some (start, stop)) :
    start ≤ 0 ∨ now - publicationQuotaUsageRetention ≤ start := by
  have hw := CivilDate.weekdayFromMonday_range (now / dayMillis)
  have hd := CivilDate.day_range (now / dayMillis)
  have hm := CivilDate.days_year_month (now / dayMillis) 1
  have hn : now / dayMillis * dayMillis ≤ now ∧ now < (now / dayMillis + 1) * dayMillis := by
    unfold dayMillis
    omega
  unfold publicationQuotaWindow at h
  simp only [hm] at h
  generalize now / dayMillis = today at h hw hd hn
  unfold publicationQuotaUsageRetention
  unfold dayMillis at h hn ⊢
  split_ifs at h <;> simp only [Option.some.injEq, Prod.mk.injEq] at h <;> omega

theorem normalize_keeps {t tx : Tables} {subject o : PublicationQuotaSubject} {create : Bool}
    {newUser : Text}
    (h : normalizePublicationQuotaSubjectTx t subject create newUser = .ok (o, tx)) :
    tx.usage = t.usage ∧ tx.reservations = t.reservations := by
  unfold normalizePublicationQuotaSubjectTx at h
  repeat' split at h
  all_goals cases h
  all_goals exact ⟨rfl, rfl⟩

theorem reserve_cases {t t' : Tables} {id newUser : Text} {subject : PublicationQuotaSubject}
    {defaults : PublicationQuotaLimits} {delta : PublicationQuotaDelta} {now expiresAt : ℤ}
    {reservation : PublicationQuotaReservation}
    (h : reservePublicationQuota t id newUser subject defaults delta now expiresAt =
      .ok (reservation, t')) :
    (reservation.unlimited = true ∧ t' = t) ∨
      ∃ o tx limits inherited start stop,
        normalizePublicationQuotaSubjectTx t subject true newUser = .ok (o, tx) ∧
        effectivePublicationQuotaTx tx o defaults = .ok (limits, inherited, false) ∧
        publicationQuotaWindow limits.period now = some (start, stop) ∧
        now < expiresAt ∧
        (∀ m, publicationQuotaExceeded ((loadPublicationQuotaUsageTx t o start).at m)
          ((loadPublicationQuotaReservationsTx t o start now).at m) (delta.at m)
          (limits.at m) = false) ∧
        t.reservations.load id = none ∧ reservation = ⟨id, false⟩ ∧ t'.usage = t.usage ∧
        t'.reservations = t.reservations.store id ⟨o, start, delta, expiresAt, now⟩ := by
  unfold reservePublicationQuota at h
  split_ifs at h with hargs
  cases hn : normalizePublicationQuotaSubjectTx t subject true newUser with
  | error err =>
    rw [hn] at h
    cases h
  | ok resolved =>
    obtain ⟨o, tx⟩ := resolved
    obtain ⟨hu, hr⟩ := normalize_keeps hn
    simp only [hn] at h
    cases he : effectivePublicationQuotaTx tx o defaults with
    | error err =>
      rw [he] at h
      cases h
    | ok effective =>
      obtain ⟨limits, inherited, unlimited⟩ := effective
      simp only [he] at h
      cases unlimited with
      | true =>
        left
        simp only [if_true, Except.ok.injEq, Prod.mk.injEq] at h
        obtain ⟨rfl, rfl⟩ := h
        exact ⟨rfl, rfl⟩
      | false =>
        right
        simp only [Bool.false_eq_true, if_false] at h
        cases hw : publicationQuotaWindow limits.period now with
        | none =>
          rw [hw] at h
          cases h
        | some bounds =>
          obtain ⟨start, stop⟩ := bounds
          simp only [hw] at h
          split_ifs at h with hf hb hp hid
          simp only [Except.ok.injEq, Prod.mk.injEq] at h
          obtain ⟨rfl, rfl⟩ := h
          have husage : loadPublicationQuotaUsageTx t o start =
              loadPublicationQuotaUsageTx tx o start := by
            unfold loadPublicationQuotaUsageTx
            rw [hu]
          have hres : loadPublicationQuotaReservationsTx t o start now =
              loadPublicationQuotaReservationsTx tx o start now := by
            unfold loadPublicationQuotaReservationsTx
            rw [hr]
          have hnone : t.reservations.load id = none := by
            rw [← hr]
            exact (GoMap.has_eq_false _ _).mp (Bool.eq_false_iff.mpr hid)
          refine ⟨o, tx, limits, inherited, start, stop, rfl, he, hw, by omega, ?_, hnone, rfl, hu,
            by rw [← hr]⟩
          intro m
          rw [husage, hres]
          cases m with
          | files => exact Bool.eq_false_iff.mpr hf
          | bytes => exact Bool.eq_false_iff.mpr hb
          | publications => exact Bool.eq_false_iff.mpr hp

theorem commit_cases {t t' : Tables} {id : Text} {committedAt : ℤ}
    (h : commitPublicationQuotaReservation t id committedAt = .ok t') :
    ∃ row, t.reservations.load id = some row ∧ t'.reservations = t.reservations.delete id ∧
      ∀ o p m, (loadPublicationQuotaUsageTx t' o p).at m =
        (loadPublicationQuotaUsageTx t o p).at m +
          if row.inWindow o p then row.reserved.at m else 0 := by
  unfold commitPublicationQuotaReservation at h
  split_ifs at h with hargs
  cases hr : t.reservations.load id with
  | none =>
    rw [hr] at h
    cases h
  | some row =>
    simp only [hr] at h
    split_ifs at h with hmax
    cases h
    refine ⟨row, rfl, rfl, ?_⟩
    intro o p m
    by_cases hin : row.inWindow o p = true
    · obtain ⟨rfl, rfl⟩ := (inWindow_iff o p row).mp hin
      rw [if_pos hin]
      simp only [loadPublicationQuotaUsageTx, GoMap.load_store_self, Option.getD_some]
      cases m <;> rfl
    · have hne : (o, p) ≠ (row.owner, row.periodStart) := by
        intro heq
        cases heq
        exact hin ((inWindow_iff _ _ row).mpr ⟨rfl, rfl⟩)
      rw [if_neg hin, add_zero]
      simp only [loadPublicationQuotaUsageTx, GoMap.load_store_ne _ _ hne]

theorem counted_store {t t' : Tables} {id : Text} {row : ReservationRow}
    (h : t.reservations.load id = none) (ht : t'.reservations = t.reservations.store id row)
    (o : PublicationQuotaSubject) (p now : ℤ) (m : QuotaMeasure) :
    (loadPublicationQuotaReservationsTx t' o p now).at m =
      (loadPublicationQuotaReservationsTx t o p now).at m +
        if row.counts o p now then row.reserved.at m else 0 := by
  rw [reservations_at, reservations_at, ht, GoMap.sum_store, GoMap.weight_of_absent h, sub_zero]
  rfl

theorem counted_delete {t u : Tables} {id : Text} {row : ReservationRow}
    (h : t.reservations.load id = some row) (ht : u.reservations = t.reservations.delete id)
    (o : PublicationQuotaSubject) (p now : ℤ) (m : QuotaMeasure) :
    (loadPublicationQuotaReservationsTx u o p now).at m =
      (loadPublicationQuotaReservationsTx t o p now).at m -
        if row.counts o p now then row.reserved.at m else 0 := by
  rw [reservations_at, reservations_at, ht, GoMap.sum_delete, GoMap.weight_of_load h]
  rfl

def RowsNonneg (t : Tables) : Prop :=
  ∀ id row, t.reservations.load id = some row → ∀ m, 0 ≤ row.reserved.at m

theorem counted_nonneg {t : Tables} (h : RowsNonneg t) (o : PublicationQuotaSubject) (p now : ℤ)
    (m : QuotaMeasure) : 0 ≤ (loadPublicationQuotaReservationsTx t o p now).at m := by
  rw [reservations_at]
  apply GoMap.sum_nonneg
  intro id row hrow
  have hm := h id row hrow m
  show 0 ≤ (if row.counts o p now then row.reserved.at m else 0)
  split_ifs <;> omega

theorem counted_deleteWhere {t t' : Tables} (test : Text → ReservationRow → Bool)
    (h : RowsNonneg t) (ht : t'.reservations = t.reservations.deleteWhere test)
    (o : PublicationQuotaSubject) (p now : ℤ) (m : QuotaMeasure) :
    (loadPublicationQuotaReservationsTx t' o p now).at m ≤
      (loadPublicationQuotaReservationsTx t o p now).at m := by
  rw [reservations_at, reservations_at, ht, GoMap.sum_deleteWhere]
  apply GoMap.sum_le_sum
  intro id row hrow
  have hm := h id row hrow m
  show (if test id row then 0 else rowWeight o p now m id row) ≤ rowWeight o p now m id row
  unfold rowWeight
  split_ifs <;> omega

end RenoP.Database
