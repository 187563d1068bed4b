import RenoP.Lib.Windows
import RenoP.Database.QuotaRuns

/-!
# Windows of publication quotas

The windows of a day, a week and a month tile time, and the clean-up of old usage
(`CleanExpiredPublicationQuotaReservations`) leaves the windows of today and later alone.
-/

namespace RenoP.Database

open Windows (Tiles)

def nanosPerMilli : ℤ := 1000000

/-- `PublicationQuotaWindow` of a `time.Time`, in nanoseconds. The window depends on the date. -/
def publicationQuotaWindowAt (period : Text) (now : ℤ) : Option (ℤ × ℤ) :=
  (publicationQuotaWindow period (now / nanosPerMilli)).map fun w =>
    (w.1 * nanosPerMilli, w.2 * nanosPerMilli)

inductive Recurring : Text → Prop
  | day : Recurring periodDay
  | week : Recurring periodWeek
  | month : Recurring periodMonth

def dayWindow (period : Text) (today : ℤ) : ℤ × ℤ :=
  if period = periodDay then (today, today + 1)
  else if period = periodWeek then
    (today - CivilDate.weekdayFromMonday today, today - CivilDate.weekdayFromMonday today + 7)
  else
    (CivilDate.days (CivilDate.year today) (CivilDate.month today) 1,
      CivilDate.days (CivilDate.year today) (CivilDate.month today + 1) 1)

theorem publicationQuotaWindow_eq {period : Text} (h : Recurring period) (now : ℤ) :
    publicationQuotaWindow period now =
      some ((dayWindow period (now / dayMillis)).1 * dayMillis,
        (dayWindow period (now / dayMillis)).2 * dayMillis) := by
  cases h with
  | day => rfl
  | week => rfl
  | month => rfl

theorem tiles_days : Tiles (dayWindow periodDay) :=
  Windows.tiles_of_starts (fun _ _ => id) fun t => ⟨le_refl t, lt_add_one t⟩

theorem tiles_weeks : Tiles (dayWindow periodWeek) := by
  have hmono : ∀ i j : ℤ, 7 * i - 3 < 7 * j - 3 → i < j := by omega
  have hstart : ∀ t : ℤ, 7 * ((t + 3) / 7) - 3 = t - CivilDate.weekdayFromMonday t := by
    intro t
    unfold CivilDate.weekdayFromMonday
    omega
  have hindex : ∀ t : ℤ, 7 * ((t + 3) / 7) - 3 ≤ t ∧ t < 7 * ((t + 3) / 7 + 1) - 3 := by omega
  have heq : dayWindow periodWeek =
      fun t => (7 * ((t + 3) / 7) - 3, 7 * ((t + 3) / 7 + 1) - 3) := by
    funext t
    have hstop : 7 * ((t + 3) / 7 + 1) - 3 = t - CivilDate.weekdayFromMonday t + 7 := by
      rw [← hstart]
      omega
    rw [hstart, hstop]
    rfl
  rw [heq]
  exact Windows.tiles_of_starts hmono hindex

theorem tiles_months : Tiles (dayWindow periodMonth) := by
  have heq : dayWindow periodMonth = fun t =>
      (CivilDate.firstOfMonth (CivilDate.monthIndex t),
        CivilDate.firstOfMonth (CivilDate.monthIndex t + 1)) := by
    funext t
    have hnext : 12 * CivilDate.year t + (CivilDate.month t + 1 - 3) =
        CivilDate.monthIndex t + 1 := by
      unfold CivilDate.monthIndex
      omega
    rw [← hnext, ← CivilDate.days_firstOfMonth]
    unfold CivilDate.monthIndex
    rw [← CivilDate.days_firstOfMonth]
    rfl
  rw [heq]
  exact Windows.tiles_of_starts
    (fun _ _ => (strictMono_int_of_lt_succ CivilDate.firstOfMonth_succ).lt_iff_lt.mp)
    CivilDate.month_bounds

theorem tiles_dayWindow {period : Text} (h : Recurring period) : Tiles (dayWindow period) := by
  cases h with
  | day => exact tiles_days
  | week => exact tiles_weeks
  | month => exact tiles_months

def instantWindow (period : Text) (n : ℤ) (t : ℤ) : ℤ × ℤ :=
  ((dayWindow period (t / n)).1 * n, (dayWindow period (t / n)).2 * n)

theorem tiles_instants {period : Text} (h : Recurring period) {n : ℤ} (hn : 0 < n) :
    Tiles (instantWindow period n) :=
  (tiles_dayWindow h).scale hn

def dayNanos : ℤ := dayMillis * nanosPerMilli

theorem publicationQuotaWindowAt_eq {period : Text} (h : Recurring period) (now : ℤ) :
    publicationQuotaWindowAt period now = some (instantWindow period dayNanos now) := by
  have hday : now / nanosPerMilli / dayMillis = now / dayNanos := by
    rw [Int.ediv_ediv_of_nonneg (by decide), dayNanos, mul_comm]
  unfold publicationQuotaWindowAt instantWindow
  rw [publicationQuotaWindow_eq h, Option.map_some, hday, dayNanos, mul_assoc, mul_assoc]

def StartsMonday (t : ℤ) : Prop :=
  t % dayNanos = 0 ∧ CivilDate.weekdayFromMonday (t / dayNanos) = 0

theorem week_starts_monday (t : ℤ) : StartsMonday (instantWindow periodWeek dayNanos t).1 ∧
    (instantWindow periodWeek dayNanos t).2 =
      (instantWindow periodWeek dayNanos t).1 + 7 * dayNanos := by
  have hpos : dayNanos ≠ 0 := by decide
  have hwindow : dayWindow periodWeek (t / dayNanos) =
      (t / dayNanos - CivilDate.weekdayFromMonday (t / dayNanos),
        t / dayNanos - CivilDate.weekdayFromMonday (t / dayNanos) + 7) := rfl
  unfold instantWindow StartsMonday
  rw [hwindow]
  refine ⟨⟨Int.mul_emod_left _ _, ?_⟩, add_mul _ _ _⟩
  rw [Int.mul_ediv_cancel _ hpos]
  unfold CivilDate.weekdayFromMonday
  omega

theorem clean_keeps_window {period : Text} {tables tables' : Tables} {now t start stop : ℤ}
    (hclean : cleanExpiredPublicationQuotaReservations tables now = .ok tables') (hle : now ≤ t)
    (hwindow : publicationQuotaWindow period t = some (start, stop))
    (owner : PublicationQuotaSubject) :
    tables'.usage.load (owner, start) = tables.usage.load (owner, start) := by
  have hrecent := window_recent hwindow
  unfold cleanExpiredPublicationQuotaReservations at hclean
  split_ifs at hclean
  cases hclean
  refine GoMap.load_deleteWhere_of_false _ fun _ => ?_
  rw [Bool.and_eq_false_iff, decide_eq_false_iff_not, decide_eq_false_iff_not]
  omega

/-- The windows of a period tile time, weeks start on Monday, and no clean-up forgets the usage of a
window that has not ended. -/
theorem quota_windows_tile {period : Text} (h : Recurring period) :
    (∀ t, ∃ start stop, publicationQuotaWindowAt period t = some (start, stop) ∧
      start ≤ t ∧ t < stop ∧
      (∀ s, start ≤ s → s < stop → publicationQuotaWindowAt period s = some (start, stop)) ∧
      (∃ later, publicationQuotaWindowAt period stop = some (stop, later)) ∧
      (period = periodWeek → StartsMonday start ∧ stop = start + 7 * dayNanos)) ∧
    ∀ tables tables' now, cleanExpiredPublicationQuotaReservations tables now = .ok tables' →
      ∀ t, now ≤ t → ∀ start stop, publicationQuotaWindow period t = some (start, stop) →
        ∀ owner, tables'.usage.load (owner, start) = tables.usage.load (owner, start) := by
  have htiles : Tiles (instantWindow period dayNanos) := tiles_instants h (by decide)
  refine ⟨fun t => ?_, fun tables tables' now hclean t hle start stop hwindow owner =>
    clean_keeps_window hclean hle hwindow owner⟩
  obtain ⟨hstart, hstop⟩ := htiles.contains t
  refine ⟨_, _, publicationQuotaWindowAt_eq h t, hstart, hstop, ?_, ?_, ?_⟩
  · intro s hbegin hend
    rw [publicationQuotaWindowAt_eq h, htiles.same t s hbegin hend]
    rfl
  · have hnext := htiles.next t
    refine ⟨(instantWindow period dayNanos (instantWindow period dayNanos t).2).2, ?_⟩
    rw [publicationQuotaWindowAt_eq h]
    exact congrArg some (Prod.ext hnext rfl)
  · rintro rfl
    exact week_starts_monday t

theorem february_tiles :
    (∀ t, ∃ start stop, publicationQuotaWindowAt periodMonth t = some (start, stop) ∧
      start ≤ t ∧ t < stop ∧
      (∀ s, start ≤ s → s < stop → publicationQuotaWindowAt periodMonth s = some (start, stop)) ∧
      (∃ later, publicationQuotaWindowAt periodMonth stop = some (stop, later)) ∧
      (periodMonth = periodWeek → StartsMonday start ∧ stop = start + 7 * dayNanos)) ∧
    (∀ tables tables' now, cleanExpiredPublicationQuotaReservations tables now = .ok tables' →
      ∀ t, now ≤ t → ∀ start stop, publicationQuotaWindow periodMonth t = some (start, stop) →
        ∀ owner, tables'.usage.load (owner, start) = tables.usage.load (owner, start)) ∧
    publicationQuotaWindowAt periodMonth (19782 * dayNanos) =
      some (19754 * dayNanos, 19783 * dayNanos) :=
  ⟨(quota_windows_tile .month).1, (quota_windows_tile .month).2, by decide⟩

end RenoP.Database
