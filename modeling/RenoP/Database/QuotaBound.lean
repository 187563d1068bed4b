import RenoP.Database.QuotaRuns

/-!
# Committed usage stays within the limits

What a window has committed and what its latest grant counted fit the limits together.
-/

namespace RenoP.Database

structure Within (o : PublicationQuotaSubject) (limits : PublicationQuotaLimits) (w : World) :
    Prop where
  nonneg : RowsNonneg w.tables
  room : ∀ p m, (w.spent o p).at m + (w.counted o p).at m ≤ limits.at m
  stored : ∀ p m, 0 ≤ (loadPublicationQuotaUsageTx w.tables o p).at m ∧
    (loadPublicationQuotaUsageTx w.tables o p).at m ≤ (w.spent o p).at m
  -- the cleanup has not reached the window
  kept : ∀ p, p ≤ 0 ∨ w.clock - publicationQuotaUsageRetention ≤ p → ∀ m,
    (loadPublicationQuotaUsageTx w.tables o p).at m = (w.spent o p).at m

variable {o : PublicationQuotaSubject} {limits : PublicationQuotaLimits} {w : World}

theorem World.counted_nonneg (h : RowsNonneg w.tables) (o : PublicationQuotaSubject) (p : ℤ)
    (m : QuotaMeasure) : 0 ≤ (w.counted o p).at m := by
  unfold World.counted
  cases w.latestGrant o p with
  | none =>
    show 0 ≤ (PublicationQuotaUsage.mk 0 0 0).at m
    cases m <;> exact le_refl _
  | some g => exact Database.counted_nonneg h o p g m

theorem Within.spent_le (h : Within o limits w) (p : ℤ) (m : QuotaMeasure) :
    (w.spent o p).at m ≤ limits.at m := by
  have hr := h.room p m
  have hc := w.counted_nonneg h.nonneg o p m
  omega

theorem Within.tick (h : Within o limits w) {now : ℤ} (hnow : w.clock ≤ now) :
    Within o limits { w with clock := now } where
  nonneg := h.nonneg
  room := h.room
  stored := h.stored
  kept := by
    intro p hp m
    apply h.kept p
    show p ≤ 0 ∨ w.clock - publicationQuotaUsageRetention ≤ p
    have hp' : p ≤ 0 ∨ now - publicationQuotaUsageRetention ≤ p := hp
    omega

theorem World.counted_of_grant {w : World} {p g : ℤ} (h : w.latestGrant o p = some g)
    (m : QuotaMeasure) :
    (w.counted o p).at m = (loadPublicationQuotaReservationsTx w.tables o p g).at m := by
  rw [World.counted, h]

theorem World.counted_of_none {w : World} {p : ℤ} (h : w.latestGrant o p = none) :
    w.counted o p = ⟨0, 0, 0⟩ := by
  rw [World.counted, h]

theorem Within.fewer (h : Within o limits w) {t : Tables} (hn : RowsNonneg t)
    (hc : ∀ p now m, (loadPublicationQuotaReservationsTx t o p now).at m ≤
      (loadPublicationQuotaReservationsTx w.tables o p now).at m)
    (hu : ∀ p, (p ≤ 0 ∨ w.clock - publicationQuotaUsageRetention ≤ p) →
      loadPublicationQuotaUsageTx t o p = loadPublicationQuotaUsageTx w.tables o p)
    (hz : ∀ p m, 0 ≤ (loadPublicationQuotaUsageTx t o p).at m ∧
      (loadPublicationQuotaUsageTx t o p).at m ≤ (loadPublicationQuotaUsageTx w.tables o p).at m) :
    Within o limits { w with tables := t } where
  nonneg := hn
  room := by
    intro p m
    have hr := h.room p m
    show (w.spent o p).at m + (World.counted { w with tables := t } o p).at m ≤ limits.at m
    have hle : (World.counted { w with tables := t } o p).at m ≤ (w.counted o p).at m := by
      cases hg : w.latestGrant o p with
      | none =>
        have hnew : World.latestGrant { w with tables := t } o p = none := hg
        rw [World.counted_of_none hg, World.counted_of_none hnew]
      | some g =>
        have hnew : World.latestGrant { w with tables := t } o p = some g := hg
        rw [World.counted_of_grant hg, World.counted_of_grant hnew]
        exact hc p g m
    omega
  stored := by
    intro p m
    have h1 := hz p m
    have h2 := h.stored p m
    show 0 ≤ (loadPublicationQuotaUsageTx t o p).at m ∧
      (loadPublicationQuotaUsageTx t o p).at m ≤ (w.spent o p).at m
    omega
  kept := by
    intro p hp m
    show (loadPublicationQuotaUsageTx t o p).at m = (w.spent o p).at m
    rw [hu p hp]
    exact h.kept p hp m

theorem RowsNonneg.store {t t' : Tables} {id : Text} {row : ReservationRow} (h : RowsNonneg t)
    (ht : t'.reservations = t.reservations.store id row) (hrow : ∀ m, 0 ≤ row.reserved.at m) :
    RowsNonneg t' := by
  intro k r hr m
  rw [ht, GoMap.load_store] at hr
  split_ifs at hr with hk
  · cases hr
    exact hrow m
  · exact h k r hr m

theorem RowsNonneg.of_load {t t' : Tables} (h : RowsNonneg t)
    (ht : ∀ id row, t'.reservations.load id = some row → t.reservations.load id = some row) :
    RowsNonneg t' :=
  fun id row hrow => h id row (ht id row hrow)

theorem load_delete_some {t u : Tables} {id : Text}
    (ht : u.reservations = t.reservations.delete id) (k : Text) (row : ReservationRow)
    (h : u.reservations.load k = some row) : t.reservations.load k = some row := by
  rw [ht, GoMap.load_delete] at h
  split_ifs at h
  exact h

theorem next_release (h : Within o limits w) (id : Text) :
    Within o limits (w.next (.release id)) := by
  show Within o limits { w with tables := releasePublicationQuotaReservation w.tables id }
  unfold releasePublicationQuotaReservation
  split_ifs with hid
  · exact h
  · have hload := load_delete_some (t := w.tables)
      (u := { w.tables with reservations := w.tables.reservations.delete (trimSpace id) }) rfl
    apply h.fewer (h.nonneg.of_load hload)
    · intro p now m
      cases hr : w.tables.reservations.load (trimSpace id) with
      | none =>
        rw [reservations_at, reservations_at, GoMap.sum_delete, GoMap.weight_of_absent hr]
        omega
      | some row =>
        have hd := counted_delete hr
          (u := { w.tables with reservations := w.tables.reservations.delete (trimSpace id) })
          rfl o p now m
        have hm := h.nonneg _ row hr m
        rw [hd]
        split_ifs <;> omega
    · intro p _
      rfl
    · intro p m
      exact ⟨(h.stored p m).1, le_refl _⟩

theorem next_clean (h : Within o limits w) {now : ℤ} (hnow : w.clock ≤ now) :
    Within o limits (w.next (.clean now)) := by
  simp only [World.next, cleanExpiredPublicationQuotaReservations]
  split_ifs with hneg
  · exact h.tick hnow
  · have hw := h.tick hnow
    apply hw.fewer
    · apply h.nonneg.of_load
      intro id row hrow
      rw [GoMap.load_deleteWhere, Option.filter_eq_some_iff] at hrow
      exact hrow.1
    · intro p moment m
      exact counted_deleteWhere (fun _ row => decide (row.expiresAt ≤ now)) h.nonneg rfl o p
        moment m
    · intro p hp
      have hcut : (decide (p > 0) && decide (p < now - publicationQuotaUsageRetention)) = false := by
        have hp' : p ≤ 0 ∨ now - publicationQuotaUsageRetention ≤ p := hp
        rw [Bool.and_eq_false_iff, decide_eq_false_iff_not, decide_eq_false_iff_not]
        omega
      simp only [loadPublicationQuotaUsageTx, GoMap.load_deleteWhere, hcut, Bool.not_false]
      cases w.tables.usage.load (o, p) <;> rfl
    · intro p m
      have hs := h.stored p m
      unfold loadPublicationQuotaUsageTx at hs ⊢
      simp only [GoMap.load_deleteWhere]
      cases hu : w.tables.usage.load (o, p) with
      | none =>
        rw [hu] at hs
        exact ⟨hs.1, le_refl _⟩
      | some u =>
        rw [hu] at hs
        rw [Option.filter_some]
        split_ifs
        · exact ⟨hs.1, le_refl _⟩
        · refine ⟨?_, ?_⟩
          · cases m <;> exact le_refl _
          · have h0 : (PublicationQuotaUsage.mk 0 0 0).at m = 0 := by cases m <;> rfl
            show (PublicationQuotaUsage.mk 0 0 0).at m ≤ _
            rw [h0]
            exact hs.1

theorem commit_room (h : Within o limits w) {t : Tables} {id : Text} {row : ReservationRow}
    {committedAt : ℤ} (hrow : w.tables.reservations.load id = some row)
    (ht : t.reservations = w.tables.reservations.delete id)
    (hok : CommitCounted o limits w (.commit id committedAt)) (p : ℤ) (m : QuotaMeasure) :
    (spentOf o p (row :: w.committed)).at m +
      (World.counted { w with tables := t } o p).at m ≤ limits.at m := by
  have hr := h.room p m
  have hm := h.nonneg id row hrow m
  have hspent : (w.spent o p).at m = (spentOf o p w.committed).at m := rfl
  rw [spentOf_cons]
  -- the row leaves the counted ones exactly when the latest grant counted it
  have hcounted : (World.counted { w with tables := t } o p).at m ≤ (w.counted o p).at m ∧
      ∀ g, w.latestGrant o p = some g → row.counts o p g = true →
        (World.counted { w with tables := t } o p).at m = (w.counted o p).at m - row.reserved.at m := by
    cases hg : w.latestGrant o p with
    | none =>
      have hsame : World.counted { w with tables := t } o p = w.counted o p := by
        have hnew : World.latestGrant { w with tables := t } o p = none := hg
        rw [World.counted_of_none hg, World.counted_of_none hnew]
      rw [hsame]
      exact ⟨le_refl _, fun g hg' => by cases hg'⟩
    | some g =>
      have hnew : (World.counted { w with tables := t } o p).at m =
          (loadPublicationQuotaReservationsTx t o p g).at m := by
        have hg' : World.latestGrant { w with tables := t } o p = some g := hg
        exact World.counted_of_grant hg' m
      rw [hnew, World.counted_of_grant hg, counted_delete hrow ht]
      constructor
      · split_ifs <;> omega
      · intro g' hg' hc
        cases hg'
        rw [if_pos hc]
  by_cases hin : row.inWindow o p = true
  · rw [if_pos hin]
    obtain ⟨howner, hstart⟩ := (inWindow_iff o p row).mp hin
    subst hstart
    rcases hok row hrow howner with ⟨g, hg, hlt⟩ | hfits
    · have hc : row.counts o row.periodStart g = true := by
        rw [counts_eq, hin, decide_eq_true hlt]
        rfl
      have := hcounted.2 g hg hc
      omega
    · have hfit := (exceeded_eq_false _ _ _ _).mp (hfits m)
      have := hcounted.1
      omega
  · rw [if_neg hin]
    have := hcounted.1
    omega

theorem next_commit (h : Within o limits w) {id : Text} {committedAt : ℤ} (hnow : w.clock ≤ committedAt)
    (hok : CommitCounted o limits w (.commit id committedAt)) :
    Within o limits (w.next (.commit id committedAt)) := by
  simp only [World.next]
  cases hc : commitPublicationQuotaReservation w.tables id committedAt with
  | error err => exact h.tick hnow
  | ok t =>
    obtain ⟨row, hrow, hres, husage⟩ := commit_cases hc
    simp only [hrow, Option.toList_some, List.singleton_append]
    have hroom := commit_room h hrow hres hok
    have hm := h.nonneg id row hrow
    exact {
      nonneg := h.nonneg.of_load (load_delete_some hres)
      room := hroom
      stored := by
        intro p m
        have hs := h.stored p m
        have hspent : (w.spent o p).at m = (spentOf o p w.committed).at m := rfl
        have hrm := hm m
        show 0 ≤ (loadPublicationQuotaUsageTx t o p).at m ∧
          (loadPublicationQuotaUsageTx t o p).at m ≤ (spentOf o p (row :: w.committed)).at m
        rw [husage, spentOf_cons]
        split_ifs <;> omega
      kept := by
        intro p hp m
        have hp' : p ≤ 0 ∨ committedAt - publicationQuotaUsageRetention ≤ p := hp
        have hk := h.kept p (by omega) m
        have hspent : (w.spent o p).at m = (spentOf o p w.committed).at m := rfl
        show (loadPublicationQuotaUsageTx t o p).at m = (spentOf o p (row :: w.committed)).at m
        rw [husage, spentOf_cons]
        omega }

theorem counted_other {t : Tables} {id : Text} {row : ReservationRow} {now : ℤ}
    (hnone : w.tables.reservations.load id = none)
    (ht : t.reservations = w.tables.reservations.store id row) {p : ℤ}
    (hin : ¬ row.inWindow o p = true) (m : QuotaMeasure) :
    (World.counted ⟨t, now, row :: w.granted, w.committed⟩ o p).at m = (w.counted o p).at m := by
  have hlatest : World.latestGrant ⟨t, now, row :: w.granted, w.committed⟩ o p =
      w.latestGrant o p := by
    unfold World.latestGrant
    rw [List.find?_cons_of_neg hin]
  cases hg : w.latestGrant o p with
  | none => simp only [World.counted, hlatest, hg]
  | some g =>
    rw [World.counted_of_grant (hlatest.trans hg), World.counted_of_grant hg,
      counted_store hnone ht, counts_eq, Bool.eq_false_iff.mpr hin]
    exact add_zero _

theorem next_reserve (h : Within o limits w) {id newUser : Text}
    {subject : PublicationQuotaSubject} {defaults : PublicationQuotaLimits}
    {delta : PublicationQuotaDelta} {now expiresAt : ℤ} (hnow : w.clock ≤ now)
    (hok : InForce o limits w (.reserve id newUser subject defaults delta now expiresAt)) :
    Within o limits (w.next (.reserve id newUser subject defaults delta now expiresAt)) := by
  simp only [World.next]
  cases hr : reservePublicationQuota w.tables id newUser subject defaults delta now expiresAt with
  | error err => exact h.tick hnow
  | ok result =>
    obtain ⟨reservation, t⟩ := result
    rcases reserve_cases hr with ⟨hfree, rfl⟩ |
      ⟨owner, tx, limits', inherited, start, stop, hnorm, heff, hwin, hexp, hfits, hnone, rfl, hu,
        hres⟩
    · simp only [hfree, if_true, Option.toList_none, List.nil_append]
      exact h.tick hnow
    · have hload : t.reservations.load id = some ⟨owner, start, delta, expiresAt, now⟩ := by
        rw [hres]
        exact GoMap.load_store_self _ _ _
      simp only [Bool.false_eq_true, if_false, hload, Option.toList_some, List.singleton_append]
      generalize hrow : ReservationRow.mk owner start delta expiresAt now = row at hload hres ⊢
      have hdelta : ∀ m, 0 ≤ row.reserved.at m := by
        intro m
        rw [← hrow]
        exact ((exceeded_eq_false _ _ _ _).mp (hfits m)).2.2.1
      have husage : ∀ p, loadPublicationQuotaUsageTx t o p =
          loadPublicationQuotaUsageTx w.tables o p := by
        intro p
        unfold loadPublicationQuotaUsageTx
        rw [hu]
      exact {
        nonneg := h.nonneg.store hres hdelta
        room := by
          intro p m
          show (w.spent o p).at m + _ ≤ _
          by_cases hin : row.inWindow o p = true
          · -- the tables the grant read are the bound's own terms
            have hlatest : World.latestGrant ⟨t, now, row :: w.granted, w.committed⟩ o p =
                some now := by
              unfold World.latestGrant
              rw [List.find?_cons_of_pos hin, ← hrow]
              rfl
            have hcounts : row.counts o p now = true := by
              rw [counts_eq, hin, ← hrow]
              exact decide_eq_true hexp
            rw [World.counted_of_grant hlatest, counted_store hnone hres, if_pos hcounts]
            obtain ⟨howner, hstart⟩ := (inWindow_iff o p row).mp hin
            rw [← hrow] at howner hstart ⊢
            dsimp only at howner hstart ⊢
            subst howner hstart
            obtain ⟨inherited', heff'⟩ := hok tx hnorm
            rw [heff] at heff'
            cases heff'
            have hrecent := window_recent hwin
            have hk := h.kept start (by omega) m
            have hfit := (exceeded_eq_false _ _ _ _).mp (hfits m)
            omega
          · rw [counted_other hnone hres hin]
            exact h.room p m
        stored := by
          intro p m
          show 0 ≤ (loadPublicationQuotaUsageTx t o p).at m ∧
            (loadPublicationQuotaUsageTx t o p).at m ≤ (w.spent o p).at m
          rw [husage]
          exact h.stored p m
        kept := by
          intro p hp m
          have hp' : p ≤ 0 ∨ now - publicationQuotaUsageRetention ≤ p := hp
          show (loadPublicationQuotaUsageTx t o p).at m = (w.spent o p).at m
          rw [husage]
          exact h.kept p (by omega) m }

/-- What a call has to meet: the clock does not go back, the owner is metered by `limits`, and
a commit of a row that expired before the latest grant of its window still finds room. -/
def CallOk (o : PublicationQuotaSubject) (limits : PublicationQuotaLimits) (w : World)
    (c : QuotaCall) : Prop :=
  Timely w c ∧ InForce o limits w c ∧ CommitCounted o limits w c

theorem next_within (c : QuotaCall) (h : Within o limits w) (hok : CallOk o limits w c) :
    Within o limits (w.next c) := by
  obtain ⟨htime, hforce, hcommit⟩ := hok
  cases c with
  | reserve id newUser subject defaults delta now expiresAt =>
    exact next_reserve h (htime now rfl) hforce
  | commit id committedAt => exact next_commit h (htime committedAt rfl) hcommit
  | release id => exact next_release h id
  | clean now => exact next_clean h (htime now rfl)

theorem start_within {t : Tables} (clock : ℤ) (hu : t.usage = ∅) (hr : t.reservations = ∅)
    (hlimits : validatePublicationQuotaLimits limits = true) :
    Within o limits (World.start t clock) := by
  have husage : ∀ p m, (loadPublicationQuotaUsageTx t o p).at m = 0 := by
    intro p m
    unfold loadPublicationQuotaUsageTx
    rw [hu]
    cases m <;> rfl
  have hspent : ∀ p m, ((World.start t clock).spent o p).at m = 0 := by
    intro p m
    cases m <;> rfl
  have hcounted : ∀ p m, ((World.start t clock).counted o p).at m = 0 := by
    intro p m
    cases m <;> rfl
  exact {
    nonneg := by
      intro id row hrow
      have hrow' : t.reservations.load id = some row := hrow
      rw [hr, GoMap.load_empty] at hrow'
      cases hrow'
    room := by
      intro p m
      rw [hspent, hcounted]
      simp only [validatePublicationQuotaLimits, Bool.and_eq_true, decide_eq_true_eq] at hlimits
      obtain ⟨⟨⟨hf, hb⟩, hp⟩, -⟩ := hlimits
      cases m
      · exact hf
      · exact hb
      · exact hp
    stored := by
      intro p m
      show 0 ≤ (loadPublicationQuotaUsageTx t o p).at m ∧
        (loadPublicationQuotaUsageTx t o p).at m ≤ _
      rw [husage, hspent]
      exact ⟨le_refl _, le_refl _⟩
    kept := by
      intro p _ m
      rw [hspent]
      exact husage p m }

/-- In a run whose calls all meet the condition, the usage of every window stays within the
limits, also counting what a window committed before the cleanup deleted its usage. -/
theorem run_usage_within (o : PublicationQuotaSubject) (limits : PublicationQuotaLimits)
    (t : Tables) (clock : ℤ) (calls : List QuotaCall) (hu : t.usage = ∅)
    (hr : t.reservations = ∅) (hlimits : validatePublicationQuotaLimits limits = true)
    (hok : Runs.Along World.next (CallOk o limits) (World.start t clock) calls) (p : ℤ)
    (m : QuotaMeasure) :
    (loadPublicationQuotaUsageTx (calls.foldl World.next (World.start t clock)).tables o p).at m ≤
        ((calls.foldl World.next (World.start t clock)).spent o p).at m ∧
      ((calls.foldl World.next (World.start t clock)).spent o p).at m ≤ limits.at m := by
  have hw := hok.invariant (fun _ c h hc => next_within c h hc)
    (start_within (o := o) clock hu hr hlimits)
  exact ⟨(hw.stored p m).2, hw.spent_le p m⟩

def quotaLimits : PublicationQuotaLimits := ⟨1, 100, 1, periodLifetime⟩

def quotaTeam : PublicationQuotaSubject := ⟨ownerSuperTeam, ['t', '1']⟩

def quotaTables : Tables := ⟨∅, ∅, [['t', '1']], ∅, ∅, ∅⟩

theorem quotaTeam_inForce {w : World} {c : QuotaCall} {id : Text} {delta : PublicationQuotaDelta}
    {now expiresAt : ℤ} (hteams : w.tables.superTeams = [['t', '1']])
    (hoverrides : w.tables.overrides = ∅)
    (hc : c = .reserve id [] quotaTeam quotaLimits delta now expiresAt) :
    InForce quotaTeam quotaLimits w c := by
  subst hc
  intro tx htx
  have hnorm : normalizePublicationQuotaSubjectTx w.tables quotaTeam true [] =
      .ok (quotaTeam, w.tables) := by
    have hsan : sanitizeSuperTeamPrefix quotaTeam.ownerKey = some ['t', '1'] := by decide
    have hkey : quotaTeam.ownerKey ≠ [] := by decide
    have huser : quotaTeam.ownerType ≠ ownerUser := by decide
    have hteam : quotaTeam.ownerType = ownerSuperTeam := rfl
    have hmem : w.tables.superTeams.contains ['t', '1'] = true := by
      rw [hteams]
      decide
    unfold normalizePublicationQuotaSubjectTx
    rw [if_neg hkey, if_neg huser, if_pos hteam, hsan]
    simp only [hmem, if_true]
    rfl
  rw [hnorm] at htx
  cases htx
  refine ⟨true, ?_⟩
  have hvalid : validatePublicationQuotaLimits quotaLimits = true := by decide
  unfold effectivePublicationQuotaTx
  simp only [hvalid, Bool.not_true, Bool.false_eq_true, if_false, hoverrides, GoMap.load_empty]

def lateCommit : List QuotaCall :=
  [.reserve ['a'] [] quotaTeam quotaLimits ⟨1, 10, 1⟩ 10 20,
    .reserve ['b'] [] quotaTeam quotaLimits ⟨1, 10, 1⟩ 30 40,
    .commit ['a'] 31, .commit ['b'] 32]

theorem run_usage_exceeds :
    ¬ ∀ (o : PublicationQuotaSubject) (limits : PublicationQuotaLimits) (t : Tables) (clock : ℤ)
      (calls : List QuotaCall), t.usage = ∅ → t.reservations = ∅ →
      validatePublicationQuotaLimits limits = true →
      Runs.Along World.next (fun w c => Timely w c ∧ InForce o limits w c) (World.start t clock)
        calls →
      ∀ p m, (loadPublicationQuotaUsageTx (calls.foldl World.next (World.start t clock)).tables
        o p).at m ≤ limits.at m := by
  intro h
  have hle := h quotaTeam quotaLimits quotaTables 0 lateCommit rfl rfl (by decide)
    ⟨⟨by decide, quotaTeam_inForce rfl rfl rfl⟩, ⟨by decide, quotaTeam_inForce rfl rfl rfl⟩,
      ⟨by decide, trivial⟩, ⟨by decide, trivial⟩, trivial⟩ 0 .files
  exact absurd hle (by decide)

def promptCommit : List QuotaCall :=
  [.reserve ['a'] [] quotaTeam quotaLimits ⟨1, 10, 1⟩ 10 20, .commit ['a'] 15,
    .reserve ['b'] [] quotaTeam quotaLimits ⟨1, 10, 1⟩ 30 40, .clean 50]

theorem run_usage_within_prompt :
    (loadPublicationQuotaUsageTx
        (promptCommit.foldl World.next (World.start quotaTables 0)).tables quotaTeam 0).files ≤
        ((promptCommit.foldl World.next (World.start quotaTables 0)).spent quotaTeam 0).files ∧
      ((promptCommit.foldl World.next (World.start quotaTables 0)).spent quotaTeam 0).files ≤ 1 := by
  have hcommit : CommitCounted quotaTeam quotaLimits
      ((World.start quotaTables 0).next
        (.reserve ['a'] [] quotaTeam quotaLimits ⟨1, 10, 1⟩ 10 20)) (.commit ['a'] 15) := by
    intro row hrow _
    have hrow' : row = ⟨quotaTeam, 0, ⟨1, 10, 1⟩, 20, 10⟩ := (Option.some.inj hrow).symm
    subst hrow'
    exact Or.inl ⟨10, by decide, by decide⟩
  exact run_usage_within quotaTeam quotaLimits quotaTables 0 promptCommit rfl rfl (by decide)
    ⟨⟨by decide, quotaTeam_inForce rfl rfl rfl, trivial⟩, ⟨by decide, trivial, hcommit⟩,
      ⟨by decide, quotaTeam_inForce rfl rfl rfl, trivial⟩, ⟨by decide, trivial, trivial⟩,
      trivial⟩ 0 .files

end RenoP.Database
