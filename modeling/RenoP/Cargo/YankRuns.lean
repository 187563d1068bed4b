import RenoP.Cargo.Packages
import RenoP.Lib.Runs

/-!
# Yanks and archives of a crate

What the marks of a package and its versions say after any sequence of calls.
-/

namespace RenoP.Cargo

open RenoP.Database (Text)

structure Track where
  /-- the last yank of a version since it was recorded was one -/
  yank : Text → Bool
  /-- an administrator has yanked the version, and none has undone it -/
  held : Text → Bool
  /-- an administrator has archived the package, and none has undone it -/
  heldArchive : Bool

def Track.record (k : Track) (version : Text) : Track :=
  { k with yank := Function.update k.yank version false, held := Function.update k.held version false }

def Track.after (k : Track) (t : PackageTables) : PackageCall → Track
  | .recordCargoPublication _ _ version _ _ => k.record version
  | .recordCargoMirrorPublication _ version _ =>
    if t.versions.has version then k else k.record version
  | .setCargoVersionYanked version yanked administrator => { k with
      yank := Function.update k.yank version yanked
      held := if administrator then Function.update k.held version yanked else k.held }
  | .setCargoPackageArchived archived administrator =>
    if administrator then { k with heldArchive := archived } else k
  | .deleteCargoVersion _ => k
  | .rollbackCargoPublicationReview _ _ => k

structure Audited where
  tables : PackageTables
  track : Track

def Audited.start : Audited := ⟨⟨none, ∅, ∅⟩, ⟨fun _ => false, fun _ => false, false⟩⟩

def Audited.next (a : Audited) (c : PackageCall) : Audited :=
  match a.tables.call c with
  | .error _ => a
  | .ok t => ⟨t, a.track.after a.tables c⟩

structure Lawful (a : Audited) : Prop where
  archived : ∀ p, a.tables.pkg = some p → p.archived = true →
    ∀ v row, a.tables.versions.load v = some row → row.yanked = true
  unarchived : ∀ p, a.tables.pkg = some p → p.archived = false →
    ∀ v row, a.tables.versions.load v = some row → row.yanked = a.track.yank v
  held : ∀ v row, a.tables.versions.load v = some row → a.track.held v = true → row.yanked = true
  heldArchive : a.track.heldArchive = true → ∃ p, a.tables.pkg = some p ∧ p.archived = true

def PackageTables.isArchived (t : PackageTables) : Bool := t.pkg.any (·.archived)

def Clean (t : PackageTables) : PackageCall → Prop
  | .recordCargoMirrorPublication _ version _ => t.isArchived = true → t.versions.has version = true
  | .setCargoVersionYanked version yanked administrator =>
    t.isArchived = true → yanked = true → administrator = false →
      (t.versions.load version).all (fun row => !row.archiveYanked || row.adminYanked) = true
  | .rollbackCargoPublicationReview _ none => t.pkg.all (fun p => !p.adminArchived) = true
  | .rollbackCargoPublicationReview _ (some previous) =>
    t.pkg.all (fun p => decide (p.archived = previous.archived) &&
      decide (p.adminArchived = previous.adminArchived)) = true
  | _ => True

instance (t : PackageTables) (c : PackageCall) : Decidable (Clean t c) := by
  cases c with
  | rollbackCargoPublicationReview version previous =>
    cases previous <;> unfold Clean <;> infer_instance
  | _ => unfold Clean; infer_instance

/-- The marks of a version, by the marks of its package and what was asked for. -/
structure RowKept (archived yank held : Bool) (row : CargoVersion) : Prop where
  admin : row.adminYanked = held
  asked : held = true → yank = true
  yanked : row.yanked = (archived || yank)
  explicit : archived = true → row.archiveYanked = false → yank = true
  induced : row.archiveYanked = true → archived = true ∧ (held = false → yank = false)

variable {archived yank held : Bool} {row : CargoVersion}

theorem rowKept_new {archived : Bool} {row : CargoVersion} (hopen : archived = false)
    (hyanked : row.yanked = false) (hadmin : row.adminYanked = false)
    (harchive : row.archiveYanked = false) : RowKept archived false false row := by
  subst hopen
  refine ⟨hadmin, ?_, hyanked, ?_, ?_⟩
  · exact id
  · intro h
    cases h
  · intro h
    rw [harchive] at h
    cases h

theorem RowKept.archive (h : RowKept archived yank held row) :
    RowKept true yank held (archiveVersion row) := by
  refine ⟨h.admin, h.asked, rfl, ?_, ?_⟩
  · intro _ hmark
    cases hrow : row.yanked with
    | false => simp [archiveVersion, hrow] at hmark
    | true =>
      have hkept : row.archiveYanked = false := by simpa [archiveVersion, hrow] using hmark
      have hyanked := h.yanked
      cases archived with
      | false => simpa [hrow] using hyanked.symm
      | true => exact h.explicit rfl hkept
  · intro hmark
    refine ⟨rfl, fun hfree => ?_⟩
    cases hrow : row.yanked with
    | false =>
      have hyanked := h.yanked
      rw [hrow] at hyanked
      exact (Bool.or_eq_false_iff.mp hyanked.symm).2
    | true =>
      have hkept : row.archiveYanked = true := by simpa [archiveVersion, hrow] using hmark
      exact (h.induced hkept).2 hfree

theorem RowKept.restore (h : RowKept archived yank held row) :
    RowKept false yank held (restoreVersion row) := by
  refine ⟨h.admin, h.asked, ?_, ?_, ?_⟩
  · have hadmin := h.admin
    have hyanked := h.yanked
    cases hmark : row.archiveYanked with
    | false =>
      simp only [restoreVersion, hmark, Bool.false_and, Bool.false_eq_true, if_false, Bool.false_or]
      cases archived with
      | false => exact hyanked
      | true => rw [hyanked, h.explicit rfl hmark]; rfl
    | true =>
      obtain ⟨rfl, hfree⟩ := h.induced hmark
      cases hheld : held with
      | false => simp [restoreVersion, hmark, hadmin, hheld, hfree hheld]
      | true => simp [restoreVersion, hmark, hadmin, hheld, hyanked, h.asked hheld]
  · intro h
    cases h
  · intro h
    cases h

theorem RowKept.yanks (h : RowKept archived yank held row) {administrator : Bool}
    (hclean : archived = true → administrator = false → row.archiveYanked = true →
      row.adminYanked = true) :
    RowKept archived true (if administrator then true else held) { row with
      yanked := true, adminYanked := if administrator then true else row.adminYanked } := by
  refine ⟨?_, fun _ => rfl, by simp, fun _ _ => rfl, ?_⟩
  · simp [h.admin]
  · intro hmark
    refine ⟨(h.induced hmark).1, fun hfree => ?_⟩
    cases administrator with
    | true => cases hfree
    | false =>
      have hadmin := hclean (h.induced hmark).1 rfl hmark
      rw [h.admin] at hadmin
      rw [if_neg Bool.false_ne_true, hadmin] at hfree
      cases hfree

theorem RowKept.unyanks (h : RowKept false yank held row) {administrator : Bool}
    (hadmin : row.adminYanked = true → administrator = true) :
    RowKept false false (if administrator then false else held) { row with
      yanked := false, adminYanked := if administrator then false else row.adminYanked } := by
  refine ⟨by simp [h.admin], ?_, rfl, ?_, ?_⟩
  · intro hheld
    cases administrator with
    | true => cases hheld
    | false =>
      rw [if_neg Bool.false_ne_true, ← h.admin] at hheld
      cases hadmin hheld
  · intro h
    cases h
  · intro hmark
    cases (h.induced hmark).1

structure Kept (a : Audited) : Prop where
  empty : a.tables.pkg = none → ∀ v, a.tables.versions.load v = none
  rows : ∀ p, a.tables.pkg = some p → ∀ v row, a.tables.versions.load v = some row →
    RowKept p.archived (a.track.yank v) (a.track.held v) row
  admin : ∀ p, a.tables.pkg = some p → p.adminArchived = a.track.heldArchive
  heldArchive : a.track.heldArchive = true → ∃ p, a.tables.pkg = some p ∧ p.archived = true

theorem kept_start : Kept Audited.start where
  empty _ _ := rfl
  rows _ h := by cases h
  admin _ h := by cases h
  heldArchive h := by cases h

theorem Kept.lawful {a : Audited} (h : Kept a) : Lawful a where
  archived p hp harchived v row hrow := by
    rw [(h.rows p hp v row hrow).yanked, harchived]
    rfl
  unarchived p hp hopen v row hrow := by
    rw [(h.rows p hp v row hrow).yanked, hopen]
    rfl
  held v row hrow hheld := by
    cases hpkg : a.tables.pkg with
    | none =>
      rw [h.empty hpkg v] at hrow
      cases hrow
    | some p =>
      have hkept := h.rows p hpkg v row hrow
      rw [hkept.yanked, hkept.asked hheld, Bool.or_true]
  heldArchive := h.heldArchive

theorem Kept.heldArchive_of_none {a : Audited} (h : Kept a) (hpkg : a.tables.pkg = none) :
    a.track.heldArchive = false := by
  rw [Bool.eq_false_iff]
  intro hheld
  obtain ⟨p, hp, -⟩ := h.heldArchive hheld
  rw [hpkg] at hp
  cases hp

theorem Kept.heldArchive_of_open {a : Audited} (h : Kept a) {p : CargoPackage}
    (hpkg : a.tables.pkg = some p) (hopen : p.archived = false) : a.track.heldArchive = false := by
  rw [Bool.eq_false_iff]
  intro hheld
  obtain ⟨p', hp, harchived⟩ := h.heldArchive hheld
  rw [hpkg, Option.some.injEq] at hp
  rw [← hp, hopen] at harchived
  cases harchived

theorem Kept.store_new {a : Audited} (h : Kept a) {t : PackageTables} {version : Text}
    {fresh : CargoVersion} {p : CargoPackage} (hpkg : t.pkg = some p) (hopen : p.archived = false)
    (hsame : ∀ p₀, a.tables.pkg = some p₀ → p₀.archived = false)
    (hadmin : p.adminArchived = a.track.heldArchive)
    (hversions : t.versions = a.tables.versions.store version fresh)
    (hyanked : fresh.yanked = false) (hadminYanked : fresh.adminYanked = false)
    (harchiveYanked : fresh.archiveYanked = false) (hheld : a.track.heldArchive = false) :
    Kept ⟨t, a.track.record version⟩ where
  empty hnone := by
    rw [hpkg] at hnone
    cases hnone
  rows p' hp' v row hrow := by
    rw [hpkg, Option.some.injEq] at hp'
    subst hp'
    rw [hversions, GoMap.load_store] at hrow
    by_cases hv : v = version
    · rw [if_pos hv, Option.some.injEq] at hrow
      subst hrow
      simp only [Track.record, hv, Function.update_self]
      exact rowKept_new hopen hyanked hadminYanked harchiveYanked
    · rw [if_neg hv] at hrow
      simp only [Track.record, Function.update_of_ne hv]
      cases hold : a.tables.pkg with
      | none =>
        rw [h.empty hold v] at hrow
        cases hrow
      | some p₀ =>
        have hkept := h.rows p₀ hold v row hrow
        rw [hsame p₀ hold] at hkept
        rwa [hopen]
  admin p' hp' := by
    rw [hpkg, Option.some.injEq] at hp'
    rw [← hp']
    exact hadmin
  heldArchive hheld' := by
    rw [show (a.track.record version).heldArchive = a.track.heldArchive from rfl, hheld] at hheld'
    cases hheld'

theorem Kept.recordCargoPublication {a : Audited} (h : Kept a) {env : Outside} {pkg : CargoPackage}
    {version username : Text} {row : CargoVersion} {t : PackageTables}
    (hcall : recordCargoPublication env a.tables pkg version row username = .ok t) :
    Kept ⟨t, a.track.record version⟩ := by
  obtain ⟨-, ⟨fresh, hyanked, hadmin, harchive, hversions⟩, p, hp, hopen, hold⟩ :=
    recordCargoPublication_cases hcall
  obtain ⟨hnone, hflag⟩ | ⟨p₀, hp₀, hopen₀, hflag⟩ := hold
  · have hheld := h.heldArchive_of_none hnone
    refine h.store_new hp hopen ?_ (by rw [hflag, hheld]) hversions hyanked hadmin harchive hheld
    intro p₀ hp₀
    rw [hnone] at hp₀
    cases hp₀
  · have hheld := h.heldArchive_of_open hp₀ hopen₀
    refine h.store_new hp hopen ?_ (by rw [hflag, h.admin p₀ hp₀]) hversions hyanked hadmin harchive
      hheld
    intro p₁ hp₁
    rw [hp₀, Option.some.injEq] at hp₁
    rwa [← hp₁]

theorem Kept.of_same_marks {a : Audited} (h : Kept a) {t : PackageTables} {p p₀ : CargoPackage}
    (hp₀ : a.tables.pkg = some p₀) (hp : t.pkg = some p) (harchived : p.archived = p₀.archived)
    (hadmin : p.adminArchived = p₀.adminArchived)
    (hrows : ∀ v row, t.versions.load v = some row →
      ∃ row₀, a.tables.versions.load v = some row₀ ∧ row.yanked = row₀.yanked ∧
        row.adminYanked = row₀.adminYanked ∧ row.archiveYanked = row₀.archiveYanked) :
    Kept ⟨t, a.track⟩ where
  empty hnone := by
    rw [hp] at hnone
    cases hnone
  rows p' hp' v row hrow := by
    rw [hp, Option.some.injEq] at hp'
    obtain ⟨row₀, hrow₀, hyanked, hadminYanked, harchiveYanked⟩ := hrows v row hrow
    have hkept := h.rows p₀ hp₀ v row₀ hrow₀
    rw [← hp', harchived]
    refine ⟨?_, hkept.asked, ?_, ?_, ?_⟩
    · rw [hadminYanked, hkept.admin]
    · rw [hyanked, hkept.yanked]
    · rw [harchiveYanked]
      exact hkept.explicit
    · rw [harchiveYanked]
      exact hkept.induced
  admin p' hp' := by
    rw [hp, Option.some.injEq] at hp'
    rw [← hp', hadmin, h.admin p₀ hp₀]
  heldArchive hheld := by
    obtain ⟨p', hp', harchived'⟩ := h.heldArchive hheld
    rw [hp₀, Option.some.injEq] at hp'
    exact ⟨p, hp, by rw [harchived, hp', harchived']⟩

theorem Kept.recordCargoMirrorPublication {a : Audited} (h : Kept a) {pkg : CargoPackage}
    {version : Text} {row : CargoVersion} {t : PackageTables}
    (hclean : Clean a.tables (.recordCargoMirrorPublication pkg version row))
    (hcall : recordCargoMirrorPublication a.tables pkg version row = .ok t) :
    Kept ⟨t, a.track.after a.tables (.recordCargoMirrorPublication pkg version row)⟩ := by
  obtain ⟨hversions, p, hp, hold⟩ := recordCargoMirrorPublication_cases hcall
  cases hrow : a.tables.versions.load version with
  | none =>
    have hhas : a.tables.versions.has version = false := (GoMap.has_eq_false _ _).mpr hrow
    rw [hrow] at hversions
    simp only [Track.after, hhas, Bool.false_eq_true, if_false]
    obtain ⟨hnone, hopen, hflag⟩ | ⟨p₀, hp₀, harchived, hflag⟩ := hold
    · have hheld := h.heldArchive_of_none hnone
      refine h.store_new hp hopen ?_ (by rw [hflag, hheld]) hversions rfl rfl rfl hheld
      intro p₀ hp₀
      rw [hnone] at hp₀
      cases hp₀
    · -- a new version comes to an open package only
      have hopen₀ : p₀.archived = false := by
        rw [Bool.eq_false_iff]
        intro harchived₀
        have hfound := hclean (by simp [PackageTables.isArchived, hp₀, harchived₀])
        rw [hhas] at hfound
        cases hfound
      have hheld := h.heldArchive_of_open hp₀ hopen₀
      refine h.store_new hp (by rw [harchived, hopen₀]) ?_ (by rw [hflag, h.admin p₀ hp₀]) hversions
        rfl rfl rfl hheld
      intro p₁ hp₁
      rw [hp₀, Option.some.injEq] at hp₁
      rwa [← hp₁]
  | some stored =>
    have hhas : a.tables.versions.has version = true := (GoMap.has_eq_true _ _).mpr ⟨stored, hrow⟩
    rw [hrow] at hversions
    simp only [Track.after, hhas, if_true]
    obtain ⟨hnone, -, -⟩ | ⟨p₀, hp₀, harchived, hflag⟩ := hold
    · rw [h.empty hnone version] at hrow
      cases hrow
    · refine h.of_same_marks hp₀ hp harchived hflag ?_
      intro v row' hrow'
      rw [hversions, GoMap.load_store] at hrow'
      by_cases hv : v = version
      · rw [if_pos hv, Option.some.injEq] at hrow'
        subst hrow'
        exact ⟨stored, by rw [hv, hrow], rfl, rfl, rfl⟩
      · rw [if_neg hv] at hrow'
        exact ⟨row', hrow', rfl, rfl, rfl⟩

theorem Kept.setCargoVersionYanked {a : Audited} (h : Kept a) {version : Text}
    {yanked administrator : Bool} {t : PackageTables}
    (hclean : Clean a.tables (.setCargoVersionYanked version yanked administrator))
    (hcall : setCargoVersionYanked a.tables version yanked administrator = .ok t) :
    Kept ⟨t, a.track.after a.tables (.setCargoVersionYanked version yanked administrator)⟩ := by
  obtain ⟨p, row, hp, hrow, hpkg, hopen, hadmin, hversions⟩ := setCargoVersionYanked_cases hcall
  have hkept := h.rows p hp version row hrow
  have hnew : RowKept p.archived yanked
      (if administrator then yanked else a.track.held version) { row with
        yanked := yanked, adminYanked := if administrator then yanked else row.adminYanked } := by
    cases yanked with
    | true =>
      refine hkept.yanks ?_
      intro harchived howner hmark
      have hmarks := hclean (by simp [PackageTables.isArchived, hp, harchived]) rfl howner
      simpa [hrow, hmark] using hmarks
    | false =>
      rw [hopen rfl] at hkept ⊢
      exact hkept.unyanks (hadmin rfl)
  refine ⟨?_, ?_, ?_, ?_⟩
  · intro hnone
    rw [hpkg, hp] at hnone
    cases hnone
  · intro p' hp' v row' hrow'
    rw [hpkg, hp, Option.some.injEq] at hp'
    subst hp'
    rw [hversions, GoMap.load_store] at hrow'
    by_cases hv : v = version
    · rw [if_pos hv, Option.some.injEq] at hrow'
      subst hrow'
      cases administrator <;> simpa [Track.after, hv] using hnew
    · rw [if_neg hv] at hrow'
      have hold := h.rows p hp v row' hrow'
      cases administrator <;> simpa [Track.after, hv] using hold
  · intro p' hp'
    rw [hpkg] at hp'
    exact h.admin p' hp'
  · intro hheld
    obtain ⟨p', hp', harchived⟩ := h.heldArchive hheld
    exact ⟨p', hpkg.trans hp', harchived⟩

theorem Kept.setCargoPackageArchived {a : Audited} (h : Kept a) {archived administrator : Bool}
    {t : PackageTables}
    (hcall : setCargoPackageArchived a.tables archived administrator = .ok t) :
    Kept ⟨t, a.track.after a.tables (.setCargoPackageArchived archived administrator)⟩ := by
  obtain ⟨p, hp, hadmin, hpkg, hversions⟩ := setCargoPackageArchived_cases hcall
  have hsame : (a.track.after a.tables (.setCargoPackageArchived archived administrator)).yank =
        a.track.yank ∧
      (a.track.after a.tables (.setCargoPackageArchived archived administrator)).held =
        a.track.held := by
    cases administrator <;> exact ⟨rfl, rfl⟩
  have hheld : (a.track.after a.tables
      (.setCargoPackageArchived archived administrator)).heldArchive =
        if administrator then archived else a.track.heldArchive := by
    cases administrator <;> rfl
  refine ⟨?_, ?_, ?_, ?_⟩
  · intro hnone
    rw [hpkg] at hnone
    cases hnone
  · intro p' hp' v row hrow
    rw [hpkg, Option.some.injEq] at hp'
    subst hp'
    rw [hversions, GoMap.load_updateWhere] at hrow
    obtain ⟨row₀, hrow₀, rfl⟩ := Option.map_eq_some_iff.mp hrow
    have hkept := h.rows p hp v row₀ hrow₀
    rw [hsame.1, hsame.2]
    cases archived with
    | true => exact hkept.archive
    | false => exact hkept.restore
  · intro p' hp'
    rw [hpkg, Option.some.injEq] at hp'
    rw [← hp', hheld, h.admin p hp]
  · rw [hheld]
    intro hset
    refine ⟨_, hpkg, ?_⟩
    cases administrator with
    | true => exact hset
    | false =>
      -- an owner opens no package that an administrator has archived
      by_contra hopen
      rw [Bool.not_eq_true] at hopen
      have hflag := h.admin p hp
      rw [show a.track.heldArchive = true from hset] at hflag
      cases hadmin hopen hflag

theorem Kept.deleteCargoVersion {a : Audited} (h : Kept a) {version : Text} {t : PackageTables}
    (hcall : deleteCargoVersion a.tables version = .ok t) : Kept ⟨t, a.track⟩ := by
  obtain ⟨hversions, mirrored, hpkg⟩ := deleteCargoVersion_cases hcall
  cases hp : a.tables.pkg with
  | none =>
    rw [hp, Option.map_none] at hpkg
    refine ⟨?_, ?_, ?_, ?_⟩
    · intro _ v
      rw [hversions, GoMap.load_delete, h.empty hp v]
      exact ite_self none
    · intro p' hp'
      rw [hpkg] at hp'
      cases hp'
    · intro p' hp'
      rw [hpkg] at hp'
      cases hp'
    · intro hheld
      have hfree := h.heldArchive_of_none hp
      rw [show a.track.heldArchive = true from hheld] at hfree
      cases hfree
  | some p =>
    rw [hp, Option.map_some] at hpkg
    refine h.of_same_marks hp hpkg rfl rfl ?_
    intro v row hrow
    rw [hversions, GoMap.load_delete] at hrow
    split_ifs at hrow
    exact ⟨row, hrow, rfl, rfl, rfl⟩

theorem Kept.rollbackCargoPublicationReview {a : Audited} (h : Kept a) {version : Text}
    {previous : Option CargoPackage} {t : PackageTables}
    (hclean : Clean a.tables (.rollbackCargoPublicationReview version previous))
    (hcall : rollbackCargoPublicationReview a.tables version previous = .ok t) :
    Kept ⟨t, a.track⟩ := by
  obtain ⟨hversions, hfound, hpkg⟩ := rollbackCargoPublicationReview_cases hcall
  obtain ⟨row₀, hrow₀⟩ := Option.isSome_iff_exists.mp hfound
  -- the version that goes has a package
  obtain ⟨p, hp⟩ : ∃ p, a.tables.pkg = some p := by
    cases hp : a.tables.pkg with
    | none =>
      rw [h.empty hp version] at hrow₀
      cases hrow₀
    | some p => exact ⟨p, rfl⟩
  obtain ⟨rfl, hnone, hempty⟩ | ⟨row, rfl, hrow⟩ := hpkg
  · have hheld : a.track.heldArchive = false := by
      rw [← h.admin p hp]
      simpa [Clean, hp] using hclean
    refine ⟨?_, ?_, ?_, ?_⟩
    · intro _ v
      rw [GoMap.load_eq_none]
      simp [AList.keys, hempty]
    · intro p' hp'
      rw [hnone] at hp'
      cases hp'
    · intro p' hp'
      rw [hnone] at hp'
      cases hp'
    · intro hset
      rw [show a.track.heldArchive = true from hset] at hheld
      cases hheld
  · rw [hp, Option.map_some] at hrow
    have hsame : p.archived = row.archived ∧ p.adminArchived = row.adminArchived := by
      simpa [Clean, hp] using hclean
    refine h.of_same_marks hp hrow hsame.1.symm hsame.2.symm ?_
    intro v row' hrow'
    rw [hversions, GoMap.load_delete] at hrow'
    split_ifs at hrow'
    exact ⟨row', hrow', rfl, rfl, rfl⟩

theorem Kept.next {a : Audited} {c : PackageCall} (h : Kept a) (hclean : Clean a.tables c) :
    Kept (a.next c) := by
  unfold Audited.next
  cases hcall : a.tables.call c with
  | error err => exact h
  | ok t =>
    cases c with
    | recordCargoPublication env pkg version row username => exact h.recordCargoPublication hcall
    | recordCargoMirrorPublication pkg version row =>
      exact h.recordCargoMirrorPublication hclean hcall
    | setCargoVersionYanked version yanked administrator =>
      exact h.setCargoVersionYanked hclean hcall
    | setCargoPackageArchived archived administrator => exact h.setCargoPackageArchived hcall
    | deleteCargoVersion version => exact h.deleteCargoVersion hcall
    | rollbackCargoPublicationReview version previous =>
      exact h.rollbackCargoPublicationReview hclean hcall

/-- In a run of clean calls the marks of every state say what the calls have asked for. -/
theorem cargo_marks_lawful (calls : List PackageCall)
    (hclean : Runs.Along Audited.next (fun a c => Clean a.tables c) Audited.start calls) :
    Runs.Through Audited.next Lawful Audited.start calls :=
  Runs.Along.through (fun _ h => h.lawful) (fun _ _ h hc => h.next hc) kept_start hclean

def crate : CargoPackage := ⟨['c'], [], [], [], [], [], false, false, false, [], 1, 1⟩

def crateVersion : CargoVersion :=
  ⟨[], [], 3, [], [], [], [], [], [], false, false, false, false, 1⟩

def everyone : Outside := ⟨fun _ => true, fun _ => false, fun _ _ => none⟩

def firstVersion : Text := ['1', '.', '0', '.', '0']

def secondVersion : Text := ['1', '.', '1', '.', '0']

def published : PackageCall :=
  .recordCargoPublication everyone crate firstVersion crateVersion ['u']

def mirroredAfterArchive : List PackageCall :=
  [published, .setCargoPackageArchived true true,
    .recordCargoMirrorPublication crate secondVersion crateVersion]

theorem mirroredAfterArchive_not_yanked :
    ¬Lawful (mirroredAfterArchive.foldl Audited.next Audited.start) := by
  intro h
  have hpkg : ((mirroredAfterArchive.foldl Audited.next Audited.start).tables.pkg.map
      (·.archived)) = some true := by decide +kernel
  have hrow : ((mirroredAfterArchive.foldl Audited.next Audited.start).tables.versions.load
      secondVersion).map (·.yanked) = some false := by decide +kernel
  obtain ⟨p, hp, harchived⟩ := Option.map_eq_some_iff.mp hpkg
  obtain ⟨row, hload, hyanked⟩ := Option.map_eq_some_iff.mp hrow
  rw [h.archived p hp harchived secondVersion row hload] at hyanked
  cases hyanked

/-- An owner's yank of a version that the archive has yanked is lost when the crate is restored. -/
example : (([published, .setCargoPackageArchived true false,
      .setCargoVersionYanked firstVersion true false, .setCargoPackageArchived false false].foldl
    Audited.next Audited.start).tables.versions.load firstVersion).map (·.yanked) = some false := by
  decide +kernel

def yankedByAdministrator : List PackageCall :=
  [published, .setCargoPackageArchived true false, .setCargoVersionYanked firstVersion true true,
    .setCargoPackageArchived false false, .setCargoVersionYanked firstVersion false false]

theorem yankedByAdministrator_lawful :
    Runs.Through Audited.next Lawful Audited.start yankedByAdministrator :=
  cargo_marks_lawful yankedByAdministrator (by decide +kernel)

end RenoP.Cargo
