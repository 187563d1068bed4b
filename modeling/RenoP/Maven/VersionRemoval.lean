import RenoP.Maven.CompareVersions
import Mathlib.Data.List.Infix
import Mathlib.Data.List.Sort

/-!
# The metadata after a version

What a deleted version leaves of `maven-metadata.xml`: the update in `HandleDelete` of
`internal/service/storage/delete.go` after a jar, and `updateMavenMetadataAfterVersionDelete` of
`maven_version.go`. `sort` is `slices.SortFunc` with `CompareVersions`, which may order equal
versions as it likes.
-/

namespace RenoP.Maven

structure Versioning where
  release : Option Bytes
  latest : Option Bytes
  lastUpdated : Option Bytes
  versions : Option (List Bytes)
  deriving DecidableEq

inductive MetadataUpdate where
  | unchanged
  | deleted
  | written (versioning : Versioning)
  deriving DecidableEq

def withoutVersion (version : Bytes) (versions : List Bytes) : Bool × List Bytes :=
  versions.foldl (fun s v => if v = version then (true, s.2) else (s.1, s.2 ++ [v])) (false, [])

/-- The runes that `strings.ToUpper` turns into letters of `SNAPSHOT`: the small ones and `ſ`. -/
def toUpper : Bytes → Bytes
  | [] => []
  | 0xC5 :: 0xBF :: s => 0x53 :: toUpper s
  | c :: s => (if 0x61 ≤ c ∧ c ≤ 0x7A then c - 0x20 else c) :: toUpper s

def snapshotText : Bytes := [0x53, 0x4E, 0x41, 0x50, 0x53, 0x48, 0x4F, 0x54]

def isSnapshot (version : Bytes) : Bool :=
  (toUpper version).tails.any (snapshotText.isPrefixOf ·)

section

variable (sort : List Bytes → List Bytes) (versioning : Option Versioning) (version now : Bytes)

/-- The metadata update in `HandleDelete`. -/
def handleDelete : MetadataUpdate :=
  match versioning with
  | none => .unchanged
  | some old =>
    let (found, newVersions) := withoutVersion version (old.versions.getD [])
    if !found then .unchanged
    else if newVersions = [] then .deleted
    else
      let latest := (sort newVersions).getLast?
      .written { old with
        versions := some newVersions, latest := latest, release := latest,
        lastUpdated := some now }

def updateMavenMetadataAfterVersionDelete : MetadataUpdate :=
  match versioning with
  | none => .unchanged
  | some old =>
    let (found, versions) := withoutVersion version (old.versions.getD [])
    if !found then .unchanged
    else if versions = [] then .deleted
    else
      let sorted := sort versions
      .written { old with
        versions := some versions, latest := sorted.getLast?
        release := sorted.reverse.find? (!isSnapshot ·), lastUpdated := some now }

end

theorem withoutVersion_eq (version : Bytes) (versions : List Bytes) :
    withoutVersion version versions =
      (decide (version ∈ versions), versions.filter (· ≠ version)) := by
  have hloop : ∀ (l : List Bytes) (s : Bool × List Bytes),
      l.foldl (fun s v => if v = version then (true, s.2) else (s.1, s.2 ++ [v])) s =
        (s.1 || decide (version ∈ l), s.2 ++ l.filter (· ≠ version)) := by
    intro l
    induction l with
    | nil => simp
    | cons v l ih =>
      intro s
      rw [List.foldl_cons, ih]
      by_cases hv : v = version
      · simp [hv]
      · simp [hv, Ne.symm hv]
  rw [withoutVersion, hloop]
  simp

def IsMaximum (l : List Bytes) (m : Bytes) : Prop :=
  m ∈ l ∧ ∀ w ∈ l, compareVersions w m ≤ 0

theorem isSnapshot_within (version : Bytes) :
    isSnapshot version = true ↔ snapshotText <:+: toUpper version := by
  rw [isSnapshot, List.any_eq_true, List.infix_iff_prefix_suffix]
  constructor
  · rintro ⟨t, ht, hbegin⟩
    exact ⟨t, List.isPrefixOf_iff_prefix.mp hbegin, (List.mem_tails ..).mp ht⟩
  · rintro ⟨t, hbegin, ht⟩
    exact ⟨t, (List.mem_tails ..).mpr ht, List.isPrefixOf_iff_prefix.mpr hbegin⟩

theorem isSep_upper (c : UInt8) :
    isSep (if 0x61 ≤ c ∧ c ≤ 0x7A then c - 0x20 else c) = isSep c := by
  have hall : ∀ n < 256, isSep (if 0x61 ≤ UInt8.ofNat n ∧ UInt8.ofNat n ≤ 0x7A then
      UInt8.ofNat n - 0x20 else UInt8.ofNat n) = isSep (UInt8.ofNat n) := by
    decide +kernel
  have hc := hall c.toNat c.toNat_lt
  rwa [UInt8.ofNat_toNat] at hc

theorem splitOnP_toUpper (s : Bytes) :
    (toUpper s).splitOnP isSep = (s.splitOnP isSep).map toUpper := by
  fun_induction toUpper s with
  | case1 => rfl
  | case2 s ih =>
    have hsep : isSep 0x53 = false ∧ isSep 0xC5 = false ∧ isSep 0xBF = false := by decide
    obtain ⟨f, fs, hsplit⟩ := List.exists_cons_of_ne_nil (List.splitOnP_ne_nil isSep s)
    simp only [List.splitOnP_cons_eq_if_modifyHead, ih, hsep, hsplit]
    rfl
  | case3 c s hother ih =>
    obtain ⟨f, fs, hsplit⟩ := List.exists_cons_of_ne_nil (List.splitOnP_ne_nil isSep s)
    rw [List.splitOnP_cons_eq_if_modifyHead, List.splitOnP_cons_eq_if_modifyHead, isSep_upper, ih,
      hsplit]
    by_cases hc : isSep c = true
    · rw [if_pos hc, if_pos hc]
      rfl
    · rw [if_neg hc, if_neg hc]
      -- the first fragment of the rest goes on as the rest does
      have hfirst : f = s.takeWhile (!isSep ·) := by
        have hhead := splitOnP_first s
        rw [hsplit] at hhead
        exact (List.cons.inj hhead).1
      have hpair : ∀ t, c = 0xC5 → f = 0xBF :: t → False := by
        intro t h0 h1
        cases s with
        | nil =>
          rw [hfirst] at h1
          cases h1
        | cons d s =>
          rw [hfirst, List.takeWhile_cons] at h1
          split_ifs at h1
          exact hother s h0 (by rw [(List.cons.inj h1).1])
      rw [List.modifyHead_cons, List.map_cons, List.map_cons, toUpper.eq_3 c f hpair]
      rfl

theorem mem_splitOnP {f s : Bytes} (h : f ∈ s.splitOnP isSep) : f <:+: s := by
  induction s with
  | nil =>
    rw [List.splitOnP_nil, List.mem_singleton] at h
    rw [h]
  | cons c s ih =>
    rw [splitOnP_first] at h
    rcases List.mem_cons.mp h with rfl | h
    · exact (List.takeWhile_prefix _).isInfix
    · have hrest : f ∈ s.splitOnP isSep := by
        rw [List.dropWhile_cons] at h
        split_ifs at h
        · rw [splitOnP_first]
          exact List.mem_cons_of_mem _ h
        · exact h
      exact (ih hrest).trans (List.suffix_cons c s).isInfix

theorem infix_splitOnP {t s : Bytes} (hsep : ∀ c ∈ t, isSep c = false) :
    t <:+: s ↔ ∃ f ∈ s.splitOnP isSep, t <:+: f := by
  constructor
  · intro h
    induction s with
    | nil => exact ⟨[], by simp, h⟩
    | cons c s ih =>
      rcases List.infix_cons_iff.mp h with ⟨u, hu⟩ | hinfix
      · refine ⟨(c :: s).takeWhile (!isSep ·), ?_, ?_⟩
        · rw [splitOnP_first]
          exact List.mem_cons_self ..
        · rw [← hu, List.takeWhile_append_of_pos (fun x hx => by simp [hsep x hx])]
          exact (List.prefix_append ..).isInfix
      · obtain ⟨f, hf, hin⟩ := ih hinfix
        rw [List.splitOnP_cons_eq_if_modifyHead]
        split_ifs
        · exact ⟨f, List.mem_cons_of_mem _ hf, hin⟩
        · obtain ⟨g, gs, hsplit⟩ := List.exists_cons_of_ne_nil (List.splitOnP_ne_nil isSep s)
          rw [hsplit] at hf ⊢
          rw [List.modifyHead_cons]
          rcases List.mem_cons.mp hf with rfl | hf
          · exact ⟨c :: f, List.mem_cons_self .., hin.trans (List.suffix_cons c f).isInfix⟩
          · exact ⟨f, List.mem_cons_of_mem _ hf, hin⟩
  · rintro ⟨f, hf, hin⟩
    exact hin.trans (mem_splitOnP hf)

theorem isSnapshot_fragments {a b : Bytes} (h : fragments a = fragments b) :
    isSnapshot a = isSnapshot b := by
  have hpart : ∀ v, isSnapshot v = true ↔ ∃ f ∈ fragments v, isSnapshot f = true := by
    intro v
    have hsep : ∀ c ∈ snapshotText, isSep c = false := by
      simpa using (by decide +kernel : snapshotText.all (fun c => !isSep c) = true)
    have hempty : isSnapshot [] = false := by decide
    rw [isSnapshot_within, infix_splitOnP hsep, splitOnP_toUpper]
    simp only [List.mem_map, exists_exists_and_eq_and, ← isSnapshot_within, fragments,
      List.mem_filter]
    constructor
    · rintro ⟨f, hf, hsnapshot⟩
      have hne : f ≠ [] := by
        rintro rfl
        rw [hempty] at hsnapshot
        cases hsnapshot
      exact ⟨f, ⟨hf, decide_eq_true hne⟩, hsnapshot⟩
    · rintro ⟨f, ⟨hf, -⟩, hsnapshot⟩
      exact ⟨f, hf, hsnapshot⟩
  rw [Bool.eq_iff_iff, hpart, hpart, h]

theorem isSnapshot_maximum {l : List Bytes} {m w : Bytes} (hm : IsMaximum l m)
    (hw : IsMaximum l w) : isSnapshot m = isSnapshot w := by
  apply isSnapshot_fragments
  apply compareVersions_eq_zero.mp
  have hle := hw.2 m hm.1
  have hge := hm.2 w hw.1
  rw [compareVersions_neg] at hge
  omega

/-- What `slices.SortFunc` promises. -/
def Sorts (sort : List Bytes → List Bytes) : Prop :=
  ∀ l, (sort l).Perm l ∧ (sort l).Pairwise (compareVersions · · ≤ 0)

structure Maintained (rest : List Bytes) (new : Versioning) : Prop where
  versions : new.versions = some rest
  latest : ∃ l, new.latest = some l ∧ IsMaximum rest l
  release : (∃ r, new.release = some r ∧ IsMaximum (rest.filter (!isSnapshot ·)) r) ∨
    (new.release = none ∧ ∀ w ∈ rest, isSnapshot w = true)

theorem compareVersions_self (a : Bytes) : compareVersions a a = 0 :=
  compareVersions_eq_zero.mpr rfl

theorem find_maximum {sort : List Bytes → List Bytes} (hsort : Sorts sort) {rest : List Bytes}
    {p : Bytes → Bool} {r : Bytes} (h : (sort rest).reverse.find? p = some r) :
    IsMaximum (rest.filter p) r := by
  obtain ⟨hperm, hsorted⟩ := hsort rest
  obtain ⟨hr, before, after, hsplit, hbefore⟩ := List.find?_eq_some_iff_append.mp h
  have hmem : ∀ w, w ∈ rest ↔ w ∈ before ++ r :: after := by
    intro w
    rw [← hsplit, List.mem_reverse, hperm.mem_iff]
  rw [← List.pairwise_reverse, hsplit, List.pairwise_append, List.pairwise_cons] at hsorted
  refine ⟨List.mem_filter.mpr ⟨(hmem r).mpr (by simp), hr⟩, ?_⟩
  intro w hw
  obtain ⟨hin, hp⟩ := List.mem_filter.mp hw
  rcases List.mem_append.mp ((hmem w).mp hin) with hlater | hearlier
  · have hnot := hbefore w hlater
    rw [hp] at hnot
    cases hnot
  · rcases List.mem_cons.mp hearlier with rfl | hearlier
    · rw [compareVersions_self]
    · exact hsorted.2.1.1 w hearlier

theorem last_maximum {sort : List Bytes → List Bytes} (hsort : Sorts sort) {rest : List Bytes}
    (hne : rest ≠ []) : ∃ l, (sort rest).getLast? = some l ∧ IsMaximum rest l := by
  have hsne : sort rest ≠ [] := by
    intro h
    have hperm := (hsort rest).1
    rw [h] at hperm
    exact hne hperm.nil_eq.symm
  obtain ⟨l, hl⟩ := Option.isSome_iff_exists.mp (List.getLast?_isSome.mpr hsne)
  have hfind : (sort rest).reverse.find? (fun _ => true) = some l := by
    rw [← hl, ← List.head?_reverse]
    cases (sort rest).reverse <;> rfl
  have hmax := find_maximum hsort hfind
  rw [List.filter_true] at hmax
  exact ⟨l, hl, hmax⟩

theorem release_maximum {sort : List Bytes → List Bytes} (hsort : Sorts sort) (rest : List Bytes) :
    (∃ r, (sort rest).reverse.find? (!isSnapshot ·) = some r ∧
      IsMaximum (rest.filter (!isSnapshot ·)) r) ∨
    ((sort rest).reverse.find? (!isSnapshot ·) = none ∧ ∀ w ∈ rest, isSnapshot w = true) := by
  cases h : (sort rest).reverse.find? (!isSnapshot ·) with
  | some r => exact .inl ⟨r, rfl, find_maximum hsort h⟩
  | none =>
    refine .inr ⟨rfl, ?_⟩
    intro w hw
    have hnone := List.find?_eq_none.mp h w
      (List.mem_reverse.mpr ((hsort rest).1.mem_iff.mpr hw))
    simpa using hnone

variable {sort : List Bytes → List Bytes} {old : Versioning} {versions : List Bytes}
  {version : Bytes}

theorem others_ne_nil (hother : ∃ w ∈ versions, w ≠ version) :
    versions.filter (· ≠ version) ≠ [] := by
  obtain ⟨w, hw, hne⟩ := hother
  exact List.ne_nil_of_mem (List.mem_filter.mpr ⟨hw, decide_eq_true hne⟩)

theorem handleDelete_eq (hold : old.versions = some versions) (hmem : version ∈ versions)
    (hother : ∃ w ∈ versions, w ≠ version) (now : Bytes) :
    handleDelete sort (some old) version now = .written { old with
      versions := some (versions.filter (· ≠ version))
      latest := (sort (versions.filter (· ≠ version))).getLast?
      release := (sort (versions.filter (· ≠ version))).getLast?
      lastUpdated := some now } := by
  unfold handleDelete
  simp only [hold, Option.getD_some, withoutVersion_eq, hmem, decide_true, Bool.not_true,
    Bool.false_eq_true, if_false]
  rw [if_neg (others_ne_nil hother)]

theorem updateMavenMetadata_eq (hold : old.versions = some versions) (hmem : version ∈ versions)
    (hother : ∃ w ∈ versions, w ≠ version) (now : Bytes) :
    updateMavenMetadataAfterVersionDelete sort (some old) version now = .written { old with
      versions := some (versions.filter (· ≠ version))
      latest := (sort (versions.filter (· ≠ version))).getLast?
      release := (sort (versions.filter (· ≠ version))).reverse.find? (!isSnapshot ·)
      lastUpdated := some now } := by
  unfold updateMavenMetadataAfterVersionDelete
  simp only [hold, Option.getD_some, withoutVersion_eq, hmem, decide_true, Bool.not_true,
    Bool.false_eq_true, if_false]
  rw [if_neg (others_ne_nil hother)]

theorem updateMavenMetadata_maintained (hsort : Sorts sort) (hold : old.versions = some versions)
    (hmem : version ∈ versions) (hother : ∃ w ∈ versions, w ≠ version) (now : Bytes) :
    ∃ new, updateMavenMetadataAfterVersionDelete sort (some old) version now = .written new ∧
      Maintained (versions.filter (· ≠ version)) new := by
  rw [updateMavenMetadata_eq hold hmem hother]
  exact ⟨_, rfl, rfl, last_maximum hsort (others_ne_nil hother), release_maximum hsort _⟩

/-- The update of `delete.go` is the same one where the greatest version left is no snapshot. -/
theorem version_removal_iff (hsort : Sorts sort) (hold : old.versions = some versions)
    (hmem : version ∈ versions) (hother : ∃ w ∈ versions, w ≠ version) (now : Bytes) :
    (∃ new, handleDelete sort (some old) version now = .written new ∧
      updateMavenMetadataAfterVersionDelete sort (some old) version now = .written new ∧
      Maintained (versions.filter (· ≠ version)) new) ↔
    ∀ m, IsMaximum (versions.filter (· ≠ version)) m → isSnapshot m = false := by
  obtain ⟨new', hpath, hmaintained⟩ := updateMavenMetadata_maintained hsort hold hmem hother now
  obtain ⟨l, hlast, hmax⟩ := last_maximum hsort (others_ne_nil hother)
  constructor
  · rintro ⟨new, hjar, -, hmaintained⟩ m hm
    rw [handleDelete_eq hold hmem hother, hlast] at hjar
    cases hjar
    rw [isSnapshot_maximum hm hmax]
    rcases hmaintained.release with ⟨r, hr, hrmax⟩ | ⟨hnone, -⟩
    · cases hr
      simpa using (List.mem_filter.mp hrmax.1).2
    · cases hnone
  · intro hcond
    have hfind : (sort (versions.filter (· ≠ version))).reverse.find? (!isSnapshot ·) = some l := by
      rw [← List.head?_reverse] at hlast
      obtain ⟨before, hbefore⟩ := List.head?_eq_some_iff.mp hlast
      rw [hbefore, List.find?_cons_of_pos (by simp [hcond l hmax])]
    refine ⟨new', ?_, hpath, hmaintained⟩
    rw [← hpath, handleDelete_eq hold hmem hother, updateMavenMetadata_eq hold hmem hother, hfind,
      hlast]

def byVersion : List Bytes → List Bytes := List.insertionSort (compareVersions · · ≤ 0)

theorem byVersion_sorts : Sorts byVersion := by
  intro l
  have htotal : Std.Total (compareVersions · · ≤ 0) := by
    constructor
    intro a b
    rw [compareVersions_neg a b]
    omega
  have htrans : IsTrans Bytes (compareVersions · · ≤ 0) :=
    ⟨fun _ _ _ => compareVersions_trans⟩
  exact ⟨List.perm_insertionSort _ l, List.pairwise_insertionSort _ l⟩

theorem version_removal_next : ∃ new,
    handleDelete byVersion (some ⟨none, none, none, some [[0x31], [0x32]]⟩) [0x31] [] =
      .written new ∧ new.release = some [0x32] := by
  have hiff := @version_removal_iff byVersion ⟨none, none, none, some [[0x31], [0x32]]⟩ _ [0x31]
    byVersion_sorts rfl (by decide) (by decide) []
  have hcond : ∀ m, IsMaximum ([[0x31], [0x32]].filter (· ≠ ([0x31] : Bytes))) m →
      isSnapshot m = false := by
    rintro m ⟨hm, -⟩
    obtain rfl : m = [0x32] := by simpa using hm
    decide
  obtain ⟨new, hjar, -, -⟩ := hiff.mpr hcond
  refine ⟨new, hjar, ?_⟩
  have hrelease : handleDelete byVersion (some ⟨none, none, none, some [[0x31], [0x32]]⟩) [0x31] []
      = .written ⟨some [0x32], some [0x32], some [], some [[0x32]]⟩ := by decide
  rw [hrelease] at hjar
  cases hjar
  rfl

/-- Versions `0`, `1` and `2-SNAPSHOT`: without `0` the two updates give other releases. -/
theorem snapshot_released : ¬∃ new,
    handleDelete byVersion (some ⟨none, none, none,
        some [[0x30], [0x31], 0x32 :: 0x2D :: snapshotText]⟩) [0x30] [] = .written new ∧
      updateMavenMetadataAfterVersionDelete byVersion (some ⟨none, none, none,
        some [[0x30], [0x31], 0x32 :: 0x2D :: snapshotText]⟩) [0x30] [] = .written new := by
  have hjar : handleDelete byVersion (some ⟨none, none, none,
      some [[0x30], [0x31], 0x32 :: 0x2D :: snapshotText]⟩) [0x30] [] =
      .written ⟨some (0x32 :: 0x2D :: snapshotText), some (0x32 :: 0x2D :: snapshotText), some [],
        some [[0x31], 0x32 :: 0x2D :: snapshotText]⟩ := by decide +kernel
  have hpath : updateMavenMetadataAfterVersionDelete byVersion (some ⟨none, none, none,
      some [[0x30], [0x31], 0x32 :: 0x2D :: snapshotText]⟩) [0x30] [] =
      .written ⟨some [0x31], some (0x32 :: 0x2D :: snapshotText), some [],
        some [[0x31], 0x32 :: 0x2D :: snapshotText]⟩ := by decide +kernel
  rintro ⟨new, h1, h2⟩
  rw [hjar] at h1
  rw [hpath, ← h1] at h2
  cases h2

end RenoP.Maven
