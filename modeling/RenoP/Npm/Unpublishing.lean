import Mathlib.Data.List.Induction
import RenoP.Npm.Revisions
import RenoP.Npm.Versions

/-!
# Unpublishing one npm version

What `UnpublishNPMVersion` leaves of the versions and the tags of a package, and which version
`latestNPMVersionTx` chooses.
-/

namespace RenoP.Npm

open RenoP.Database (Text)
open Fallible (refuse refuse_neg refuse_bind_ok bind_ok)

variable {lib : Library} {o : Outside} {t t' : Tables} {versions : GoMap Text NPMVersion}
  {v : Text}

/-- `semver.IsValid` of a name in the table, where versions have no leading `v`. -/
def semverValid (lib : Library) (version : Text) : Bool := lib.semverIsValid ('v' :: version)

/-- `semver.Compare` does not put the second name before the first. -/
def semverLE (lib : Library) (version version' : Text) : Prop :=
  lib.semverCompare ('v' :: version) ('v' :: version') ≤ 0

/-- `semver.Compare` is a total preorder on valid versions. -/
structure SemverPreorder (lib : Library) : Prop where
  total : ∀ a b, semverValid lib a = true → semverValid lib b = true →
    semverLE lib a b ∨ semverLE lib b a
  trans : ∀ a b c, semverValid lib a = true → semverValid lib b = true → semverValid lib c = true →
    semverLE lib a b → semverLE lib b c → semverLE lib a c

structure FirstGreatest (lib : Library) (before : Text → Text → Prop) (names : List Text)
    (latest : Text) : Prop where
  valid : semverValid lib latest = true
  mem : latest ∈ names
  upper : ∀ name ∈ names, semverValid lib name = true → semverLE lib name latest
  first : ∀ name ∈ names, semverValid lib name = true → semverLE lib latest name →
    name = latest ∨ before latest name

theorem FirstGreatest.step (hcompare : SemverPreorder lib) {before : Text → Text → Prop}
    {names : List Text} {latest name : Text} (h : FirstGreatest lib before names latest)
    (hname : ∀ earlier ∈ names, before earlier name) (hne : latest ≠ []) :
    FirstGreatest lib before (names ++ [name]) (greatest lib latest name) := by
  have hmem : ∀ {w}, w ∈ names ++ [name] → w ∈ names ∨ w = name := by
    intro w hw
    rcases List.mem_append.mp hw with hold | hnew
    · exact Or.inl hold
    · exact Or.inr (List.mem_singleton.mp hnew)
  unfold greatest
  dsimp only
  by_cases htake : lib.semverIsValid ('v' :: name) = true ∧
      (latest = [] ∨ 0 < lib.semverCompare ('v' :: name) ('v' :: latest))
  · rw [if_pos htake]
    have hvalid : semverValid lib name = true := htake.1
    have hgreater : ¬ semverLE lib name latest := not_le.mpr (htake.2.resolve_left hne)
    have hle : semverLE lib latest name :=
      (hcompare.total _ _ h.valid hvalid).resolve_right hgreater
    refine ⟨hvalid, List.mem_append_right _ (List.mem_singleton_self _), ?_, ?_⟩
    · intro w hw hwvalid
      rcases hmem hw with hold | rfl
      · exact hcompare.trans _ _ _ hwvalid h.valid hvalid (h.upper w hold hwvalid) hle
      · exact (hcompare.total _ _ hvalid hvalid).elim id id
    · intro w hw hwvalid htie
      rcases hmem hw with hold | rfl
      · exact absurd (hcompare.trans _ _ _ hvalid hwvalid h.valid htie (h.upper w hold hwvalid))
          hgreater
      · exact Or.inl rfl
  · rw [if_neg htake]
    refine ⟨h.valid, List.mem_append_left _ h.mem, ?_, ?_⟩
    · intro w hw hwvalid
      rcases hmem hw with hold | rfl
      · exact h.upper w hold hwvalid
      · exact not_lt.mp fun hlt => htake ⟨hwvalid, Or.inr hlt⟩
    · intro w hw hwvalid htie
      rcases hmem hw with hold | rfl
      · exact h.first w hold hwvalid htie
      · exact Or.inr (hname latest h.mem)

theorem greatest_scan (hcompare : SemverPreorder lib) {before : Text → Text → Prop}
    {names : List Text} (hsorted : names.Pairwise before) (hnamed : ∀ name ∈ names, name ≠ []) :
    (names.foldl (greatest lib) [] = [] ∧ ∀ name ∈ names, semverValid lib name = false) ∨
      FirstGreatest lib before names (names.foldl (greatest lib) []) := by
  induction names using List.reverseRecOn with
  | nil => exact Or.inl ⟨rfl, fun name hname => absurd hname List.not_mem_nil⟩
  | append_singleton names name ih =>
    rw [List.pairwise_append] at hsorted
    have hafter : ∀ earlier ∈ names, before earlier name := fun earlier hearlier =>
      hsorted.2.2 earlier hearlier name (List.mem_singleton_self _)
    rw [List.foldl_append, List.foldl_cons, List.foldl_nil]
    rcases ih hsorted.1 fun w hw => hnamed w (List.mem_append_left _ hw) with ⟨hnone, hinvalid⟩ | h
    · rw [hnone]
      unfold greatest
      dsimp only
      by_cases hvalid : semverValid lib name = true
      · rw [if_pos ⟨hvalid, Or.inl rfl⟩]
        refine Or.inr ⟨hvalid, List.mem_append_right _ (List.mem_singleton_self _), ?_, ?_⟩
        · intro w hw hwvalid
          rcases List.mem_append.mp hw with hold | hnew
          · rw [hinvalid w hold] at hwvalid
            cases hwvalid
          · rw [List.mem_singleton.mp hnew]
            exact (hcompare.total _ _ hvalid hvalid).elim id id
        · intro w hw hwvalid _
          rcases List.mem_append.mp hw with hold | hnew
          · rw [hinvalid w hold] at hwvalid
            cases hwvalid
          · exact Or.inl (List.mem_singleton.mp hnew)
      · rw [if_neg fun htake => hvalid htake.1]
        refine Or.inl ⟨rfl, fun w hw => ?_⟩
        rcases List.mem_append.mp hw with hold | hnew
        · exact hinvalid w hold
        · rw [List.mem_singleton.mp hnew]
          exact Bool.not_eq_true _ ▸ hvalid
    · exact Or.inr (h.step hcompare hafter (hnamed _ (List.mem_append_left _ h.mem)))

def Newer (versions : GoMap Text NPMVersion) (name name' : Text) : Prop :=
  ∀ row row', versions.load name = some row → versions.load name' = some row' →
    row'.createdAt < row.createdAt ∨ row'.createdAt = row.createdAt ∧ name' ≤ name

theorem liveNames_sorted (versions : GoMap Text NPMVersion) :
    (liveNames versions).Pairwise (Newer versions) := by
  have hsorted : ((versions.entries.filter fun e => !e.2.unpublished).mergeSort
      newestFirst).Pairwise fun e e' => newestFirst e e' = true :=
    List.pairwise_mergeSort newestFirst_trans newestFirst_total _
  have hrows : ∀ e ∈ (versions.entries.filter fun e => !e.2.unpublished).mergeSort newestFirst,
      versions.load e.1 = some e.2 := by
    intro e he
    rw [List.mem_mergeSort] at he
    exact (GoMap.mem_entries_iff versions e.1 e.2).mp (List.mem_filter.mp he).1
  refine List.pairwise_map.mpr (hsorted.imp_of_mem fun {e e'} he he' h => ?_)
  intro row row' hrow hrow'
  rw [hrows e he] at hrow
  rw [hrows e' he'] at hrow'
  cases hrow
  cases hrow'
  exact newestFirst_iff.mp h

/-- The version is the greatest valid one that is live, or the newest where none is valid. -/
def Chosen (lib : Library) (versions : GoMap Text NPMVersion) (latest : Text) : Prop :=
  live versions latest = true ∧
    ((∀ name, live versions name = true → semverValid lib name = false) ∧
        (∀ name, live versions name = true → name = latest ∨ Newer versions latest name) ∨
      semverValid lib latest = true ∧ ∀ name, live versions name = true →
        semverValid lib name = true → semverLE lib name latest ∧
          (semverLE lib latest name → name = latest ∨ Newer versions latest name))

theorem latestNPMVersionTx_chosen (hcompare : SemverPreorder lib)
    (hnamed : ∀ name row, versions.load name = some row → name ≠ []) {name : Text}
    (hlive : live versions name = true) :
    Chosen lib versions (latestNPMVersionTx lib versions) := by
  have hne : ∀ w ∈ liveNames versions, w ≠ [] := fun w hw =>
    live_ne_nil hnamed (mem_liveNames.mp hw)
  refine ⟨latestNPMVersionTx_live (latestNPMVersionTx_ne_nil hlive fun w => live_ne_nil hnamed), ?_⟩
  unfold latestNPMVersionTx
  dsimp only
  rcases greatest_scan hcompare (liveNames_sorted versions) hne with ⟨hnone, hinvalid⟩ | h
  · rw [if_pos hnone]
    refine Or.inl ⟨fun w hw => hinvalid w (mem_liveNames.mpr hw), fun w hw => ?_⟩
    have hmem := mem_liveNames.mpr hw
    have hsorted := liveNames_sorted versions
    cases hnames : liveNames versions with
    | nil =>
      rw [hnames] at hmem
      cases hmem
    | cons first names =>
      rw [hnames] at hmem hsorted
      rcases List.mem_cons.mp hmem with rfl | hlater
      · exact Or.inl rfl
      · exact Or.inr ((List.pairwise_cons.mp hsorted).1 w hlater)
  · rw [if_neg (hne _ h.mem)]
    exact Or.inr ⟨h.valid, fun w hw hwvalid =>
      ⟨h.upper w (mem_liveNames.mpr hw) hwvalid, h.first w (mem_liveNames.mpr hw) hwvalid⟩⟩

/-- The version is gone and nothing else has changed, but for a `latest` tag that named it. -/
structure UnpublishedAlone (lib : Library) (v : Text) (t t' : Tables) : Prop where
  gone : ∃ row, t'.versions.load v = some row ∧ row.unpublished = true
  untagged : ∀ tag, t'.tags.load tag ≠ some v
  versions : ∀ name, name ≠ v → t'.versions.load name = t.versions.load name
  tags : ∀ tag name, t.tags.load tag = some name → name ≠ v → t'.tags.load tag = some name
  latest : t.tags.load latestTag = some v → (∃ name, live t'.versions name = true) →
    t'.tags.load latestTag = some (latestNPMVersionTx lib t'.versions)
  chosen : SemverPreorder lib → (∃ name, live t'.versions name = true) →
    Chosen lib t'.versions (latestNPMVersionTx lib t'.versions)

/-- A `latest` tag that names another version names the one that is chosen without this one. -/
def LatestChosen (lib : Library) (v : Text) (t : Tables) : Prop :=
  ∀ name, t.tags.load latestTag = some name → name ≠ v →
    name = latestNPMVersionTx lib (t.versions.delete v)

theorem unpublishNPMVersion_ok (hok : unpublishNPMVersion lib o t v = .ok t') :
    live t.versions v = true ∧
      t'.versions = t.versions.updateWhere (fun name _ => decide (name = v)) markStale ∧
      t'.tags = if latestNPMVersionTx lib t'.versions = []
        then t.tags.deleteWhere fun _ name => decide (name = v)
        else (t.tags.deleteWhere fun _ name => decide (name = v)).store latestTag
          (latestNPMVersionTx lib t'.versions) := by
  obtain ⟨pkg, -, hok⟩ := bind_ok hok
  obtain ⟨-, hok⟩ := refuse_bind_ok hok
  obtain ⟨-, -, hok⟩ := bind_ok hok
  obtain ⟨-, hok⟩ := refuse_bind_ok hok
  obtain ⟨hlive, hok⟩ := refuse_bind_ok hok
  dsimp only at hok
  obtain ⟨tags, hmove, hreturn⟩ := bind_ok hok
  cases hreturn
  refine ⟨Bool.not_eq_false _ ▸ hlive, rfl, ?_⟩
  unfold moveLatest at hmove
  split_ifs at hmove ⊢ with hnone
  · cases hmove
    rfl
  · obtain ⟨-, -, hupsert⟩ := bind_ok hmove
    rw [(upsertNPMTag_ok hupsert).2, sanitizeTag_latest]

theorem latestNPMVersionTx_without (versions : GoMap Text NPMVersion) (v : Text) :
    latestNPMVersionTx lib (versions.updateWhere (fun name _ => decide (name = v)) markStale) =
      latestNPMVersionTx lib (versions.delete v) := by
  apply latestNPMVersionTx_congr
  funext name
  rw [liveRow_markStale, liveRow_delete]

theorem load_marked {name : Text} (hne : name ≠ v) :
    (versions.updateWhere (fun name _ => decide (name = v)) markStale).load name =
      versions.load name := by
  rw [GoMap.load_updateWhere, decide_eq_false hne]
  cases versions.load name <;> rfl

theorem load_moved {tags : GoMap Text Text} {latest tag : Text} :
    (if latest = [] then tags.deleteWhere fun _ name => decide (name = v)
      else (tags.deleteWhere fun _ name => decide (name = v)).store latestTag latest).load tag =
      if tag = latestTag ∧ latest ≠ [] then some latest
      else (tags.load tag).filter fun name => !decide (name = v) := by
  by_cases hnone : latest = []
  · rw [if_pos hnone, if_neg fun h => h.2 hnone, GoMap.load_deleteWhere]
  · rw [if_neg hnone, GoMap.load_store, GoMap.load_deleteWhere]
    by_cases htag : tag = latestTag
    · rw [if_pos htag, if_pos ⟨htag, hnone⟩]
    · rw [if_neg htag, if_neg fun h => htag h.1]

theorem unpublish_frame_iff (hlive : TagsLive t.versions t.tags)
    (hnamed : ∀ name row, t.versions.load name = some row → name ≠ [])
    (hok : unpublishNPMVersion lib o t v = .ok t') :
    UnpublishedAlone lib v t t' ↔ LatestChosen lib v t := by
  obtain ⟨hv, hversions, htags⟩ := unpublishNPMVersion_ok hok
  have hrow : ∀ name, name ≠ v → t'.versions.load name = t.versions.load name := by
    intro name hne
    rw [hversions]
    exact load_marked hne
  have hdead : live t'.versions v = false := by
    rw [hversions]
    exact mark_dead fun _ => decide_eq_true rfl
  have hkept : ∀ name, name ≠ v → live t'.versions name = live t.versions name := by
    intro name hne
    rw [hversions]
    exact mark_live fun _ => decide_eq_false hne
  have hnamed' : ∀ name row, t'.versions.load name = some row → name ≠ [] := by
    intro name row hload
    by_cases hname : name = v
    · rw [hname]
      exact live_ne_nil hnamed hv
    · rw [hrow name hname] at hload
      exact hnamed name row hload
  have hsome : ∀ name, live t'.versions name = true → latestNPMVersionTx lib t'.versions ≠ [] :=
    fun name hname => latestNPMVersionTx_ne_nil hname fun w => live_ne_nil hnamed'
  have hwithout : latestNPMVersionTx lib (t.versions.delete v) =
      latestNPMVersionTx lib t'.versions := by
    rw [hversions, latestNPMVersionTx_without]
  have hload : ∀ tag, t'.tags.load tag =
      if tag = latestTag ∧ latestNPMVersionTx lib t'.versions ≠ [] then
        some (latestNPMVersionTx lib t'.versions)
      else (t.tags.load tag).filter fun name => !decide (name = v) := by
    intro tag
    rw [htags]
    exact load_moved
  constructor
  · intro h name hname hne
    have hstays := h.tags latestTag name hname hne
    have hother : live t'.versions name = true := by rw [hkept name hne]; exact hlive _ _ hname
    rw [hload, if_pos ⟨rfl, hsome name hother⟩] at hstays
    rw [hwithout]
    exact (Option.some.inj hstays).symm
  · intro h
    refine ⟨?_, fun tag htag => ?_, hrow, fun tag name hname hne => ?_, ?_, ?_⟩
    · obtain ⟨row, hvrow, -⟩ := live_iff.mp hv
      refine ⟨{ row with unpublished := true }, ?_, rfl⟩
      rw [hversions, GoMap.load_updateWhere, hvrow, Option.map_some, decide_eq_true rfl]
      rfl
    · rw [hload] at htag
      split_ifs at htag with hmoved
      · rw [← Option.some.inj htag] at hdead
        rw [latestNPMVersionTx_live hmoved.2] at hdead
        cases hdead
      · have hother := (Option.filter_eq_some_iff.mp htag).2
        simp at hother
    · rw [hload]
      by_cases htag : tag = latestTag
      · rw [htag] at hname
        have hother : live t'.versions name = true := by
          rw [hkept name hne]
          exact hlive _ _ hname
        rw [if_pos ⟨htag, hsome name hother⟩, ← hwithout, ← h name hname hne]
      · rw [if_neg fun hmoved => htag hmoved.1, hname, Option.filter_some, decide_eq_false hne]
        rfl
    · rintro - ⟨name, hname⟩
      rw [hload, if_pos ⟨rfl, hsome name hname⟩]
    · rintro hcompare ⟨name, hname⟩
      exact latestNPMVersionTx_chosen hcompare hnamed' hname

def digitLibrary : Library :=
  { plainLibrary with
    semverCompare := fun a b => (a.getLastD '0').toNat - (b.getLastD '0').toNat }

def publishedAt (createdAt : ℤ) : NPMVersion where
  manifest := ['m']
  publisher := ['o']
  tarballPath := ['p']
  shasum := ['s']
  integrity := ['i']
  size := 1
  deprecated := []
  unpublished := false
  mirrored := false
  createdAt := createdAt

def threeVersions (latest : Text) : Tables where
  package := some ⟨[], ['o'], latest, false, false, false, true, 1⟩
  versions := (((∅ : GoMap Text NPMVersion).store ['1'] (publishedAt 1)).store ['2']
    (publishedAt 2)).store ['3'] (publishedAt 3)
  tags := (∅ : GoMap Text Text).store latestTag latest

theorem digitLibrary_preorder : SemverPreorder digitLibrary where
  total a b _ _ := by
    unfold semverLE digitLibrary
    dsimp only
    omega
  trans a b c _ _ _ h h' := by
    unfold semverLE digitLibrary at h h' ⊢
    dsimp only at h h' ⊢
    omega

theorem threeVersions_load {latest name : Text} {row : NPMVersion}
    (h : (threeVersions latest).versions.load name = some row) :
    name = ['1'] ∨ name = ['2'] ∨ name = ['3'] := by
  simp only [threeVersions, GoMap.load_store, GoMap.load_empty] at h
  grind

theorem threeVersions_tagsLive {latest : Text}
    (h : live (threeVersions latest).versions latest = true) :
    TagsLive (threeVersions latest).versions (threeVersions latest).tags := by
  intro tag version hload
  simp only [threeVersions, GoMap.load_store, GoMap.load_empty] at hload
  split_ifs at hload
  cases hload
  exact h

theorem moveLatest_unlocked (tags : GoMap Text Text) (latest : Text) :
    ∃ tags', moveLatest lib unlocked tags latest = .ok tags' := by
  unfold moveLatest
  split_ifs with hnone
  · exact ⟨_, rfl⟩
  · have hchange : ensureNPMTagChangeTx lib unlocked tags latestTag latest = .ok () := by
      unfold ensureNPMTagChangeTx
      dsimp only
      split_ifs
      · rfl
      · exact refuse_neg (by simp [unlocked])
    rw [hchange]
    unfold upsertNPMTag
    rw [refuse_neg]
    · exact ⟨_, rfl⟩
    · rw [sanitizeTag_latest]
      exact fun h => h.elim (by decide) hnone

theorem unpublish_three (lib : Library) (latest : Text) :
    ∃ t', unpublishNPMVersion lib unlocked (threeVersions latest) ['3'] = .ok t' := by
  have hmove : ∃ tags, moveLatest lib unlocked
      ((threeVersions latest).tags.deleteWhere fun _ name => decide (name = ['3']))
      (latestNPMVersionTx lib ((threeVersions latest).versions.updateWhere
        (fun name _ => decide (name = ['3'])) markStale)) = .ok tags := moveLatest_unlocked _ _
  obtain ⟨tags, htags⟩ := hmove
  have hlive : ¬ live (threeVersions latest).versions ['3'] = false := by
    unfold live threeVersions
    rw [GoMap.load_store_self]
    decide
  unfold unpublishNPMVersion
  dsimp only
  rw [htags, refuse_neg hlive]
  exact ⟨_, rfl⟩

/-- The `latest` tag pinned to version 1 moves to version 2 when version 3 goes. -/
theorem pinned_latest_moves : ∃ t',
    TagsLive (threeVersions ['1']).versions (threeVersions ['1']).tags ∧
    unpublishNPMVersion digitLibrary unlocked (threeVersions ['1']) ['3'] = .ok t' ∧
    (threeVersions ['1']).tags.load latestTag = some ['1'] ∧
    ¬ UnpublishedAlone digitLibrary ['3'] (threeVersions ['1']) t' := by
  obtain ⟨t', hok⟩ := unpublish_three digitLibrary ['1']
  refine ⟨t', threeVersions_tagsLive (by decide +kernel), hok, GoMap.load_store_self _ _ _,
    fun h => ?_⟩
  obtain ⟨-, hversions, htags⟩ := unpublishNPMVersion_ok hok
  have hlive : ∀ name, name = ['1'] ∨ name = ['2'] → live t'.versions name = true := by
    rintro name (rfl | rfl)
    · rw [hversions]
      decide +kernel
    · rw [hversions]
      decide +kernel
  -- version 2 is greater than version 1, which therefore is not the chosen one
  have hchosen := h.chosen digitLibrary_preorder ⟨['1'], hlive _ (Or.inl rfl)⟩
  have hgreatest : latestNPMVersionTx digitLibrary t'.versions ≠ ['1'] := by
    intro hone
    rcases hchosen.2 with ⟨hinvalid, -⟩ | ⟨-, hupper⟩
    · exact absurd (hinvalid ['1'] (hlive _ (Or.inl rfl))) (by decide)
    · have hle := (hupper ['2'] (hlive _ (Or.inr rfl)) rfl).1
      rw [hone] at hle
      exact absurd hle (by unfold semverLE digitLibrary; decide)
  have hkept := h.tags latestTag ['1'] (GoMap.load_store_self _ _ _) (by decide)
  have hsome : latestNPMVersionTx digitLibrary t'.versions ≠ [] := by
    intro hnone
    rw [hnone] at hchosen
    have hdead : live t'.versions [] = false := by
      rw [hversions]
      decide +kernel
    exact absurd hchosen.1 (by rw [hdead]; decide)
  rw [htags, load_moved, if_pos ⟨rfl, hsome⟩] at hkept
  exact hgreatest (Option.some.inj hkept)

theorem latest_follows : ∃ t',
    unpublishNPMVersion digitLibrary unlocked (threeVersions ['3']) ['3'] = .ok t' ∧
      UnpublishedAlone digitLibrary ['3'] (threeVersions ['3']) t' := by
  obtain ⟨t', hok⟩ := unpublish_three digitLibrary ['3']
  have hnamed : ∀ name row, (threeVersions ['3']).versions.load name = some row → name ≠ [] := by
    intro name row hload
    rcases threeVersions_load hload with rfl | rfl | rfl <;> exact List.cons_ne_nil _ _
  refine ⟨t', hok, (unpublish_frame_iff (threeVersions_tagsLive (by decide +kernel)) hnamed hok).mpr
    fun name hname hne => ?_⟩
  exact absurd (Option.some.inj ((GoMap.load_store_self _ _ _).symm.trans hname)).symm hne

end RenoP.Npm
