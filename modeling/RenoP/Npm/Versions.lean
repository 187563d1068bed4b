import RenoP.Lib.Runs
import RenoP.Npm.Transactions

/-!
# Versions of an npm package

Any sequence of transactions on one package: tags, latest version, withdrawn and published
versions.
-/

namespace RenoP.Npm

open RenoP.Database (Text)
open Fallible (refuse refuse_bind_ok bind_ok foldlM_invariant)

variable {lib : Library} {o : Outside} {t t' : Tables} {versions : GoMap Text NPMVersion}

inductive Call where
  | publish (o : Outside) (username description : Text) (p : Publication) (tags : GoMap Text Text)
  | mirror (o : Outside) (pkg : MirroredPackage) (versions : List Publication)
      (tags : GoMap Text Text)
  | setTag (o : Outside) (tag version : Text)
  | deleteTag (o : Outside) (tag : Text)
  | packument (o : Outside) (deprecations tags : GoMap Text Text)
  | unpublish (o : Outside) (version : Text)
  | delete (o : Outside)

def Call.apply (lib : Library) (t : Tables) : Call → Except NPMError Tables
  | .publish o username description p tags =>
    recordNPMPublication lib o t username description p tags
  | .mirror o pkg versions tags => recordNPMMirrorPublication lib o t pkg versions tags
  | .setTag o tag version => setNPMDistTag lib o t tag version
  | .deleteTag o tag => deleteNPMDistTag lib o t tag
  | .packument o deprecations tags => updateNPMPackument lib o t deprecations tags
  | .unpublish o version => unpublishNPMVersion lib o t version
  | .delete o => deleteNPMPackage o t

structure History where
  tables : Tables
  published : GoMap Text NPMVersion
  withdrawn : List Text

def History.record (lib : Library) (h : History) (t : Tables) : Call → History
  | .publish _ username _ p _ =>
    ⟨t, h.published.store p.version (p.row lib username false), h.withdrawn⟩
  | .unpublish _ version => ⟨t, h.published, version :: h.withdrawn⟩
  | .delete _ => ⟨t, h.published, h.tables.versions.keys ++ h.withdrawn⟩
  | _ => ⟨t, h.published, h.withdrawn⟩

def History.next (lib : Library) (h : History) (call : Call) : History :=
  match call.apply lib h.tables with
  | .ok t => h.record lib t call
  | .error _ => h

structure Fresh (t : Tables) : Prop where
  versions : t.versions = ∅
  tags : t.tags = ∅
  latest : ∀ pkg, t.package = some pkg → pkg.latestVersion = []

def History.start (t : Tables) : History := ⟨t, ∅, []⟩

/-- The versions and tags of a packument from upstream, as `parseMirroredPackument` returns them. -/
structure Parsed (versions : List Publication) (tags : GoMap Text Text) : Prop where
  usable : ∀ p ∈ versions,
    p.version ≠ [] ∧ p.manifest ≠ [] ∧ byteLength p.manifest ≤ maxManifestBytes
  known : ∀ tag version, tags.load tag = some version → ∃ p ∈ versions, p.version = version

def Call.Proper : Call → Prop
  | .mirror _ _ versions tags => Parsed versions tags
  | _ => True

structure Sound (lib : Library) (h : History) : Prop where
  tags : TagsLive h.tables.versions h.tables.tags
  latest : ∀ pkg, h.tables.package = some pkg →
    (∀ version, h.tables.tags.load latestTag = some version → pkg.latestVersion = version) ∧
    (h.tables.tags.load latestTag = none →
      pkg.latestVersion = latestNPMVersionTx lib h.tables.versions)
  withdrawn : ∀ version ∈ h.withdrawn, live h.tables.versions version = false
  published : ∀ version row, h.published.load version = some row →
    ∃ row', h.tables.versions.load version = some row' ∧ row'.mirrored = false ∧
      row'.manifest = row.manifest ∧ row'.integrity = row.integrity ∧
      row'.tarballPath = row.tarballPath
  recorded : ∀ version row, h.tables.versions.load version = some row → row.mirrored = false →
    h.published.has version = true

/-- The tags of a packument that keep the latest version: the `latest` tag is among them, and what
is stored under its name agrees. -/
def KeepsLatest (lib : Library) (tags : GoMap Text Text) : Prop :=
  ∃ latest, tags.load latestTag = some latest ∧
    ∀ tag version, tags.load tag = some version → sanitizeTag lib tag = latestTag →
      version = latest

/-- A packument keeps the latest version, or nothing is live; a refresh lists no version that was
withdrawn. -/
def Call.Harmless (lib : Library) (h : History) : Call → Prop
  | .packument _ _ tags =>
    KeepsLatest lib tags ∨ ∀ version, live h.tables.versions version = false
  | .mirror _ _ versions _ => ∀ p ∈ versions, p.version ∉ h.withdrawn
  | _ => True

def Safe (lib : Library) (h : History) (call : Call) : Prop :=
  ∀ t, call.apply lib h.tables = .ok t → call.Harmless lib h

structure Kept (lib : Library) (h : History) : Prop where
  named : ∀ version row, h.tables.versions.load version = some row → version ≠ []
  mirrored : ∀ version row, h.tables.versions.load version = some row →
    ∃ pkg, h.tables.package = some pkg ∧ row.mirrored = pkg.mirrored
  tags : TagsLive h.tables.versions h.tables.tags
  latest : ∀ pkg, h.tables.package = some pkg →
    pkg.latestVersion = latestOf lib h.tables.versions h.tables.tags
  withdrawn : ∀ version ∈ h.withdrawn, live h.tables.versions version = false
  tombstones : ∀ pkg, h.tables.package = some pkg → pkg.mirrored = false →
    ∀ version ∈ h.withdrawn, h.tables.versions.has version = true
  published : ∀ version row, h.published.load version = some row →
    ∃ row', h.tables.versions.load version = some row' ∧ row'.mirrored = false ∧
      row'.manifest = row.manifest ∧ row'.integrity = row.integrity ∧
      row'.tarballPath = row.tarballPath
  recorded : ∀ version row, h.tables.versions.load version = some row → row.mirrored = false →
    h.published.has version = true

variable {h : History}

theorem live_ne_nil (hnamed : ∀ version row, versions.load version = some row → version ≠ [])
    {version : Text} (hlive : live versions version = true) : version ≠ [] := by
  obtain ⟨row, hload, -⟩ := live_iff.mp hlive
  exact hnamed version row hload

theorem Kept.sound (hk : Kept lib h) : Sound lib h := by
  constructor
  · exact hk.tags
  · intro pkg hpkg
    have hlatest := hk.latest pkg hpkg
    constructor
    · intro version hload
      rw [hlatest]
      exact latestOf_of_load hload (live_ne_nil hk.named (hk.tags latestTag version hload))
    · intro hnone
      rw [hlatest]
      exact latestOf_of_none hnone
  · exact hk.withdrawn
  · exact hk.published
  · exact hk.recorded

theorem kept_start (ht : Fresh t) : Kept lib (History.start t) := by
  have hrow : ∀ {P : Prop} {version row}, t.versions.load version = some row → P := by
    intro P version row hload
    rw [ht.versions] at hload
    cases (GoMap.load_empty version).symm.trans hload
  have hdead : ∀ version, live t.versions version = false := by
    intro version
    rw [ht.versions]
    rfl
  constructor
  · exact fun version row hload => hrow hload
  · exact fun version row hload => hrow hload
  · show TagsLive t.versions t.tags
    rw [ht.tags]
    exact tagsLive_empty
  · intro pkg hpkg
    rw [ht.latest pkg hpkg]
    show [] = latestOf lib t.versions t.tags
    rw [ht.tags, latestOf_of_none (GoMap.load_empty _), latestNPMVersionTx_nil hdead]
  · exact fun version hmem => by cases hmem
  · exact fun pkg _ _ version hmem => by cases hmem
  · intro version row hload
    cases (GoMap.load_empty version).symm.trans hload
  · exact fun version row hload => hrow hload

theorem Kept.edit {withdrawn : List Text} {pkg pkg' : NPMPackage} (hk : Kept lib h)
    (hpkg : h.tables.package = some pkg) (hpkg' : t'.package = some pkg')
    (hmirrored : pkg'.mirrored = pkg.mirrored)
    (hedit : RowsEdited h.tables.versions t'.versions) (htags : TagsLive t'.versions t'.tags)
    (hlatest : pkg'.latestVersion = latestOf lib t'.versions t'.tags)
    (hwithdrawn : ∀ version ∈ withdrawn,
      version ∈ h.withdrawn ∨ h.tables.versions.has version = true ∧
        live t'.versions version = false) :
    Kept lib ⟨t', h.published, withdrawn⟩ := by
  constructor
  · intro version row' hload'
    obtain ⟨row, hload, -⟩ := hedit.before hload'
    exact hk.named version row hload
  · intro version row' hload'
    obtain ⟨row, hload, hrow⟩ := hedit.before hload'
    obtain ⟨found, hfound, hsame⟩ := hk.mirrored version row hload
    cases hpkg.symm.trans hfound
    exact ⟨pkg', hpkg', hrow.mirrored.trans (hsame.trans hmirrored.symm)⟩
  · exact htags
  · intro found hfound
    cases hpkg'.symm.trans hfound
    exact hlatest
  · intro version hmem
    rcases hwithdrawn version hmem with hold | ⟨-, hnew⟩
    · by_contra hlive
      rw [Bool.not_eq_false] at hlive
      exact absurd ((hk.withdrawn version hold).symm.trans (hedit.live hlive)) (by decide)
    · exact hnew
  · intro found hfound hlocal version hmem
    cases hpkg'.symm.trans hfound
    have hhas : h.tables.versions.has version = true := by
      rcases hwithdrawn version hmem with hold | ⟨hhas, -⟩
      · exact hk.tombstones pkg hpkg (hmirrored.symm.trans hlocal) version hold
      · exact hhas
    obtain ⟨row, hload⟩ := (GoMap.has_eq_true _ _).mp hhas
    obtain ⟨row', hload', -⟩ := hedit.after hload
    exact (GoMap.has_eq_true _ _).mpr ⟨row', hload'⟩
  · intro version row hpublished
    obtain ⟨row₁, hload, hlocal, hmanifest, hintegrity, hpath⟩ :=
      hk.published version row hpublished
    obtain ⟨row', hload', hrow⟩ := hedit.after hload
    exact ⟨row', hload', hrow.mirrored.trans hlocal, hrow.manifest.trans hmanifest,
      hrow.integrity.trans hintegrity, hrow.tarballPath.trans hpath⟩
  · intro version row' hload' hlocal
    obtain ⟨row, hload, hrow⟩ := hedit.before hload'
    exact hk.recorded version row hload (hrow.mirrored.symm.trans hlocal)

theorem Kept.retag {tags : GoMap Text Text} {pkg : NPMPackage} (hk : Kept lib h)
    (hpkg : h.tables.package = some pkg) (htags : TagsLive h.tables.versions tags) :
    Kept lib ⟨retagged lib h.tables pkg tags, h.published, h.withdrawn⟩ :=
  hk.edit hpkg rfl rfl (.refl _) htags rfl fun _ hmem => Or.inl hmem

theorem Kept.setTag {tag version : Text} (hk : Kept lib h)
    (hok : setNPMDistTag lib o h.tables tag version = .ok t') :
    Kept lib ⟨t', h.published, h.withdrawn⟩ := by
  obtain ⟨pkg, hlock, hok⟩ := bind_ok hok
  obtain ⟨-, hok⟩ := refuse_bind_ok hok
  obtain ⟨-, -, hok⟩ := bind_ok hok
  obtain ⟨hlive, hok⟩ := refuse_bind_ok hok
  obtain ⟨-, -, hok⟩ := bind_ok hok
  obtain ⟨tags, hupsert, hreturn⟩ := bind_ok hok
  cases hreturn
  rw [Bool.not_eq_false] at hlive
  exact hk.retag (lockNPMPackage_ok hlock) (hk.tags.upsert hlive hupsert)

theorem Kept.deleteTag {tag : Text} (hk : Kept lib h)
    (hok : deleteNPMDistTag lib o h.tables tag = .ok t') :
    Kept lib ⟨t', h.published, h.withdrawn⟩ := by
  unfold deleteNPMDistTag at hok
  dsimp only at hok
  obtain ⟨pkg, hlock, hok⟩ := bind_ok hok
  obtain ⟨-, hok⟩ := refuse_bind_ok hok
  obtain ⟨-, -, hok⟩ := bind_ok hok
  obtain ⟨-, -, hok⟩ := bind_ok hok
  obtain ⟨-, hreturn⟩ := refuse_bind_ok hok
  cases hreturn
  exact hk.retag (lockNPMPackage_ok hlock) (hk.tags.delete _)

theorem packument_latest {order : GoMap.RangeOrder Text Text} {tags stored : GoMap Text Text}
    (hkeeps : KeepsLatest lib tags ∨ ∀ version, live versions version = false)
    (hnamed : ∀ version row, versions.load version = some row → version ≠ [])
    (hlive : TagsLive versions stored)
    (hok : (order.pairs tags).foldlM (replaceTag lib versions) (∅ : GoMap Text Text) =
      .ok stored) : tagVersion tags latestTag = latestOf lib versions stored := by
  rcases hkeeps with ⟨latest, hload, hagree⟩ | hdead
  · have hstored : stored.load latestTag = some latest := by
      apply replaceTag_latest _ _ hok
      · intro e he htag
        exact hagree e.1 e.2 ((order.mem_pairs tags e.1 e.2).mp he) htag
      · exact Or.inl ⟨(latestTag, latest), (order.mem_pairs tags _ _).mpr hload, sanitizeTag_latest⟩
    have hne := live_ne_nil hnamed (hlive latestTag latest hstored)
    rw [tagVersion_of_load hload, latestOf_of_load hstored hne]
  · have hnone : ∀ tag, tags.load tag = none := by
      intro tag
      cases hload : tags.load tag with
      | none => rfl
      | some version =>
        have hmem := (order.mem_pairs tags tag version).mpr hload
        cases hpairs : order.pairs tags with
        | nil =>
          rw [hpairs] at hmem
          cases hmem
        | cons e l =>
          rw [hpairs] at hok
          obtain ⟨first, hstep, -⟩ := Fallible.foldlM_cons_ok hok
          exact absurd (hdead e.2) (refuse_bind_ok hstep).1
    have hempty : stored.load latestTag = none := by
      cases hload : stored.load latestTag with
      | none => rfl
      | some version => exact absurd ((hdead version).symm.trans (hlive _ _ hload)) (by decide)
    rw [tagVersion_of_none (hnone latestTag), latestOf_of_none hempty,
      latestNPMVersionTx_nil hdead]

theorem Kept.packument {deprecations tags : GoMap Text Text} (hk : Kept lib h)
    (hharmless : KeepsLatest lib tags ∨ ∀ version, live h.tables.versions version = false)
    (hok : updateNPMPackument lib o h.tables deprecations tags = .ok t') :
    Kept lib ⟨t', h.published, h.withdrawn⟩ := by
  obtain ⟨pkg, hlock, hok⟩ := bind_ok hok
  obtain ⟨-, hok⟩ := refuse_bind_ok hok
  obtain ⟨-, -, hok⟩ := bind_ok hok
  obtain ⟨-, hok⟩ := refuse_bind_ok hok
  obtain ⟨versions, hdeprecate, hok⟩ := bind_ok hok
  obtain ⟨stored, hreplace, hreturn⟩ := bind_ok hok
  cases hreturn
  have hedit := RowsEdited.deprecations hdeprecate
  have hlive := tagsLive_empty.replace hreplace
  have hnamed : ∀ version row, versions.load version = some row → version ≠ [] := by
    intro version row' hload'
    obtain ⟨row, hload, -⟩ := hedit.before hload'
    exact hk.named version row hload
  have hkeeps : KeepsLatest lib tags ∨ ∀ version, live versions version = false := by
    refine hharmless.imp_right fun hdead version => ?_
    by_contra hnot
    rw [Bool.not_eq_false] at hnot
    exact absurd ((hdead version).symm.trans (hedit.live hnot)) (by decide)
  exact hk.edit (lockNPMPackage_ok hlock) rfl rfl hedit hlive
    (packument_latest hkeeps hnamed hlive hreplace) fun _ hmem => Or.inl hmem

theorem mark_dead {p : Text → NPMVersion → Bool} {version : Text}
    (hmark : ∀ row, p version row = true) :
    live (versions.updateWhere p markStale) version = false := by
  unfold live
  rw [GoMap.load_updateWhere]
  cases versions.load version with
  | none => rfl
  | some row =>
    rw [Option.map_some, Option.any_some, hmark row, if_pos rfl]
    rfl

theorem mark_live {p : Text → NPMVersion → Bool} {version : Text}
    (hkeep : ∀ row, p version row = false) :
    live (versions.updateWhere p markStale) version = live versions version := by
  unfold live
  rw [GoMap.load_updateWhere]
  cases versions.load version with
  | none => rfl
  | some row =>
    rw [Option.map_some, Option.any_some, Option.any_some, hkeep row, if_neg Bool.false_ne_true]

theorem moveLatest_ok {tags tags' : GoMap Text Text}
    (hnamed : ∀ version row, versions.load version = some row → version ≠ [])
    (htags : TagsLive versions tags)
    (hok : moveLatest lib o tags (latestNPMVersionTx lib versions) = .ok tags') :
    TagsLive versions tags' ∧ latestNPMVersionTx lib versions = latestOf lib versions tags' := by
  unfold moveLatest at hok
  split_ifs at hok with hnone
  · cases hok
    refine ⟨htags, ?_⟩
    cases hload : tags.load latestTag with
    | none => exact (latestOf_of_none hload).symm
    | some version =>
      have hchosen : latestNPMVersionTx lib versions ≠ [] :=
        latestNPMVersionTx_ne_nil (htags latestTag version hload) fun name => live_ne_nil hnamed
      exact absurd hnone hchosen
  · obtain ⟨-, -, hupsert⟩ := bind_ok hok
    have hlive := latestNPMVersionTx_live hnone
    refine ⟨htags.upsert hlive hupsert, ?_⟩
    rw [(upsertNPMTag_ok hupsert).2, sanitizeTag_latest]
    exact (latestOf_of_load (GoMap.load_store_self _ _ _) hnone).symm

theorem Kept.unpublish {version : Text} (hk : Kept lib h)
    (hok : unpublishNPMVersion lib o h.tables version = .ok t') :
    Kept lib ⟨t', h.published, version :: h.withdrawn⟩ := by
  obtain ⟨pkg, hlock, hok⟩ := bind_ok hok
  obtain ⟨-, hok⟩ := refuse_bind_ok hok
  obtain ⟨-, -, hok⟩ := bind_ok hok
  obtain ⟨-, hok⟩ := refuse_bind_ok hok
  obtain ⟨hlive, hok⟩ := refuse_bind_ok hok
  dsimp only at hok
  obtain ⟨tags, hmove, hreturn⟩ := bind_ok hok
  cases hreturn
  rw [Bool.not_eq_false] at hlive
  have hedit := RowsEdited.markWhere h.tables.versions fun name _ => decide (name = version)
  have hnamed : ∀ name row, (h.tables.versions.updateWhere
      (fun name _ => decide (name = version)) markStale).load name = some row → name ≠ [] := by
    intro name row' hload'
    obtain ⟨row, hload, -⟩ := hedit.before hload'
    exact hk.named name row hload
  have hleft : TagsLive (h.tables.versions.updateWhere
      (fun name _ => decide (name = version)) markStale)
      (h.tables.tags.deleteWhere fun _ v => decide (v = version)) := by
    intro tag v hload
    rw [GoMap.load_deleteWhere, Option.filter_eq_some_iff, Bool.not_eq_true',
      decide_eq_false_iff_not] at hload
    rw [mark_live fun _ => decide_eq_false hload.2]
    exact hk.tags tag v hload.1
  obtain ⟨htags, hlatest⟩ := moveLatest_ok hnamed hleft hmove
  refine hk.edit (lockNPMPackage_ok hlock) rfl rfl hedit htags hlatest ?_
  intro name hmem
  rcases List.mem_cons.mp hmem with rfl | hold
  · obtain ⟨row, hload, -⟩ := live_iff.mp hlive
    exact Or.inr ⟨(GoMap.has_eq_true _ _).mpr ⟨row, hload⟩,
      mark_dead fun _ => decide_eq_true rfl⟩
  · exact Or.inl hold

theorem Kept.delete (hk : Kept lib h) (hok : deleteNPMPackage o h.tables = .ok t') :
    Kept lib ⟨t', h.published, h.tables.versions.keys ++ h.withdrawn⟩ := by
  obtain ⟨pkg, hlock, hok⟩ := bind_ok hok
  obtain ⟨-, hok⟩ := refuse_bind_ok hok
  obtain ⟨-, -, hok⟩ := bind_ok hok
  obtain ⟨-, hreturn⟩ := refuse_bind_ok hok
  cases hreturn
  have hdead : ∀ version, live (h.tables.versions.updateWhere (fun _ _ => true) markStale)
      version = false := fun version => mark_dead fun _ => rfl
  refine hk.edit (lockNPMPackage_ok hlock) rfl rfl (.markWhere _ _) tagsLive_empty ?_ ?_
  · show [] = latestOf lib _ ∅
    rw [latestOf_of_none (GoMap.load_empty _), latestNPMVersionTx_nil hdead]
  · intro version hmem
    rcases List.mem_append.mp hmem with hkey | hold
    · refine Or.inr ⟨?_, hdead version⟩
      exact (GoMap.load_isSome _ _).mpr hkey
    · exact Or.inl hold

theorem live_store {row : NPMVersion} {name version : Text} (hrow : row.unpublished = false) :
    live (versions.store name row) version = true ↔
      version = name ∨ live versions version = true := by
  unfold live
  rw [GoMap.load_store]
  split_ifs with hname
  · rw [Option.any_some, hrow]
    exact ⟨fun _ => Or.inl hname, fun _ => rfl⟩
  · exact ⟨Or.inr, fun h => h.resolve_left hname⟩

theorem Kept.publish {username description : Text} {p : Publication} {tags : GoMap Text Text}
    (hk : Kept lib h)
    (hok : recordNPMPublication lib o h.tables username description p tags = .ok t') :
    Kept lib ⟨t', h.published.store p.version (p.row lib username false), h.withdrawn⟩ := by
  obtain ⟨hvalid, hok⟩ := refuse_bind_ok hok
  obtain ⟨pkg, hlock, hok⟩ := bind_ok hok
  obtain ⟨-, hok⟩ := refuse_bind_ok hok
  obtain ⟨-, hok⟩ := refuse_bind_ok hok
  obtain ⟨henabled, hok⟩ := refuse_bind_ok hok
  obtain ⟨-, hok⟩ := refuse_bind_ok hok
  obtain ⟨hnew, hok⟩ := refuse_bind_ok hok
  obtain ⟨-, hok⟩ := refuse_bind_ok hok
  dsimp only at hok
  obtain ⟨stored, htags, hreturn⟩ := bind_ok hok
  cases hreturn
  have hpkg := lockNPMPackage_ok hlock
  have hlocal : pkg.mirrored = false := by
    rw [← Bool.not_eq_true]
    exact fun hmirrored => henabled (Or.inl hmirrored)
  rw [Bool.not_eq_true] at hnew
  have hnone := (GoMap.has_eq_false _ _).mp hnew
  have hlive : ∀ version, live (h.tables.versions.store p.version (p.row lib username false))
      version = true ↔ version = p.version ∨ live h.tables.versions version = true :=
    fun version => live_store rfl
  have hold : TagsLive (h.tables.versions.store p.version (p.row lib username false))
      h.tables.tags :=
    fun tag version hload => (hlive version).mpr (Or.inr (hk.tags tag version hload))
  constructor
  · intro version row hload
    rcases (GoMap.moves_store _ _ _).cases hload with ⟨rfl, -⟩ | ⟨-, hload⟩
    · exact fun hempty => hvalid (Or.inl hempty)
    · exact hk.named version row hload
  · intro version row hload
    refine ⟨_, rfl, ?_⟩
    rcases (GoMap.moves_store _ _ _).cases hload with ⟨-, hrow⟩ | ⟨-, hload⟩
    · cases hrow
      exact hlocal.symm
    · obtain ⟨found, hfound, hsame⟩ := hk.mirrored version row hload
      cases hpkg.symm.trans hfound
      exact hsame
  · exact hold.publish ((hlive p.version).mpr (Or.inl rfl)) htags
  · intro found hfound
    cases hfound
    rfl
  · intro version hmem
    by_contra hnot
    rw [Bool.not_eq_false] at hnot
    rcases (hlive version).mp hnot with rfl | hbefore
    · exact absurd (hnew.symm.trans (hk.tombstones pkg hpkg hlocal _ hmem)) (by decide)
    · exact absurd ((hk.withdrawn version hmem).symm.trans hbefore) (by decide)
  · intro found hfound _ version hmem
    obtain ⟨row, hload⟩ := (GoMap.has_eq_true _ _).mp (hk.tombstones pkg hpkg hlocal version hmem)
    have hne : version ≠ p.version := by
      rintro rfl
      cases hnone.symm.trans hload
    exact (GoMap.has_eq_true _ _).mpr ⟨row, (GoMap.load_store_ne _ _ hne).trans hload⟩
  · intro version row hload
    rcases (GoMap.moves_store _ _ _).cases hload with ⟨rfl, hrow⟩ | ⟨hne, hload⟩
    · cases hrow
      exact ⟨_, GoMap.load_store_self _ _ _, rfl, rfl, rfl, rfl⟩
    · obtain ⟨row', hload', hsame⟩ := hk.published version row hload
      exact ⟨row', (GoMap.load_store_ne _ _ hne).trans hload', hsame⟩
  · intro version row hload hrow
    by_cases hname : version = p.version
    · rw [hname]
      exact GoMap.has_store_self _ _ _
    · rw [GoMap.load_store_ne _ _ hname] at hload
      obtain ⟨first, hfirst⟩ := (GoMap.has_eq_true _ _).mp (hk.recorded version row hload hrow)
      exact (GoMap.has_eq_true _ _).mpr ⟨first, (GoMap.load_store_ne _ _ hname).trans hfirst⟩

structure Refreshed (listed : List Publication) (versions : GoMap Text NPMVersion) : Prop where
  mirrored : ∀ version row, versions.load version = some row → row.mirrored = true
  named : ∀ version row, versions.load version = some row → version ≠ []
  listed : ∀ version, live versions version = true → ∃ p ∈ listed, p.version = version

theorem refreshVersion_stores {p : Publication}
    (hmirrored : ∀ version row, versions.load version = some row → row.mirrored = true)
    (husable : p.version ≠ [] ∧ p.manifest ≠ [] ∧ byteLength p.manifest ≤ maxManifestBytes) :
    ∃ row : NPMVersion, row.mirrored = true ∧ row.unpublished = false ∧
      refreshVersion lib versions p = versions.store p.version row := by
  have hvalid : ¬(p.version = [] ∨ p.manifest = [] ∨ maxManifestBytes < byteLength p.manifest) := by
    rintro (hname | hmanifest | hlong)
    · exact husable.1 hname
    · exact husable.2.1 hmanifest
    · exact absurd hlong (Nat.not_lt.mpr husable.2.2)
  unfold refreshVersion
  rw [if_neg hvalid]
  cases hload : versions.load p.version with
  | none => exact ⟨_, rfl, rfl, rfl⟩
  | some row =>
    dsimp only
    rw [if_pos (hmirrored p.version row hload)]
    exact ⟨_, rfl, rfl, rfl⟩

theorem Refreshed.version {listed : List Publication} {p : Publication}
    (h : Refreshed listed versions) (hmem : p ∈ listed)
    (husable : p.version ≠ [] ∧ p.manifest ≠ [] ∧ byteLength p.manifest ≤ maxManifestBytes) :
    Refreshed listed (refreshVersion lib versions p) ∧
      ∀ version, live (refreshVersion lib versions p) version = true ↔
        version = p.version ∨ live versions version = true := by
  obtain ⟨row, hmirrored, hrow, hstore⟩ := refreshVersion_stores h.mirrored husable
  rw [hstore]
  have hlive : ∀ version, live (versions.store p.version row) version = true ↔
      version = p.version ∨ live versions version = true := fun version => live_store hrow
  refine ⟨⟨?_, ?_, ?_⟩, hlive⟩
  · intro version row' hload
    rcases (GoMap.moves_store _ _ _).cases hload with ⟨-, hnew⟩ | ⟨-, hold⟩
    · cases hnew
      exact hmirrored
    · exact h.mirrored version row' hold
  · intro version row' hload
    rcases (GoMap.moves_store _ _ _).cases hload with ⟨rfl, -⟩ | ⟨-, hold⟩
    · exact husable.1
    · exact h.named version row' hold
  · intro version hversion
    rcases (hlive version).mp hversion with rfl | hold
    · exact ⟨p, hmem, rfl⟩
    · exact h.listed version hold

theorem Refreshed.refresh {listed l : List Publication} (h : Refreshed listed versions)
    (hmem : ∀ p ∈ l, p ∈ listed)
    (husable : ∀ p ∈ l,
      p.version ≠ [] ∧ p.manifest ≠ [] ∧ byteLength p.manifest ≤ maxManifestBytes) :
    Refreshed listed (l.foldl (refreshVersion lib) versions) ∧
      ∀ version, (∃ p ∈ l, p.version = version) ∨ live versions version = true →
        live (l.foldl (refreshVersion lib) versions) version = true := by
  induction l generalizing versions with
  | nil =>
    refine ⟨h, ?_⟩
    rintro version (⟨p, hp, -⟩ | hlive)
    · cases hp
    · exact hlive
  | cons p l ih =>
    obtain ⟨hnext, hlive⟩ := @Refreshed.version lib versions listed p h
      (hmem p (List.mem_cons_self ..)) (husable p (List.mem_cons_self ..))
    obtain ⟨hend, hall⟩ := ih hnext (fun q hq => hmem q (List.mem_cons_of_mem p hq))
      (fun q hq => husable q (List.mem_cons_of_mem p hq))
    refine ⟨hend, ?_⟩
    rintro version (⟨q, hq, hname⟩ | hbefore)
    · rcases List.mem_cons.mp hq with rfl | htail
      · exact hall version (Or.inr ((hlive version).mpr (Or.inl hname.symm)))
      · exact hall version (Or.inl ⟨q, htail, hname⟩)
    · exact hall version (Or.inr ((hlive version).mpr (Or.inr hbefore)))

theorem Kept.stale {listed : List Publication} (hk : Kept lib h)
    (hmirrored : ∀ version row, h.tables.versions.load version = some row → row.mirrored = true) :
    Refreshed listed
      (h.tables.versions.updateWhere (fun _ row => row.mirrored) markStale) := by
  have hedit := RowsEdited.markWhere h.tables.versions fun _ row => row.mirrored
  constructor
  · intro version row' hload'
    obtain ⟨row, hload, hrow⟩ := hedit.before hload'
    exact hrow.mirrored.trans (hmirrored version row hload)
  · intro version row' hload'
    obtain ⟨row, hload, -⟩ := hedit.before hload'
    exact hk.named version row hload
  · intro version hlive
    obtain ⟨row', hload', hrow'⟩ := live_iff.mp hlive
    rw [GoMap.load_updateWhere] at hload'
    obtain ⟨row, hload, heq⟩ := Option.map_eq_some_iff.mp hload'
    rw [if_pos (hmirrored version row hload)] at heq
    cases heq
    cases hrow'

theorem mirroredRow_ok {package : Option NPMPackage} {pkg : MirroredPackage} {row : NPMPackage}
    (hok : mirroredRow package pkg = .ok row) :
    row.mirrored = true ∧ ∀ before, package = some before → before.mirrored = true := by
  unfold mirroredRow at hok
  dsimp only at hok
  split at hok
  · cases hok
    exact ⟨rfl, fun before hbefore => by cases hbefore⟩
  · rename_i before
    obtain ⟨hlocal, hreturn⟩ := refuse_bind_ok hok
    cases hreturn
    rw [Bool.not_eq_false] at hlocal
    refine ⟨hlocal, fun found hfound => ?_⟩
    cases hfound
    exact hlocal

theorem Kept.mirror {pkg : MirroredPackage} {listed : List Publication} {tags : GoMap Text Text}
    (hk : Kept lib h) (hparsed : Parsed listed tags)
    (hharmless : ∀ p ∈ listed, p.version ∉ h.withdrawn)
    (hok : recordNPMMirrorPublication lib o h.tables pkg listed tags = .ok t') :
    Kept lib ⟨t', h.published, h.withdrawn⟩ := by
  obtain ⟨-, hok⟩ := refuse_bind_ok hok
  obtain ⟨row, hpackage, hok⟩ := bind_ok hok
  dsimp only at hok
  obtain ⟨stored, htags, hreturn⟩ := bind_ok hok
  cases hreturn
  obtain ⟨hmirror, hbefore⟩ := mirroredRow_ok hpackage
  have hall : ∀ version row, h.tables.versions.load version = some row → row.mirrored = true := by
    intro version found hload
    obtain ⟨before, hfound, hsame⟩ := hk.mirrored version found hload
    exact hsame.trans (hbefore before hfound)
  obtain ⟨hrefreshed, hlisted⟩ :=
    @Refreshed.refresh lib _ listed listed (hk.stale hall) (fun p hp => hp) hparsed.usable
  generalize hrows : listed.foldl (refreshVersion lib)
    (h.tables.versions.updateWhere (fun _ row => row.mirrored) markStale) = rows
  rw [hrows] at hrefreshed hlisted
  have hkept : ∀ version row, (rows.deleteWhere fun _ row =>
      row.mirrored && row.unpublished).load version = some row →
      rows.load version = some row ∧ row.unpublished = false := by
    intro version found hload
    rw [GoMap.load_deleteWhere, Option.filter_eq_some_iff] at hload
    refine ⟨hload.1, ?_⟩
    have hstay := hload.2
    rw [hrefreshed.mirrored version found hload.1, Bool.true_and, Bool.not_eq_true'] at hstay
    exact hstay
  have hlive : ∀ version, live (rows.deleteWhere fun _ row =>
      row.mirrored && row.unpublished) version = live rows version := by
    intro version
    rw [Bool.eq_iff_iff, live_iff, live_iff]
    constructor
    · rintro ⟨found, hload, hfound⟩
      exact ⟨found, (hkept version found hload).1, hfound⟩
    · rintro ⟨found, hload, hfound⟩
      refine ⟨found, ?_, hfound⟩
      rw [GoMap.load_deleteWhere, hload]
      apply Option.filter_some_pos
      rw [hfound, Bool.and_false]
      rfl
  have hnone : ∀ {P : Prop} {version first}, h.published.load version = some first → P := by
    intro P version first hload
    obtain ⟨found, hfound, hlocal, -⟩ := hk.published version first hload
    exact absurd (hlocal.symm.trans (hall version found hfound)) (by decide)
  constructor
  · exact fun version found hload => hrefreshed.named version found (hkept version found hload).1
  · intro version found hload
    refine ⟨_, rfl, ?_⟩
    show found.mirrored = row.mirrored
    rw [hmirror]
    exact hrefreshed.mirrored version found (hkept version found hload).1
  · refine tagsLive_empty.mirror ?_ htags
    intro e he
    rw [hlive]
    exact hlisted e.2 (Or.inl (hparsed.known e.1 e.2 ((o.order.mem_pairs tags _ _).mp he)))
  · intro found hfound
    cases hfound
    rfl
  · intro version hmem
    by_contra hnot
    rw [Bool.not_eq_false] at hnot
    replace hnot : live rows version = true := (hlive version).symm.trans hnot
    obtain ⟨p, hp, rfl⟩ := hrefreshed.listed version hnot
    exact hharmless p hp hmem
  · intro found hfound hlocal
    cases hfound
    exact absurd (hmirror.symm.trans hlocal) (by decide)
  · exact fun version first hload => hnone hload
  · intro version found hload hlocal
    have hyes := hrefreshed.mirrored version found (hkept version found hload).1
    exact absurd (hlocal.symm.trans hyes) (by decide)

theorem Kept.next (hk : Kept lib h) {call : Call} (hproper : call.Proper) (hsafe : Safe lib h call) :
    Kept lib (h.next lib call) := by
  unfold History.next
  split
  · rename_i t' hok
    have hharmless := hsafe t' hok
    cases call with
    | publish o username description p tags => exact hk.publish hok
    | mirror o pkg listed tags => exact hk.mirror hproper hharmless hok
    | setTag o tag version => exact hk.setTag hok
    | deleteTag o tag => exact hk.deleteTag hok
    | packument o deprecations tags => exact hk.packument hharmless hok
    | unpublish o version => exact hk.unpublish hok
    | delete o => exact hk.delete hok
  · exact hk

/-- What any sequence of transactions keeps of which those carried out are harmless. -/
theorem npm_versions_sound (lib : Library) {t : Tables} (ht : Fresh t) {calls : List Call}
    (hproper : ∀ call ∈ calls, call.Proper)
    (hsafe : Runs.Along (History.next lib) (Safe lib) (History.start t) calls) :
    Runs.Through (History.next lib) (Sound lib) (History.start t) calls := by
  have hstep : ∀ h call, Kept lib h → call.Proper ∧ Safe lib h call → Kept lib (h.next lib call) :=
    fun h call hk hcall => hk.next hcall.1 hcall.2
  exact Runs.Along.through (fun h (hk : Kept lib h) => hk.sound) hstep (kept_start ht)
    ((Runs.along_of_forall hproper).and hsafe)

def plainLibrary : Library := ⟨id, fun _ _ _ => rfl, fun _ => true, fun _ _ => 0⟩

def unlocked : Outside := ⟨false, false, fun _ => false, fun _ => false, true, 0, .entries⟩

def createdPackage : Tables where
  package := some ⟨[], "owner".toList, [], false, false, false, true, 1⟩
  versions := ∅
  tags := ∅

theorem createdPackage_fresh : Fresh createdPackage where
  versions := rfl
  tags := rfl
  latest pkg hpkg := by
    cases hpkg
    rfl

def firstVersion : Text := "1.0.0".toList

def firstPublication : Publication where
  version := firstVersion
  manifest := "\x7b\x7d".toList
  tarballPath := "demo/-/demo-1.0.0.tgz".toList
  shasum := []
  integrity := "sha512-A".toList
  size := 1
  deprecated := []
  createdAt := 0

def tagged (tag : Text) : GoMap Text Text := (∅ : GoMap Text Text).store tag firstVersion

def publishFirst : Call :=
  .publish unlocked "owner".toList [] firstPublication (tagged latestTag)

def retagFirst (tag : Text) : Call :=
  .packument unlocked ((∅ : GoMap Text Text).store firstVersion []) (tagged tag)

def withoutLatest : List Call := [publishFirst, retagFirst "beta".toList]

theorem withoutLatest_clears :
    Fresh createdPackage ∧ (∀ call ∈ withoutLatest, call.Proper) ∧
      ¬Runs.Through (History.next plainLibrary) (Sound plainLibrary)
        (History.start createdPackage) withoutLatest := by
  refine ⟨createdPackage_fresh, ?_, ?_⟩
  · intro call hcall
    rcases List.mem_pair.mp hcall with rfl | rfl <;> exact trivial
  · intro h
    have hsound : Sound plainLibrary
        (withoutLatest.foldl (History.next plainLibrary) (History.start createdPackage)) := h.2.2
    generalize hend : withoutLatest.foldl (History.next plainLibrary)
      (History.start createdPackage) = s at hsound
    have hcleared : s.tables.package.map (·.latestVersion) = some [] := by
      rw [← hend]
      decide +kernel
    have hnone : s.tables.tags.load latestTag = none := by
      rw [← hend]
      decide +kernel
    have hlive : live s.tables.versions firstVersion = true := by
      rw [← hend]
      decide +kernel
    have hfirst : ∀ name, live s.tables.versions name = true → name ≠ [] := by
      rintro _ hname rfl
      revert hname
      rw [← hend]
      decide +kernel
    obtain ⟨pkg, hpkg, hempty⟩ := Option.map_eq_some_iff.mp hcleared
    exact latestNPMVersionTx_ne_nil hlive hfirst
      (((hsound.latest pkg hpkg).2 hnone).symm.trans hempty)

def withLatest : List Call := [publishFirst, retagFirst latestTag]

theorem withLatest_sound :
    Runs.Through (History.next plainLibrary) (Sound plainLibrary)
      (History.start createdPackage) withLatest := by
  apply npm_versions_sound plainLibrary createdPackage_fresh
  · intro call hcall
    rcases List.mem_pair.mp hcall with rfl | rfl <;> exact trivial
  · refine ⟨fun _ _ => trivial, fun _ _ => Or.inl ⟨firstVersion, rfl, ?_⟩, trivial⟩
    intro tag version hload htag
    rcases (GoMap.moves_store _ _ _).cases hload with ⟨-, hnew⟩ | ⟨-, hold⟩
    · cases hnew
      rfl
    · cases (GoMap.load_empty tag).symm.trans hold

end RenoP.Npm
