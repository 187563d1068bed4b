import RenoP.Npm.Packages

/-!
# What npm transactions change

The latest version and the rows and tags after each transaction of `internal/database/npm.go` that
is carried out.
-/

namespace RenoP.Npm

open RenoP.Database (Text)
open Fallible (refuse refuse_bind_ok bind_ok foldlM_invariant foldlM_cons_ok)

variable {lib : Library} {o : Outside} {t t' : Tables} {versions : GoMap Text NPMVersion}
  {tags tags' : GoMap Text Text}

theorem lockNPMPackage_ok {pkg : NPMPackage} (h : lockNPMPackage o t = .ok pkg) :
    t.package = some pkg := by
  unfold lockNPMPackage at h
  split at h
  · cases h
  · rename_i found hfound
    obtain ⟨-, hreturn⟩ := refuse_bind_ok h
    cases hreturn
    exact hfound

theorem live_iff {version : Text} :
    live versions version = true ↔
      ∃ row, versions.load version = some row ∧ row.unpublished = false := by
  unfold live
  rw [Option.any_eq_true]
  constructor
  · rintro ⟨row, hload, hlive⟩
    rw [Bool.not_eq_true'] at hlive
    exact ⟨row, hload, hlive⟩
  · rintro ⟨row, hload, hlive⟩
    exact ⟨row, hload, by rw [hlive]; rfl⟩

theorem mem_liveNames {version : Text} :
    version ∈ liveNames versions ↔ live versions version = true := by
  unfold liveNames
  dsimp only
  rw [live_iff, List.mem_map]
  constructor
  · rintro ⟨e, he, rfl⟩
    rw [List.mem_mergeSort, List.mem_filter, Bool.not_eq_true'] at he
    exact ⟨e.2, (GoMap.mem_entries_iff versions e.1 e.2).mp he.1, he.2⟩
  · rintro ⟨row, hload, hlive⟩
    refine ⟨⟨version, row⟩, ?_, rfl⟩
    rw [List.mem_mergeSort, List.mem_filter, Bool.not_eq_true']
    exact ⟨(GoMap.mem_entries_iff versions version row).mpr hload, hlive⟩

theorem greatest_foldl_mem (names : List Text) :
    ∀ latest, names.foldl (greatest lib) latest = latest ∨
      names.foldl (greatest lib) latest ∈ names := by
  induction names with
  | nil => exact fun latest => Or.inl rfl
  | cons name names ih =>
    intro latest
    rw [List.foldl_cons]
    rcases ih (greatest lib latest name) with hsame | hmem
    · rw [hsame]
      unfold greatest
      dsimp only
      split_ifs
      · exact Or.inr (List.mem_cons_self ..)
      · exact Or.inl rfl
    · exact Or.inr (List.mem_cons_of_mem name hmem)

theorem latestNPMVersionTx_live (hne : latestNPMVersionTx lib versions ≠ []) :
    live versions (latestNPMVersionTx lib versions) = true := by
  rw [← mem_liveNames]
  unfold latestNPMVersionTx at hne ⊢
  dsimp only at hne ⊢
  split_ifs at hne ⊢ with hlatest
  · cases hnames : liveNames versions with
    | nil =>
      rw [hnames] at hne
      exact absurd rfl hne
    | cons name names => exact List.mem_cons_self ..
  · exact (greatest_foldl_mem (liveNames versions) []).resolve_left hlatest

theorem latestNPMVersionTx_ne_nil {version : Text} (hlive : live versions version = true)
    (hnames : ∀ name, live versions name = true → name ≠ []) :
    latestNPMVersionTx lib versions ≠ [] := by
  unfold latestNPMVersionTx
  dsimp only
  split_ifs with hlatest
  · have hmem := mem_liveNames.mpr hlive
    cases hlist : liveNames versions with
    | nil =>
      rw [hlist] at hmem
      cases hmem
    | cons name names =>
      apply hnames name
      rw [← mem_liveNames, hlist]
      exact List.mem_cons_self ..
  · exact hlatest

theorem latestNPMVersionTx_nil (hdead : ∀ version, live versions version = false) :
    latestNPMVersionTx lib versions = [] := by
  by_contra hne
  exact absurd (latestNPMVersionTx_live hne) (by rw [hdead]; decide)

theorem sanitizeTag_latest : sanitizeTag lib latestTag = latestTag := by
  have hclean : sanitizeInputString (RenoP.Database.trimSpace latestTag) 128 = latestTag := by
    decide +kernel
  have hletter := lib.toLower_letter
  unfold sanitizeTag lower
  rw [hclean]
  unfold latestTag
  simp only [List.map_cons, List.map_nil]
  rw [hletter 'l' (by decide) (by decide), hletter 'a' (by decide) (by decide),
    hletter 't' (by decide) (by decide), hletter 'e' (by decide) (by decide),
    hletter 's' (by decide) (by decide)]

theorem tagVersion_of_load {tag version : Text} (h : tags.load tag = some version) :
    tagVersion tags tag = version := by
  unfold tagVersion
  rw [h, Option.getD_some]

theorem tagVersion_of_none {tag : Text} (h : tags.load tag = none) : tagVersion tags tag = [] := by
  unfold tagVersion
  rw [h, Option.getD_none]

theorem latestOf_of_load {version : Text} (h : tags.load latestTag = some version)
    (hne : version ≠ []) : latestOf lib versions tags = version := by
  unfold latestOf
  dsimp only
  rw [tagVersion_of_load h, if_neg hne]

theorem latestOf_of_none (h : tags.load latestTag = none) :
    latestOf lib versions tags = latestNPMVersionTx lib versions := by
  unfold latestOf
  dsimp only
  rw [tagVersion_of_none h, if_pos rfl]

theorem upsertNPMTag_ok {tag version : Text} (h : upsertNPMTag lib tags tag version = .ok tags') :
    version ≠ [] ∧ tags' = tags.store (sanitizeTag lib tag) version := by
  obtain ⟨hvalid, hreturn⟩ := refuse_bind_ok h
  cases hreturn
  exact ⟨fun hempty => hvalid (Or.inr hempty), rfl⟩

def TagsLive (versions : GoMap Text NPMVersion) (tags : GoMap Text Text) : Prop :=
  ∀ tag version, tags.load tag = some version → live versions version = true

theorem tagsLive_empty : TagsLive versions ∅ := by
  intro tag version h
  cases (GoMap.load_empty tag).symm.trans h

theorem TagsLive.store {tag version : Text} (h : TagsLive versions tags)
    (hlive : live versions version = true) : TagsLive versions (tags.store tag version) := by
  intro tag' version' hload
  rcases (GoMap.moves_store tags tag version).cases hload with ⟨-, hnew⟩ | ⟨-, hold⟩
  · cases hnew
    exact hlive
  · exact h tag' version' hold

theorem TagsLive.delete (h : TagsLive versions tags) (tag : Text) :
    TagsLive versions (tags.delete tag) := by
  intro tag' version' hload
  rcases (GoMap.moves_delete tags tag).cases hload with ⟨-, hnone⟩ | ⟨-, hold⟩
  · cases hnone
  · exact h tag' version' hold

theorem TagsLive.upsert {tag version : Text} (h : TagsLive versions tags)
    (hlive : live versions version = true)
    (hok : upsertNPMTag lib tags tag version = .ok tags') : TagsLive versions tags' := by
  rw [(upsertNPMTag_ok hok).2]
  exact h.store hlive

theorem TagsLive.publish {version : Text} {l : List (Text × Text)} (h : TagsLive versions tags)
    (hlive : live versions version = true)
    (hok : l.foldlM (publishTag lib o version) tags = .ok tags') : TagsLive versions tags' := by
  have hturn : ∀ s e s', e ∈ l → TagsLive versions s → publishTag lib o version s e = .ok s' →
      TagsLive versions s' := by
    intro s e s' _ hs hstep
    unfold publishTag at hstep
    split_ifs at hstep with hother
    · cases hstep
      exact hs
    · obtain ⟨u, -, hupsert⟩ := bind_ok hstep
      rw [not_not.mp hother] at hupsert
      exact hs.upsert hlive hupsert
  exact foldlM_invariant hturn h hok

theorem TagsLive.replace {l : List (Text × Text)} (h : TagsLive versions tags)
    (hok : l.foldlM (replaceTag lib versions) tags = .ok tags') : TagsLive versions tags' := by
  have hturn : ∀ s e s', e ∈ l → TagsLive versions s → replaceTag lib versions s e = .ok s' →
      TagsLive versions s' := by
    intro s e s' _ hs hstep
    obtain ⟨hlive, hupsert⟩ := refuse_bind_ok hstep
    rw [Bool.not_eq_false] at hlive
    exact hs.upsert hlive hupsert
  exact foldlM_invariant hturn h hok

theorem TagsLive.mirror {l : List (Text × Text)} (h : TagsLive versions tags)
    (hlive : ∀ e ∈ l, live versions e.2 = true)
    (hok : l.foldlM (fun tags e => upsertNPMTag lib tags e.1 e.2) tags = .ok tags') :
    TagsLive versions tags' := by
  have hturn : ∀ s e s', e ∈ l → TagsLive versions s → upsertNPMTag lib s e.1 e.2 = .ok s' →
      TagsLive versions s' := fun s e s' hmem hs hstep => hs.upsert (hlive e hmem) hstep
  exact foldlM_invariant hturn h hok

theorem replaceTag_latest {latest : Text} {l : List (Text × Text)}
    (hagree : ∀ e ∈ l, sanitizeTag lib e.1 = latestTag → e.2 = latest)
    (hsome : (∃ e ∈ l, sanitizeTag lib e.1 = latestTag) ∨ tags.load latestTag = some latest)
    (hok : l.foldlM (replaceTag lib versions) tags = .ok tags') :
    tags'.load latestTag = some latest := by
  induction l generalizing tags with
  | nil =>
    cases hok
    rcases hsome with ⟨e, he, -⟩ | hload
    · cases he
    · exact hload
  | cons e l ih =>
    obtain ⟨next, hstep, hrest⟩ := foldlM_cons_ok hok
    obtain ⟨-, hupsert⟩ := refuse_bind_ok hstep
    have hnext := (upsertNPMTag_ok hupsert).2
    refine ih (fun e' he' => hagree e' (List.mem_cons_of_mem e he')) ?_ hrest
    by_cases htag : sanitizeTag lib e.1 = latestTag
    · right
      rw [hnext, htag, hagree e (List.mem_cons_self ..) htag]
      exact GoMap.load_store_self _ _ _
    · rcases hsome with ⟨e', he', htag'⟩ | hload
      · rcases List.mem_cons.mp he' with rfl | hmem
        · exact absurd htag' htag
        · exact Or.inl ⟨e', hmem, htag'⟩
      · right
        rw [hnext, GoMap.load_store_ne _ _ (Ne.symm htag)]
        exact hload

structure NPMVersion.Edited (row row' : NPMVersion) : Prop where
  manifest : row'.manifest = row.manifest
  integrity : row'.integrity = row.integrity
  tarballPath : row'.tarballPath = row.tarballPath
  mirrored : row'.mirrored = row.mirrored
  unpublished : row.unpublished = true → row'.unpublished = true

def RowsEdited (versions versions' : GoMap Text NPMVersion) : Prop :=
  ∀ version, Option.Rel NPMVersion.Edited (versions.load version) (versions'.load version)

theorem NPMVersion.Edited.refl (row : NPMVersion) : row.Edited row := ⟨rfl, rfl, rfl, rfl, id⟩

theorem NPMVersion.Edited.trans {row row₁ row₂ : NPMVersion} (h : row.Edited row₁)
    (h' : row₁.Edited row₂) : row.Edited row₂ where
  manifest := h'.manifest.trans h.manifest
  integrity := h'.integrity.trans h.integrity
  tarballPath := h'.tarballPath.trans h.tarballPath
  mirrored := h'.mirrored.trans h.mirrored
  unpublished hrow := h'.unpublished (h.unpublished hrow)

theorem NPMVersion.Edited.markStale (name : Text) (row : NPMVersion) :
    row.Edited (markStale name row) := ⟨rfl, rfl, rfl, rfl, fun _ => rfl⟩

theorem RowsEdited.refl (versions : GoMap Text NPMVersion) : RowsEdited versions versions := by
  intro version
  cases versions.load version with
  | none => exact .none
  | some row => exact .some (.refl row)

theorem RowsEdited.trans {versions versions₁ versions₂ : GoMap Text NPMVersion}
    (h : RowsEdited versions versions₁) (h' : RowsEdited versions₁ versions₂) :
    RowsEdited versions versions₂ := by
  intro version
  have hfirst := h version
  have hsecond := h' version
  generalize versions.load version = row at hfirst ⊢
  generalize versions₁.load version = row₁ at hfirst hsecond
  cases hfirst with
  | some hedit =>
    generalize versions₂.load version = row₂ at hsecond
    cases hsecond with
    | some hedit' => exact .some (hedit.trans hedit')
  | none => exact hsecond

theorem RowsEdited.markWhere (versions : GoMap Text NPMVersion) (p : Text → NPMVersion → Bool) :
    RowsEdited versions (versions.updateWhere p markStale) := by
  intro version
  rw [GoMap.load_updateWhere]
  cases versions.load version with
  | none => exact .none
  | some row =>
    apply Option.Rel.some
    dsimp only
    split_ifs
    · exact .markStale version row
    · exact .refl row

theorem RowsEdited.updateDeprecation {versions' : GoMap Text NPMVersion} {e : Text × Text}
    (h : updateDeprecation versions e = .ok versions') : RowsEdited versions versions' := by
  unfold Npm.updateDeprecation at h
  split at h
  · cases h
  · rename_i row hrow
    obtain ⟨-, hreturn⟩ := refuse_bind_ok h
    cases hreturn
    intro version
    by_cases hname : version = e.1
    · rw [hname, hrow, GoMap.load_store_self]
      exact .some ⟨rfl, rfl, rfl, rfl, id⟩
    · rw [GoMap.load_store_ne _ _ hname]
      exact RowsEdited.refl versions version

theorem RowsEdited.deprecations {versions' : GoMap Text NPMVersion} {l : List (Text × Text)}
    (h : l.foldlM Npm.updateDeprecation versions = .ok versions') :
    RowsEdited versions versions' := by
  have hturn : ∀ s e s', e ∈ l → RowsEdited versions s → Npm.updateDeprecation s e = .ok s' →
      RowsEdited versions s' := fun s e s' _ hs hstep => hs.trans (.updateDeprecation hstep)
  exact foldlM_invariant hturn (.refl versions) h

theorem RowsEdited.before {versions' : GoMap Text NPMVersion} {version : Text} {row' : NPMVersion}
    (h : RowsEdited versions versions') (hload : versions'.load version = some row') :
    ∃ row, versions.load version = some row ∧ row.Edited row' := by
  have hrel := h version
  rw [hload] at hrel
  cases hbefore : versions.load version with
  | none =>
    rw [hbefore] at hrel
    cases hrel
  | some row =>
    rw [hbefore] at hrel
    cases hrel with
    | some hedit => exact ⟨row, rfl, hedit⟩

theorem RowsEdited.after {versions' : GoMap Text NPMVersion} {version : Text} {row : NPMVersion}
    (h : RowsEdited versions versions') (hload : versions.load version = some row) :
    ∃ row', versions'.load version = some row' ∧ row.Edited row' := by
  have hrel := h version
  rw [hload] at hrel
  cases hafter : versions'.load version with
  | none =>
    rw [hafter] at hrel
    cases hrel
  | some row' =>
    rw [hafter] at hrel
    cases hrel with
    | some hedit => exact ⟨row', rfl, hedit⟩

theorem RowsEdited.live {versions' : GoMap Text NPMVersion} {version : Text}
    (h : RowsEdited versions versions') (hlive : live versions' version = true) :
    live versions version = true := by
  obtain ⟨row', hload', hrow'⟩ := live_iff.mp hlive
  obtain ⟨row, hload, hedit⟩ := h.before hload'
  refine live_iff.mpr ⟨row, hload, ?_⟩
  by_contra hstale
  rw [Bool.not_eq_false] at hstale
  exact absurd ((hedit.unpublished hstale).symm.trans hrow') (by decide)

end RenoP.Npm
