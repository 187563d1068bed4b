import RenoP.Npm.Transactions

/-!
# Revisions of an npm package

The transactions on the rows of one package, with the rollback of a publication whose review fails,
`internal/database/npm.go`.
-/

namespace RenoP.Npm

open RenoP.Database (Text trimSpace)
open Fallible (refuse refuse_bind_ok bind_ok foldlM_cons_ok foldlM_invariant)

section Model
variable (lib : Library) (o : Outside)

def setNPMVersionDeprecated (t : Tables) (version deprecated : Text) : Except NPMError Tables := do
  let pkg ← lockNPMPackage o t
  refuse (o.permitted = false) .permissionDenied
  requireNPMRevisionTx o pkg
  refuse (o.versionLocked version = true) .resourceLocked
  let versions ← updateDeprecation t.versions (version, deprecated)
  return { t with
    package := some { pkg with revision := pkg.revision + 1 }
    versions := versions }

def NPMPackage.restored (pkg previous : NPMPackage) : NPMPackage :=
  { pkg with
    description := previous.description
    publisher := previous.publisher
    latestVersion := previous.latestVersion
    revision := previous.revision }

def restoreTags (order : GoMap.RangeOrder Text Text) (tags : GoMap Text Text) (version : Text)
    (previousTags : GoMap Text Text) : Except NPMError (GoMap Text Text) :=
  (order.pairs previousTags).foldlM (fun tags e => upsertNPMTag lib tags e.1 e.2)
    (tags.deleteWhere fun _ v => decide (v = version))

def rollbackNPMPublicationReview (order : GoMap.RangeOrder Text Text) (t : Tables) (version : Text)
    (previous : Option NPMPackage) (previousTags : GoMap Text Text) : Except NPMError Tables :=
  match previous with
  | none => .error .invalid
  | some row => do
    refuse (version = []) .invalid
    match t.package with
    | none => .error .packageNotFound
    | some pkg => do
      refuse (t.versions.has version = false) .versionNotFound
      let tags ← restoreTags lib order t.tags version previousTags
      return {
        package := some (pkg.restored row)
        versions := t.versions.delete version
        tags := tags }

def removeApprovedPublicationMetadata (order : GoMap.RangeOrder Text Text) (t : Tables)
    (version : Text) (previous : Option NPMPackage) (previousTags : GoMap Text Text) :
    Except NPMError Tables :=
  match rollbackNPMPublicationReview lib order t version previous previousTags with
  | .error .versionNotFound => .ok t
  | result => result

inductive Request where
  | publish (username description : Text) (p : Publication) (tags : GoMap Text Text)
  | setTag (tag version : Text)
  | deleteTag (tag : Text)
  | setDeprecated (version deprecated : Text)
  | packument (deprecations tags : GoMap Text Text)
  | unpublish (version : Text)

def Request.apply (t : Tables) : Request → Except NPMError Tables
  | .publish username description p tags => recordNPMPublication lib o t username description p tags
  | .setTag tag version => setNPMDistTag lib o t tag version
  | .deleteTag tag => deleteNPMDistTag lib o t tag
  | .setDeprecated version deprecated => setNPMVersionDeprecated o t version deprecated
  | .packument deprecations tags => updateNPMPackument lib o t deprecations tags
  | .unpublish version => unpublishNPMVersion lib o t version

def Request.guarded : Request → Bool
  | .publish .. => false
  | _ => true

end Model

def liveRow (versions : GoMap Text NPMVersion) (version : Text) : Option NPMVersion :=
  (versions.load version).filter fun row => !row.unpublished

@[ext] structure View where
  versions : Text → Option NPMVersion
  tags : Text → Option Text

def view (t : Tables) : View := ⟨liveRow t.versions, t.tags.load⟩

def revision (t : Tables) : ℤ := t.package.elim 0 fun pkg => pkg.revision

variable {lib : Library} {o o' : Outside} {t t' u u' : Tables}
  {versions versions' : GoMap Text NPMVersion} {tags tags' : GoMap Text Text}

theorem liveRow_eq_some {version : Text} {row : NPMVersion} :
    liveRow versions version = some row ↔
      versions.load version = some row ∧ row.unpublished = false := by
  unfold liveRow
  rw [Option.filter_eq_some_iff, Bool.not_eq_true']

theorem live_iff_liveRow {version : Text} :
    live versions version = true ↔ ∃ row, liveRow versions version = some row := by
  simp only [live_iff, liveRow_eq_some]

theorem liveRow_store {version w : Text} {row : NPMVersion} (hlive : row.unpublished = false) :
    liveRow (versions.store version row) w =
      if w = version then some row else liveRow versions w := by
  unfold liveRow
  rw [GoMap.load_store]
  split_ifs
  · simp [hlive]
  · rfl

theorem liveRow_delete {version w : Text} :
    liveRow (versions.delete version) w = if w = version then none else liveRow versions w := by
  unfold liveRow
  rw [GoMap.load_delete]
  split_ifs <;> rfl

theorem liveRow_markStale {version w : Text} :
    liveRow (versions.updateWhere (fun name _ => decide (name = version)) markStale) w =
      if w = version then none else liveRow versions w := by
  unfold liveRow
  rw [GoMap.load_updateWhere]
  cases versions.load w with
  | none => split_ifs <;> rfl
  | some row => by_cases hw : w = version <;> simp [hw, markStale]

/-- The order in which `latestNPMVersionTx` reads its rows. -/
def newestFirst (e e' : Sigma fun _ : Text => NPMVersion) : Bool :=
  decide (e'.2.createdAt < e.2.createdAt) ||
    decide (e'.2.createdAt = e.2.createdAt) && decide (e'.1 ≤ e.1)

theorem newestFirst_iff {e e' : Sigma fun _ : Text => NPMVersion} :
    newestFirst e e' = true ↔ e'.2.createdAt < e.2.createdAt ∨
      e'.2.createdAt = e.2.createdAt ∧ e'.1 ≤ e.1 := by
  simp [newestFirst]

theorem newestFirst_trans (e e' e'' : Sigma fun _ : Text => NPMVersion)
    (h : newestFirst e e' = true) (h' : newestFirst e' e'' = true) : newestFirst e e'' = true := by
  rw [newestFirst_iff] at h h' ⊢
  rcases h with h | ⟨h, hname⟩
  · rcases h' with h' | ⟨h', -⟩
    · exact Or.inl (by omega)
    · exact Or.inl (by omega)
  · rcases h' with h' | ⟨h', hname'⟩
    · exact Or.inl (by omega)
    · exact Or.inr ⟨by omega, hname'.trans hname⟩

theorem newestFirst_total (e e' : Sigma fun _ : Text => NPMVersion) :
    (newestFirst e e' || newestFirst e' e) = true := by
  rw [Bool.or_eq_true, newestFirst_iff, newestFirst_iff]
  rcases lt_trichotomy e'.2.createdAt e.2.createdAt with hlt | heq | hgt
  · exact Or.inl (Or.inl hlt)
  · exact (le_total e'.1 e.1).imp (fun hname => Or.inr ⟨heq, hname⟩)
      fun hname => Or.inr ⟨heq.symm, hname⟩
  · exact Or.inr (Or.inl hgt)

theorem liveNames_congr (h : liveRow versions = liveRow versions') :
    liveNames versions = liveNames versions' := by
  have hmem : ∀ versions : GoMap Text NPMVersion, ∀ e,
      e ∈ versions.entries.filter (fun e => !e.2.unpublished) ↔
        liveRow versions e.1 = some e.2 := by
    intro versions e
    rw [List.mem_filter, liveRow_eq_some, ← GoMap.mem_entries_iff, Bool.not_eq_true']
  have hperm : (versions.entries.filter fun e => !e.2.unpublished).Perm
      (versions'.entries.filter fun e => !e.2.unpublished) := by
    apply (List.perm_ext_iff_of_nodup (versions.nodup_entries.filter _)
      (versions'.nodup_entries.filter _)).mpr
    intro e
    rw [hmem, hmem, h]
  have hsorted : ∀ versions : GoMap Text NPMVersion,
      ((versions.entries.filter fun e => !e.2.unpublished).mergeSort newestFirst).Pairwise
        fun e e' => newestFirst e e' = true :=
    fun versions => List.pairwise_mergeSort newestFirst_trans newestFirst_total _
  have heq : (versions.entries.filter fun e => !e.2.unpublished).mergeSort newestFirst =
      (versions'.entries.filter fun e => !e.2.unpublished).mergeSort newestFirst := by
    apply List.Perm.eq_of_pairwise _ (hsorted versions) (hsorted versions')
    · exact (List.mergeSort_perm _ _).trans (hperm.trans (List.mergeSort_perm _ _).symm)
    -- two rows that come before one another have one name
    · intro e e' he he' hle hle'
      rw [List.mem_mergeSort, hmem] at he he'
      rw [newestFirst_iff] at hle hle'
      have hname : e.1 = e'.1 := by
        apply le_antisymm
        · rcases hle' with hlt | ⟨-, hname⟩
          · omega
          · exact hname
        · rcases hle with hlt | ⟨-, hname⟩
          · omega
          · exact hname
      rw [hname, h, he'] at he
      exact Sigma.ext hname (heq_of_eq (Option.some.inj he).symm)
  exact congrArg (List.map fun e => e.1) heq

theorem latestNPMVersionTx_congr (h : liveRow versions = liveRow versions') :
    latestNPMVersionTx lib versions = latestNPMVersionTx lib versions' := by
  unfold latestNPMVersionTx
  rw [liveNames_congr h]

theorem publishTags_load {version tag : Text} {l : List (Text × Text)}
    (hok : l.foldlM (publishTag lib o version) tags = .ok tags') :
    tags'.load tag = if ∃ e ∈ l, e.2 = version ∧ sanitizeTag lib e.1 = tag then some version
      else tags.load tag := by
  induction l generalizing tags with
  | nil =>
    cases hok
    simp
  | cons e l ih =>
    obtain ⟨next, hstep, hrest⟩ := foldlM_cons_ok hok
    rw [ih hrest]
    simp only [List.exists_mem_cons_iff]
    unfold publishTag at hstep
    split_ifs at hstep with hother
    · cases hstep
      simp only [hother, false_and, false_or]
    · obtain ⟨-, -, hupsert⟩ := bind_ok hstep
      rw [(upsertNPMTag_ok hupsert).2, GoMap.load_store]
      rw [not_not] at hother
      by_cases htag : sanitizeTag lib e.1 = tag
      · simp only [hother, htag, and_self, true_or, if_true]
        split_ifs <;> rfl
      · simp only [htag, Ne.symm htag, and_false, false_or, if_false]

theorem replaceTags_ok {l : List (Text × Text)} {stored stored' : GoMap Text Text}
    (hok : l.foldlM (replaceTag lib versions) tags = .ok stored)
    (hok' : l.foldlM (replaceTag lib versions') tags = .ok stored') : stored = stored' := by
  induction l generalizing tags with
  | nil =>
    cases hok
    cases hok'
    rfl
  | cons e l ih =>
    obtain ⟨next, hstep, hrest⟩ := foldlM_cons_ok hok
    obtain ⟨next', hstep', hrest'⟩ := foldlM_cons_ok hok'
    have hnext := (upsertNPMTag_ok (refuse_bind_ok hstep).2).2
    have hnext' := (upsertNPMTag_ok (refuse_bind_ok hstep').2).2
    subst hnext hnext'
    exact ih hrest hrest'

theorem updateDeprecation_ok {e : Text × Text} (h : updateDeprecation versions e = .ok versions') :
    ∃ row, liveRow versions e.1 = some row ∧ ∀ w, liveRow versions' w = if w = e.1 then
      some { row with deprecated := sanitizeInputString (trimSpace e.2) 4000 }
      else liveRow versions w := by
  unfold updateDeprecation at h
  split at h
  · cases h
  · rename_i row hrow
    obtain ⟨hlive, hreturn⟩ := refuse_bind_ok h
    cases hreturn
    rw [Bool.not_eq_true] at hlive
    exact ⟨row, liveRow_eq_some.mpr ⟨hrow, hlive⟩, fun w => liveRow_store hlive⟩

theorem updateDeprecations_congr {l : List (Text × Text)} {next next' : GoMap Text NPMVersion}
    (hview : liveRow versions = liveRow versions')
    (hok : l.foldlM updateDeprecation versions = .ok next)
    (hok' : l.foldlM updateDeprecation versions' = .ok next') : liveRow next = liveRow next' := by
  induction l generalizing versions versions' with
  | nil =>
    cases hok
    cases hok'
    exact hview
  | cons e l ih =>
    obtain ⟨first, hstep, hrest⟩ := foldlM_cons_ok hok
    obtain ⟨first', hstep', hrest'⟩ := foldlM_cons_ok hok'
    obtain ⟨row, hrow, hfirst⟩ := updateDeprecation_ok hstep
    obtain ⟨row', hrow', hfirst'⟩ := updateDeprecation_ok hstep'
    rw [hview, hrow'] at hrow
    cases hrow
    apply ih _ hrest hrest'
    funext w
    rw [hfirst, hfirst', hview]

def Request.Effect (lib : Library) (o : Outside) (t t' : Tables) : Request → Prop
  | .publish username _ p tags =>
    p.version ≠ [] ∧ t.versions.has p.version = false ∧
      t'.versions = t.versions.store p.version (p.row lib username false) ∧
      (o.order.pairs tags).foldlM (publishTag lib o p.version) t.tags = .ok t'.tags
  | .setTag tag version =>
    live t.versions version = true ∧ t'.versions = t.versions ∧
      upsertNPMTag lib t.tags tag version = .ok t'.tags
  | .deleteTag tag => t'.versions = t.versions ∧ t'.tags = t.tags.delete (sanitizeTag lib tag)
  | .setDeprecated version deprecated =>
    updateDeprecation t.versions (version, deprecated) = .ok t'.versions ∧ t'.tags = t.tags
  | .packument deprecations tags =>
    (o.order.pairs deprecations).foldlM updateDeprecation t.versions = .ok t'.versions ∧
      (o.order.pairs tags).foldlM (replaceTag lib t'.versions) (∅ : GoMap Text Text) = .ok t'.tags
  | .unpublish version =>
    t'.versions = t.versions.updateWhere (fun name _ => decide (name = version)) markStale ∧
      moveLatest lib o (t.tags.deleteWhere fun _ v => decide (v = version))
        (latestNPMVersionTx lib t'.versions) = .ok t'.tags

/-- A request that is carried out leaves the package with the next revision; one that carries a
revision finds it. -/
structure Request.Applied (lib : Library) (o : Outside) (t t' : Tables) (r : Request) : Prop where
  row : ∃ pkg, t.package = some pkg
  row' : ∃ pkg, t'.package = some pkg
  next : revision t' = revision t + 1
  guard : r.guarded = true → 0 < o.expectedRevision → revision t = o.expectedRevision
  effect : r.Effect lib o t t'

theorem revision_of_some {pkg : NPMPackage} (h : t.package = some pkg) :
    revision t = pkg.revision := by
  unfold revision
  rw [h, Option.elim_some]

theorem Request.Applied.mk' {pkg pkg' : NPMPackage} {r : Request} (hpkg : t.package = some pkg)
    (hpkg' : t'.package = some pkg') (hnext : pkg'.revision = pkg.revision + 1)
    (hguard : r.guarded = true → requireNPMRevisionTx o pkg = .ok ())
    (heffect : r.Effect lib o t t') : r.Applied lib o t t' := by
  constructor
  · exact ⟨pkg, hpkg⟩
  · exact ⟨pkg', hpkg'⟩
  · rw [revision_of_some hpkg, revision_of_some hpkg', hnext]
  · intro hcarries hpos
    have hmatch := Fallible.refuse_ok (hguard hcarries)
    rw [revision_of_some hpkg]
    by_contra hne
    exact hmatch ⟨hpos, hne⟩
  · exact heffect

theorem recordNPMPublication_applied {username description : Text} {p : Publication}
    {names : GoMap Text Text} (hok : recordNPMPublication lib o t username description p names =
      .ok t') : (Request.publish username description p names).Applied lib o t t' := by
  obtain ⟨hvalid, hok⟩ := refuse_bind_ok hok
  obtain ⟨pkg, hlock, hok⟩ := bind_ok hok
  obtain ⟨-, hok⟩ := refuse_bind_ok hok
  obtain ⟨-, hok⟩ := refuse_bind_ok hok
  obtain ⟨-, hok⟩ := refuse_bind_ok hok
  obtain ⟨-, hok⟩ := refuse_bind_ok hok
  obtain ⟨hnew, hok⟩ := refuse_bind_ok hok
  obtain ⟨-, hok⟩ := refuse_bind_ok hok
  dsimp only at hok
  obtain ⟨tags, htags, hreturn⟩ := bind_ok hok
  cases hreturn
  rw [Bool.not_eq_true] at hnew
  refine .mk' (lockNPMPackage_ok hlock) rfl rfl (by simp [Request.guarded]) ⟨?_, hnew, rfl, htags⟩
  intro hempty
  exact hvalid (Or.inl hempty)

theorem setNPMDistTag_applied {tag version : Text} (hok : setNPMDistTag lib o t tag version =
    .ok t') : (Request.setTag tag version).Applied lib o t t' := by
  obtain ⟨pkg, hlock, hok⟩ := bind_ok hok
  obtain ⟨-, hok⟩ := refuse_bind_ok hok
  obtain ⟨u, hrevision, hok⟩ := bind_ok hok
  obtain ⟨hlive, hok⟩ := refuse_bind_ok hok
  obtain ⟨-, -, hok⟩ := bind_ok hok
  obtain ⟨tags, hupsert, hreturn⟩ := bind_ok hok
  cases hreturn
  rw [Bool.not_eq_false] at hlive
  exact .mk' (lockNPMPackage_ok hlock) rfl rfl (fun _ => hrevision) ⟨hlive, rfl, hupsert⟩

theorem deleteNPMDistTag_applied {tag : Text} (hok : deleteNPMDistTag lib o t tag = .ok t') :
    (Request.deleteTag tag).Applied lib o t t' := by
  unfold deleteNPMDistTag at hok
  dsimp only at hok
  obtain ⟨pkg, hlock, hok⟩ := bind_ok hok
  obtain ⟨-, hok⟩ := refuse_bind_ok hok
  obtain ⟨u, hrevision, hok⟩ := bind_ok hok
  obtain ⟨-, -, hok⟩ := bind_ok hok
  obtain ⟨-, hreturn⟩ := refuse_bind_ok hok
  cases hreturn
  exact .mk' (lockNPMPackage_ok hlock) rfl rfl (fun _ => hrevision) ⟨rfl, rfl⟩

theorem setNPMVersionDeprecated_applied {version deprecated : Text}
    (hok : setNPMVersionDeprecated o t version deprecated = .ok t') :
    (Request.setDeprecated version deprecated).Applied lib o t t' := by
  obtain ⟨pkg, hlock, hok⟩ := bind_ok hok
  obtain ⟨-, hok⟩ := refuse_bind_ok hok
  obtain ⟨u, hrevision, hok⟩ := bind_ok hok
  obtain ⟨-, hok⟩ := refuse_bind_ok hok
  obtain ⟨versions, hupdate, hreturn⟩ := bind_ok hok
  cases hreturn
  exact .mk' (lockNPMPackage_ok hlock) rfl rfl (fun _ => hrevision) ⟨hupdate, rfl⟩

theorem updateNPMPackument_applied {deprecations names : GoMap Text Text}
    (hok : updateNPMPackument lib o t deprecations names = .ok t') :
    (Request.packument deprecations names).Applied lib o t t' := by
  obtain ⟨pkg, hlock, hok⟩ := bind_ok hok
  obtain ⟨-, hok⟩ := refuse_bind_ok hok
  obtain ⟨u, hrevision, hok⟩ := bind_ok hok
  obtain ⟨-, hok⟩ := refuse_bind_ok hok
  obtain ⟨versions, hupdate, hok⟩ := bind_ok hok
  obtain ⟨tags, hreplace, hreturn⟩ := bind_ok hok
  cases hreturn
  exact .mk' (lockNPMPackage_ok hlock) rfl rfl (fun _ => hrevision) ⟨hupdate, hreplace⟩

theorem unpublishNPMVersion_applied {version : Text}
    (hok : unpublishNPMVersion lib o t version = .ok t') :
    (Request.unpublish version).Applied lib o t t' := by
  obtain ⟨pkg, hlock, hok⟩ := bind_ok hok
  obtain ⟨-, hok⟩ := refuse_bind_ok hok
  obtain ⟨u, hrevision, hok⟩ := bind_ok hok
  obtain ⟨-, hok⟩ := refuse_bind_ok hok
  obtain ⟨-, hok⟩ := refuse_bind_ok hok
  dsimp only at hok
  obtain ⟨tags, hmove, hreturn⟩ := bind_ok hok
  cases hreturn
  exact .mk' (lockNPMPackage_ok hlock) rfl rfl (fun _ => hrevision) ⟨rfl, hmove⟩

theorem Request.applied {r : Request} (hok : r.apply lib o t = .ok t') : r.Applied lib o t t' := by
  cases r with
  | publish username description p tags => exact recordNPMPublication_applied hok
  | setTag tag version => exact setNPMDistTag_applied hok
  | deleteTag tag => exact deleteNPMDistTag_applied hok
  | setDeprecated version deprecated => exact setNPMVersionDeprecated_applied hok
  | packument deprecations tags => exact updateNPMPackument_applied hok
  | unpublish version => exact unpublishNPMVersion_applied hok

def Request.SameOrder (o o' : Outside) : Request → Prop
  | .packument deprecations tags =>
    o.order.pairs deprecations = o'.order.pairs deprecations ∧
      o.order.pairs tags = o'.order.pairs tags
  | _ => True

theorem publishTags_congr {version : Text} {names stored stored' : GoMap Text Text}
    (hview : tags.load = tags'.load)
    (hok : (o.order.pairs names).foldlM (publishTag lib o version) tags = .ok stored)
    (hok' : (o'.order.pairs names).foldlM (publishTag lib o' version) tags' = .ok stored') :
    stored.load = stored'.load := by
  funext tag
  have hpairs : ∀ order : GoMap.RangeOrder Text Text,
      (∃ e ∈ order.pairs names, e.2 = version ∧ sanitizeTag lib e.1 = tag) ↔
        ∃ name, names.load name = some version ∧ sanitizeTag lib name = tag := by
    intro order
    constructor
    · rintro ⟨e, he, hversion, htag⟩
      rw [← hversion]
      exact ⟨e.1, (order.mem_pairs names e.1 e.2).mp he, htag⟩
    · rintro ⟨name, hload, htag⟩
      exact ⟨(name, version), (order.mem_pairs names name version).mpr hload, rfl, htag⟩
  rw [publishTags_load hok, publishTags_load hok', hview]
  exact if_congr ((hpairs o.order).trans (hpairs o'.order).symm) rfl rfl

theorem moveLatest_load {latest tag : Text} (hok : moveLatest lib o tags latest = .ok tags') :
    tags'.load tag = if latest ≠ [] ∧ tag = latestTag then some latest else tags.load tag := by
  unfold moveLatest at hok
  split_ifs at hok with hnone
  · cases hok
    simp [hnone]
  · obtain ⟨-, -, hupsert⟩ := bind_ok hok
    rw [(upsertNPMTag_ok hupsert).2, sanitizeTag_latest, GoMap.load_store]
    simp [hnone]

theorem load_deleteVersion {version tag : Text} :
    (tags.deleteWhere fun _ v => decide (v = version)).load tag =
      (tags.load tag).filter fun v => decide (v ≠ version) := by
  rw [GoMap.load_deleteWhere]
  congr 1
  funext v
  by_cases h : v = version <;> simp [h]

theorem Request.view_congr {r : Request} (h : r.Effect lib o t t') (h' : r.Effect lib o' u u')
    (horder : r.SameOrder o o') (hview : view t = view u) : view t' = view u' := by
  have hversions : liveRow t.versions = liveRow u.versions := congrArg View.versions hview
  have htags : t.tags.load = u.tags.load := congrArg View.tags hview
  cases r with
  | publish username description p tags =>
    obtain ⟨-, -, hrow, hok⟩ := h
    obtain ⟨-, -, hrow', hok'⟩ := h'
    refine View.ext ?_ (publishTags_congr htags hok hok')
    funext w
    show liveRow t'.versions w = liveRow u'.versions w
    rw [hrow, hrow', liveRow_store rfl, liveRow_store rfl, hversions]
  | setTag tag version =>
    obtain ⟨-, hrows, hupsert⟩ := h
    obtain ⟨-, hrows', hupsert'⟩ := h'
    refine View.ext ?_ ?_
    · show liveRow t'.versions = liveRow u'.versions
      rw [hrows, hrows', hversions]
    · funext w
      show t'.tags.load w = u'.tags.load w
      rw [(upsertNPMTag_ok hupsert).2, (upsertNPMTag_ok hupsert').2, GoMap.load_store,
        GoMap.load_store, htags]
  | deleteTag tag =>
    obtain ⟨hrows, hdelete⟩ := h
    obtain ⟨hrows', hdelete'⟩ := h'
    refine View.ext ?_ ?_
    · show liveRow t'.versions = liveRow u'.versions
      rw [hrows, hrows', hversions]
    · funext w
      show t'.tags.load w = u'.tags.load w
      rw [hdelete, hdelete', GoMap.load_delete, GoMap.load_delete, htags]
  | setDeprecated version deprecated =>
    obtain ⟨hupdate, hsame⟩ := h
    obtain ⟨hupdate', hsame'⟩ := h'
    obtain ⟨row, hrow, hload⟩ := updateDeprecation_ok hupdate
    obtain ⟨row', hrow', hload'⟩ := updateDeprecation_ok hupdate'
    rw [hversions, hrow'] at hrow
    cases hrow
    refine View.ext ?_ ?_
    · funext w
      show liveRow t'.versions w = liveRow u'.versions w
      rw [hload, hload', hversions]
    · show t'.tags.load = u'.tags.load
      rw [hsame, hsame', htags]
  | packument deprecations tags =>
    obtain ⟨hupdate, hreplace⟩ := h
    obtain ⟨hupdate', hreplace'⟩ := h'
    rw [← horder.1] at hupdate'
    rw [← horder.2] at hreplace'
    refine View.ext (updateDeprecations_congr hversions hupdate hupdate') ?_
    show t'.tags.load = u'.tags.load
    rw [replaceTags_ok hreplace hreplace']
  | unpublish version =>
    obtain ⟨hrows, hmove⟩ := h
    obtain ⟨hrows', hmove'⟩ := h'
    have hmarked : liveRow t'.versions = liveRow u'.versions := by
      funext w
      rw [hrows, hrows', liveRow_markStale, liveRow_markStale, hversions]
    refine View.ext hmarked ?_
    funext tag
    show t'.tags.load tag = u'.tags.load tag
    rw [moveLatest_load hmove, moveLatest_load hmove', load_deleteVersion, load_deleteVersion,
      latestNPMVersionTx_congr hmarked, htags]

structure Stored (t : Tables) : Prop where
  row : ∃ pkg, t.package = some pkg
  versions : ∀ version row, t.versions.load version = some row → version ≠ []
  tags : TagsLive t.versions t.tags
  named : ∀ tag version, t.tags.load tag = some version → tag ≠ []

def TagsNamed (tags : GoMap Text Text) : Prop :=
  ∀ tag version, tags.load tag = some version → tag ≠ []

theorem TagsNamed.upsert {tag version : Text} (h : TagsNamed tags)
    (hok : upsertNPMTag lib tags tag version = .ok tags') : TagsNamed tags' := by
  intro name v hload
  rw [(upsertNPMTag_ok hok).2] at hload
  rcases (GoMap.moves_store tags _ _).cases hload with ⟨hname, -⟩ | ⟨-, hold⟩
  · rw [hname]
    exact fun hempty => (refuse_bind_ok hok).1 (Or.inl hempty)
  · exact h name v hold

theorem TagsNamed.sub (h : TagsNamed tags)
    (hsub : ∀ tag version, tags'.load tag = some version → tags.load tag = some version) :
    TagsNamed tags' := fun tag version hload => h tag version (hsub tag version hload)

theorem Request.Effect.named {r : Request} (h : r.Effect lib o t t') (hnamed : TagsNamed t.tags) :
    TagsNamed t'.tags := by
  cases r with
  | publish username description p tags =>
    refine foldlM_invariant ?_ hnamed h.2.2.2
    intro s e s' _ hs hstep
    unfold publishTag at hstep
    split_ifs at hstep
    · cases hstep
      exact hs
    · obtain ⟨-, -, hupsert⟩ := bind_ok hstep
      exact hs.upsert hupsert
  | setTag tag version => exact hnamed.upsert h.2.2
  | deleteTag tag =>
    rw [h.2]
    apply hnamed.sub
    intro name v hload
    rw [GoMap.load_delete] at hload
    split_ifs at hload
    exact hload
  | setDeprecated version deprecated =>
    rw [h.2]
    exact hnamed
  | packument deprecations tags =>
    refine foldlM_invariant ?_ ?_ h.2
    · exact fun s e s' _ hs hstep => hs.upsert (refuse_bind_ok hstep).2
    · exact fun tag version hload => by cases (GoMap.load_empty tag).symm.trans hload
  | unpublish version =>
    have hleft : TagsNamed (t.tags.deleteWhere fun _ v => decide (v = version)) := by
      apply hnamed.sub
      intro name v hload
      rw [GoMap.load_deleteWhere, Option.filter_eq_some_iff] at hload
      exact hload.1
    have hmove := h.2
    unfold moveLatest at hmove
    split_ifs at hmove
    · rw [Except.ok.injEq] at hmove
      rwa [← hmove]
    · obtain ⟨-, -, hupsert⟩ := bind_ok hmove
      exact hleft.upsert hupsert

theorem Request.Effect.rows {r : Request} (h : r.Effect lib o t t') :
    RowsEdited t.versions t'.versions ∨ ∃ version row, version ≠ [] ∧ row.unpublished = false ∧
      t.versions.has version = false ∧ t'.versions = t.versions.store version row := by
  cases r with
  | publish username description p tags =>
    obtain ⟨hne, hfree, hrows, -⟩ := h
    exact Or.inr ⟨p.version, p.row lib username false, hne, rfl, hfree, hrows⟩
  | setTag tag version =>
    rw [h.2.1]
    exact Or.inl (.refl _)
  | deleteTag tag =>
    rw [h.1]
    exact Or.inl (.refl _)
  | setDeprecated version deprecated => exact Or.inl (.updateDeprecation h.1)
  | packument deprecations tags => exact Or.inl (.deprecations h.1)
  | unpublish version =>
    rw [h.1]
    exact Or.inl (.markWhere _ _)

theorem Request.Effect.has {r : Request} {version : Text} (h : r.Effect lib o t t')
    (hhas : t.versions.has version = true) : t'.versions.has version = true := by
  obtain ⟨row, hload⟩ := (GoMap.has_eq_true _ _).mp hhas
  rcases h.rows with hedit | ⟨name, added, -, -, -, hrows⟩
  · obtain ⟨row', hload', -⟩ := hedit.after hload
    exact (GoMap.has_eq_true _ _).mpr ⟨row', hload'⟩
  · rw [hrows, GoMap.has, GoMap.load_store]
    split_ifs
    · rfl
    · rw [hload]
      rfl

theorem Request.Effect.versionNamed {r : Request} (h : r.Effect lib o t t')
    (hnamed : ∀ version row, t.versions.load version = some row → version ≠ [])
    (version : Text) (row' : NPMVersion) (hload' : t'.versions.load version = some row') :
    version ≠ [] := by
  rcases h.rows with hedit | ⟨name, added, hne, -, -, hrows⟩
  · obtain ⟨row, hload, -⟩ := hedit.before hload'
    exact hnamed version row hload
  · rw [hrows] at hload'
    rcases (GoMap.moves_store _ _ _).cases hload' with ⟨hname, -⟩ | ⟨-, hold⟩
    · rw [hname]
      exact hne
    · exact hnamed version row' hold

theorem TagsLive.mono (h : TagsLive versions tags)
    (hlive : ∀ version, live versions version = true → live versions' version = true) :
    TagsLive versions' tags := fun tag version hload => hlive version (h tag version hload)

theorem Request.Effect.tagsLive {r : Request} (h : r.Effect lib o t t')
    (htags : TagsLive t.versions t.tags) : TagsLive t'.versions t'.tags := by
  cases r with
  | publish username description p tags =>
    obtain ⟨-, -, hrows, hok⟩ := h
    have hrow : ∀ w, liveRow t'.versions w =
        if w = p.version then some (p.row lib username false) else liveRow t.versions w := by
      intro w
      rw [hrows, liveRow_store rfl]
    have hold : TagsLive t'.versions t.tags := by
      apply htags.mono
      intro version hlive
      rw [live_iff_liveRow, hrow]
      split_ifs
      · exact ⟨_, rfl⟩
      · exact live_iff_liveRow.mp hlive
    apply hold.publish _ hok
    rw [live_iff_liveRow, hrow, if_pos rfl]
    exact ⟨_, rfl⟩
  | setTag tag version =>
    obtain ⟨hlive, hrows, hupsert⟩ := h
    rw [hrows]
    exact htags.upsert hlive hupsert
  | deleteTag tag =>
    rw [h.1, h.2]
    exact htags.delete _
  | setDeprecated version deprecated =>
    obtain ⟨hupdate, hsame⟩ := h
    obtain ⟨row, hrow, hload⟩ := updateDeprecation_ok hupdate
    rw [hsame]
    apply htags.mono
    intro w hlive
    rw [live_iff_liveRow, hload]
    split_ifs
    · exact ⟨_, rfl⟩
    · exact live_iff_liveRow.mp hlive
  | packument deprecations tags => exact tagsLive_empty.replace h.2
  | unpublish version =>
    obtain ⟨hrows, hmove⟩ := h
    intro tag name hload
    rw [moveLatest_load hmove, load_deleteVersion] at hload
    split_ifs at hload with hlatest
    · cases hload
      exact latestNPMVersionTx_live hlatest.1
    · rw [Option.filter_eq_some_iff, decide_eq_true_eq] at hload
      rw [live_iff_liveRow, hrows, liveRow_markStale, if_neg hload.2]
      exact live_iff_liveRow.mp (htags tag name hload.1)

theorem Stored.request {r : Request} (hs : Stored t) (h : r.Applied lib o t t') : Stored t' where
  row := h.row'
  versions := h.effect.versionNamed hs.versions
  tags := h.effect.tagsLive hs.tags
  named := h.effect.named hs.named

theorem upsertNPMTag_of_ne {tag version : Text} (htag : sanitizeTag lib tag ≠ [])
    (hversion : version ≠ []) :
    upsertNPMTag lib tags tag version = .ok (tags.store (sanitizeTag lib tag) version) := by
  unfold upsertNPMTag refuse
  rw [if_neg (not_or.mpr ⟨htag, hversion⟩)]
  rfl

theorem upsertTags_spec {l : List (Text × Text)}
    (hstored : ∀ e ∈ l, sanitizeTag lib e.1 = e.1 ∧ e.1 ≠ [] ∧ e.2 ≠ [])
    (hnodup : (l.map Prod.fst).Nodup) :
    ∃ tags', l.foldlM (fun tags e => upsertNPMTag lib tags e.1 e.2) tags = .ok tags' ∧
      (∀ e ∈ l, tags'.load e.1 = some e.2) ∧
      ∀ tag, tag ∉ l.map Prod.fst → tags'.load tag = tags.load tag := by
  induction l generalizing tags with
  | nil => exact ⟨tags, rfl, by simp, fun _ _ => rfl⟩
  | cons e l ih =>
    obtain ⟨hname, hne, hversion⟩ := hstored e (List.mem_cons_self ..)
    rw [List.map_cons, List.nodup_cons] at hnodup
    obtain ⟨tags', hok, hin, hout⟩ :=
      @ih (tags.store e.1 e.2) (fun e' he' => hstored e' (List.mem_cons_of_mem e he')) hnodup.2
    refine ⟨tags', ?_, ?_, ?_⟩
    · rw [List.foldlM_cons, upsertNPMTag_of_ne (by rwa [hname]) hversion, hname]
      exact hok
    · intro e' he'
      rcases List.mem_cons.mp he' with rfl | hmem
      · rw [hout e'.1 hnodup.1, GoMap.load_store_self]
      · exact hin e' hmem
    · intro tag htag
      rw [List.map_cons, List.mem_cons, not_or] at htag
      rw [hout tag htag.2, GoMap.load_store_ne _ _ htag.1]

def StoredTags (lib : Library) (tags : GoMap Text Text) : Prop :=
  ∀ tag version, tags.load tag = some version → sanitizeTag lib tag = tag ∧ tag ≠ [] ∧ version ≠ []

theorem restoreTags_spec {order : GoMap.RangeOrder Text Text} {version : Text}
    {previousTags : GoMap Text Text} (hstored : StoredTags lib previousTags) :
    ∃ tags', restoreTags lib order tags version previousTags = .ok tags' ∧ ∀ tag,
      tags'.load tag = (previousTags.load tag).or
        ((tags.load tag).filter fun v => decide (v ≠ version)) := by
  obtain ⟨tags', hok, hin, hout⟩ :=
    @upsertTags_spec lib (tags.deleteWhere fun _ v => decide (v = version))
      (order.pairs previousTags)
      (fun e he => hstored e.1 e.2 ((order.mem_pairs previousTags e.1 e.2).mp he))
      (order.pairs_nodup previousTags)
  refine ⟨tags', hok, fun tag => ?_⟩
  cases hprevious : previousTags.load tag with
  | none =>
    rw [hout tag, Option.none_or, load_deleteVersion]
    rw [order.pairs_keys, order.mem_keys, GoMap.has, hprevious]
    exact Bool.false_ne_true
  | some v =>
    rw [hin (tag, v) ((order.mem_pairs previousTags tag v).mpr hprevious), Option.some_or]

structure RolledBack (version : Text) (row : NPMPackage) (previousTags : GoMap Text Text)
    (t t' : Tables) : Prop where
  row : ∃ pkg, t'.package = some (NPMPackage.restored pkg row)
  versions : t'.versions = t.versions.delete version
  tags : ∀ tag, t'.tags.load tag = (previousTags.load tag).or
    ((t.tags.load tag).filter fun v => decide (v ≠ version))

theorem removeApproved_spec {order : GoMap.RangeOrder Text Text} {version : Text}
    {row : NPMPackage} {previousTags : GoMap Text Text} (hrow : ∃ pkg, t.package = some pkg)
    (hversion : version ≠ []) (hhas : t.versions.has version = true)
    (hstored : StoredTags lib previousTags) :
    ∃ t', removeApprovedPublicationMetadata lib order t version (some row) previousTags = .ok t' ∧
      RolledBack version row previousTags t t' := by
  obtain ⟨pkg, hpkg⟩ := hrow
  obtain ⟨tags, hok, hload⟩ := @restoreTags_spec lib t.tags order version previousTags hstored
  refine ⟨⟨some (pkg.restored row), t.versions.delete version, tags⟩, ?_, ⟨pkg, rfl⟩, rfl, hload⟩
  have hrollback : rollbackNPMPublicationReview lib order t version (some row) previousTags =
      .ok ⟨some (pkg.restored row), t.versions.delete version, tags⟩ := by
    unfold rollbackNPMPublicationReview refuse
    simp only [hversion, if_false, hpkg, hhas, Bool.true_eq_false, hok]
    rfl
  unfold removeApprovedPublicationMetadata
  rw [hrollback]

end RenoP.Npm
