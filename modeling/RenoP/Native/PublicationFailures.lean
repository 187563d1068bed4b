import RenoP.Native.ProcessPublication
import RenoP.Native.Publication

/-!
# Failed uploads over a published artifact

Until the row is saved a failed upload changes nothing, and a commit of the file that fails is
rolled back.
-/

namespace RenoP.Native

open RenoP.Database (Text)
open RenoP.Index (FileIndex FileInfo)
open SlashPath (Path)
open Fallible (refuse refuse_neg bind_ok refuse_bind_ok)

variable {texts : Texts} {env : Accounts} {t t' : Tables} {localPath : Text → Path}
  {statTime : Path → ℤ} {fault : Option Step} {st st' : PublicationStore} {u : NativeUpload}
  {a : NativeArtifact}

def NativeArtifact.Valid (texts : Texts) (a : NativeArtifact) : Prop :=
  validNativeArtifact texts (a.upload []) = true

theorem valid_upload (h : a.Valid texts) (name : Text) :
    validNativeArtifact texts (a.upload name) = true := h

theorem saveRow_valid {resourceID : Text} {artifact : Upload} {published : Bool}
    (hvalid : validNativeArtifact texts artifact = true)
    (h : GoMap.All (NativeArtifact.Valid texts) t.artifacts)
    (hsave : saveRow texts t resourceID artifact published = .ok t') :
    GoMap.All (NativeArtifact.Valid texts) t'.artifacts := by
  unfold saveRow at hsave
  dsimp only at hsave
  split at hsave
  · rename_i old hold
    obtain ⟨-, hsave⟩ := refuse_bind_ok hsave
    cases hsave
    refine h.store _ ?_
    have hpath := h _ old hold
    unfold NativeArtifact.Valid validNativeArtifact NativeArtifact.upload at hpath ⊢
    unfold validNativeArtifact at hvalid
    simp only [Bool.and_eq_true] at hpath hvalid ⊢
    tauto
  · obtain ⟨-, hsave⟩ := refuse_bind_ok hsave
    obtain ⟨-, hsave⟩ := refuse_bind_ok hsave
    cases hsave
    exact h.store _ hvalid

theorem publication_valid {resourceID version : Text} {err : NativeError} {paths : List Text}
    {repository : Text} {artifacts artifacts' : GoMap Text NativeArtifact}
    (h : GoMap.All (NativeArtifact.Valid texts) artifacts)
    (hfold : paths.foldlM (publishPath texts repository resourceID version err) artifacts =
      .ok artifacts') : GoMap.All (NativeArtifact.Valid texts) artifacts' := by
  have hmarks := marks_of_foldlM hfold
  intro id row hrow
  rw [hmarks.load] at hrow
  split_ifs at hrow
  · obtain ⟨row', hrow', rfl⟩ := Option.map_eq_some_iff.mp hrow
    exact h id row' hrow'
  · exact h id row hrow

theorem nativeCall_valid {call : Call} (h : GoMap.All (NativeArtifact.Valid texts) t.artifacts)
    (hcall : nativeCall texts env t call = .ok t') :
    GoMap.All (NativeArtifact.Valid texts) t'.artifacts := by
  cases call with
  | resource call =>
    cases call with
    | createNativeResource repository format name actor now =>
      obtain ⟨userID, user, row, -, -, rfl⟩ := createNativeResource_ok hcall
      exact h
    | setNativeMember repository name actor target level now =>
      obtain ⟨targetID, members, -, -, -, -, rfl⟩ := setNativeMember_ok hcall
      exact h
    | deleteNativeResource repository name actor pending =>
      obtain ⟨-, -, rfl⟩ := deleteNativeResource_ok hcall
      exact h.deleteWhere _
  | updateNativeResource repository name actor description signingKey =>
    obtain ⟨-, h'⟩ := refuse_bind_ok hcall
    obtain ⟨granted, -, h'⟩ := bind_ok h'
    cases h'
    exact h
  | setNativeResourceArchived repository name actor archived =>
    obtain ⟨granted, -, h'⟩ := bind_ok hcall
    cases h'
    exact h
  | deleteNativeRepository repository =>
    obtain ⟨-, h'⟩ := refuse_bind_ok hcall
    obtain ⟨-, h'⟩ := refuse_bind_ok h'
    cases h'
    exact h.deleteWhere _
  | saveNativeArtifact artifact actor published =>
    obtain ⟨hvalid, h'⟩ := refuse_bind_ok hcall
    obtain ⟨granted, -, h'⟩ := bind_ok h'
    obtain ⟨t₁, hsave, h'⟩ := bind_ok h'
    rw [Bool.not_eq_false] at hvalid
    have hrows := saveRow_valid hvalid h hsave
    cases published with
    | true =>
      cases h'
      exact hrows
    | false =>
      cases h'
      exact hrows
  | publishNativeArtifacts repository name version actor paths now =>
    obtain ⟨-, h'⟩ := refuse_bind_ok hcall
    obtain ⟨granted, -, h'⟩ := bind_ok h'
    obtain ⟨artifacts, hfold, h'⟩ := bind_ok h'
    cases h'
    exact publication_valid h hfold
  | approveNativeReview task now =>
    obtain ⟨granted, -, h'⟩ := bind_ok hcall
    obtain ⟨id, -, h'⟩ := bind_ok h'
    obtain ⟨-, h'⟩ := refuse_bind_ok h'
    obtain ⟨artifacts, hfold, h'⟩ := bind_ok h'
    cases h'
    exact publication_valid h hfold
  | deleteNativeArtifact repository path actor =>
    simp only [nativeCall, deleteNativeArtifact] at hcall
    split at hcall
    · cases hcall
      exact h
    · split at hcall
      · cases hcall
        exact h
      · split_ifs at hcall
        · cases hcall
          exact h.delete _
        · obtain ⟨granted, -, h'⟩ := bind_ok hcall
          cases h'
          exact h.delete _
  | deleteNativeArtifactsUnder repository pre =>
    obtain ⟨-, h'⟩ := refuse_bind_ok hcall
    cases h'
    exact h.deleteWhere _
  | deleteNativeVersionArtifacts repository name version made =>
    obtain ⟨id, -, h'⟩ := bind_ok hcall
    obtain ⟨-, h'⟩ := refuse_bind_ok h'
    cases h'
    exact GoMap.All.foldl_delete _ h

theorem run_valid (calls : List (Accounts × Call)) :
    ∀ {t : Tables}, GoMap.All (NativeArtifact.Valid texts) t.artifacts →
      GoMap.All (NativeArtifact.Valid texts) (calls.foldl (next texts) t).artifacts := by
  induction calls with
  | nil =>
    intro t h
    exact h
  | cons call calls ih =>
    intro t h
    apply ih
    unfold next
    split
    · exact h
    · rename_i hcall
      exact nativeCall_valid h hcall

theorem step_bind_ok {β : Type} {s : Step} {f : Unit → Except PublicationError β} {b : β}
    (h : (step fault s >>= f) = .ok b) : fault ≠ some s ∧ f () = .ok b :=
  refuse_bind_ok h

theorem admit_replaces {resource : NativeResource} {previous : Option (NativeArtifact × Text)}
    (h : admitPublication texts env localPath fault st u = .ok (.replaces resource previous)) :
    previous = getNativeArtifact texts st.tables u.repository u.relative ∧
      ∀ a name, previous = some (a, name) → name = u.name ∧ (a.published = true → u.protocol ≠ conan) := by
  unfold admitPublication at h
  iterate 12 obtain ⟨-, h⟩ := step_bind_ok h
  obtain ⟨found, -, h⟩ := bind_ok h
  obtain ⟨-, h⟩ := refuse_bind_ok h
  obtain ⟨-, h⟩ := refuse_bind_ok h
  obtain ⟨-, h⟩ := step_bind_ok h
  obtain ⟨-, h⟩ := step_bind_ok h
  dsimp only at h
  obtain ⟨-, h⟩ := refuse_bind_ok h
  obtain ⟨-, h⟩ := step_bind_ok h
  obtain ⟨granted, -, h⟩ := bind_ok h
  split_ifs at h with hconan
  · obtain ⟨-, h⟩ := step_bind_ok h
    obtain ⟨-, h⟩ := refuse_bind_ok h
    obtain ⟨-, h⟩ := step_bind_ok h
    cases h
  obtain ⟨-, h⟩ := step_bind_ok h
  obtain ⟨-, h⟩ := step_bind_ok h
  iterate 4 obtain ⟨-, h⟩ := refuse_bind_ok h
  obtain ⟨hname, h⟩ := refuse_bind_ok h
  obtain ⟨-, h⟩ := refuse_bind_ok h
  obtain ⟨-, h⟩ := step_bind_ok h
  obtain ⟨-, h⟩ := step_bind_ok h
  cases h
  refine ⟨rfl, fun a name ha => ⟨?_, fun hpublished hprotocol => hconan ⟨?_, hprotocol⟩⟩⟩
  · rw [ha] at hname
    simpa using hname
  · rw [ha]
    exact hpublished

def NativeArtifact.overwrite (a : NativeArtifact) (upload : Upload) (published : Bool) :
    NativeArtifact :=
  { a with
    version := upload.version, size := upload.size, createdAt := upload.createdAt, published }

def Tables.overwrite (texts : Texts) (t : Tables) (old : NativeArtifact) (upload : Upload)
    (published : Bool) : Tables where
  resources := t.resources
  members := t.members
  artifacts := t.artifacts.store (texts.nativeID upload.repository upload.path)
    (old.overwrite upload published)

theorem saved_over {old : NativeArtifact} {upload : Upload} {actor : Text}
    (hold : t.artifacts.load (texts.nativeID upload.repository upload.path) = some old)
    (h : saveNativeArtifact texts env t upload actor false = .ok t') :
    (∃ granted, nativePermissionTx texts env t upload.repository upload.name actor
        permissionPublish = .ok granted) ∧
      old.resourceID = texts.nativeID upload.repository upload.name ∧
      t' = t.overwrite texts old upload false := by
  obtain ⟨-, h⟩ := refuse_bind_ok h
  obtain ⟨granted, hgranted, h⟩ := bind_ok h
  obtain ⟨t₁, hrow, h⟩ := bind_ok h
  unfold saveRow at hrow
  dsimp only at hrow
  rw [hold] at hrow
  obtain ⟨hresource, hrow⟩ := refuse_bind_ok hrow
  cases hrow
  cases h
  exact ⟨⟨granted, hgranted⟩, not_not.mp hresource, rfl⟩

theorem save_over {old : NativeArtifact} {upload : Upload} {actor : Text} {published : Bool}
    {granted : Text × ℤ} (hvalid : validNativeArtifact texts upload = true)
    (hgranted : nativePermissionTx texts env t upload.repository upload.name actor
      permissionPublish = .ok granted)
    (hold : t.artifacts.load (texts.nativeID upload.repository upload.path) = some old)
    (hresource : ¬ old.resourceID ≠ texts.nativeID upload.repository upload.name) :
    ∃ t', saveNativeArtifact texts env t upload actor published = .ok t' ∧
      t'.artifacts = (t.overwrite texts old upload published).artifacts := by
  have hrow : saveRow texts t (texts.nativeID upload.repository upload.name) upload published =
      .ok (t.overwrite texts old upload published) := by
    unfold saveRow
    dsimp only
    rw [hold]
    dsimp only
    rw [refuse_neg hresource]
    rfl
  unfold saveNativeArtifact
  simp only [hvalid, refuse, Bool.true_eq_false, if_false, hgranted, hrow]
  cases published with
  | true => exact ⟨_, rfl, rfl⟩
  | false => exact ⟨_, rfl, rfl⟩

theorem granted_resource {repository name actor : Text} {required : ℤ} {granted : Text × ℤ}
    (h : nativePermissionTx texts env t repository name actor required = .ok granted) :
    ∃ r, t.resources.load (texts.nativeID repository name) = some r := by
  unfold nativePermissionTx at h
  obtain ⟨id, hid, h⟩ := bind_ok h
  obtain ⟨user, -, h⟩ := bind_ok h
  obtain ⟨hhas, -⟩ := refuse_bind_ok h
  unfold nativeKey at hid
  split_ifs at hid
  cases hid
  rw [Bool.not_eq_false] at hhas
  exact (GoMap.has_eq_true _ _).mp hhas

theorem publish_one {repository name version actor path : Text} {now : ℤ} {granted : Text × ℤ}
    {row : NativeArtifact}
    (hgranted : nativePermissionTx texts env t repository name actor permissionPublish = .ok granted)
    (hrow : t.artifacts.load (texts.nativeID repository path) = some row)
    (hsame : ¬ (row.resourceID ≠ texts.nativeID repository name ∨ row.version ≠ version)) :
    ∃ t', publishNativeArtifacts texts env t repository name version actor [path] now = .ok t' := by
  have hturn : publishPath texts repository (texts.nativeID repository name) version .invalid
      t.artifacts path = .ok (markPublished t.artifacts (texts.nativeID repository path)
        (texts.nativeID repository name)) := by
    unfold publishPath
    dsimp only
    rw [hrow]
    dsimp only
    rw [refuse_neg hsame]
    rfl
  unfold publishNativeArtifacts
  rw [refuse_neg (by simp), hgranted]
  simp only [List.foldlM_cons, List.foldlM_nil, hturn]
  exact ⟨_, rfl⟩

theorem release_unblocked (st : PublicationStore) (p : Path) :
    (release statTime st p).index.isBlocked p = false := by
  have hfree := FileIndex.isBlocked_unblockFile st.index p
  unfold release reindexPathIfPresent
  dsimp only
  rw [if_neg (by rw [hfree]; decide)]
  split
  · exact hfree
  · refine (FileIndex.isBlocked_congr ?_ p).trans hfree
    rw [FileIndex.insertFile_blocked, FileIndex.ensureParentDirs_blocked]

theorem release_tables (st : PublicationStore) (p : Path) :
    (release statTime st p).tables = st.tables := by
  unfold release reindexPathIfPresent
  dsimp only
  split_ifs
  · rfl
  · split <;> rfl

theorem release_files (st : PublicationStore) (p : Path) :
    (release statTime st p).files = st.files := by
  unfold release reindexPathIfPresent
  dsimp only
  split_ifs
  · rfl
  · split <;> rfl

structure PublishedAt (texts : Texts) (localPath : Text → Path) (st : PublicationStore)
    (u : NativeUpload) (a : NativeArtifact) : Prop where
  row : st.tables.artifacts.load (texts.nativeID u.repository u.relative) = some a
  repository : a.repository = u.repository
  path : a.path = u.relative
  published : a.published = true
  unblocked : st.index.isBlocked (localPath u.relative) = false

structure LeftAlone (texts : Texts) (localPath : Text → Path) (st st' : PublicationStore)
    (u : NativeUpload) : Prop where
  row : st'.tables.artifacts.load (texts.nativeID u.repository u.relative) =
    st.tables.artifacts.load (texts.nativeID u.repository u.relative)
  bytes : st'.files.load (localPath u.relative) = st.files.load (localPath u.relative)
  unblocked : st'.index.isBlocked (localPath u.relative) = false

def RowSaved (texts : Texts) (env : Accounts) (localPath : Text → Path) (fault : Option Step)
    (st : PublicationStore) (u : NativeUpload) : Prop :=
  fault ≠ some .saveArtifact ∧ ∃ resource previous tables,
    admitPublication texts env localPath fault st u = .ok (.replaces resource previous) ∧
      saveNativeArtifact texts env st.tables u.artifact u.username false = .ok tables

theorem PublishedAt.leftAlone (h : PublishedAt texts localPath st u a) :
    LeftAlone texts localPath st st u := ⟨rfl, rfl, h.unblocked⟩

theorem PublishedAt.saved (h : PublishedAt texts localPath st u a) {resource : NativeResource}
    {previous : Option (NativeArtifact × Text)} {tables : Tables}
    (hreplaces : admitPublication texts env localPath fault st u = .ok (.replaces resource previous))
    (hsave : saveNativeArtifact texts env st.tables u.artifact u.username false = .ok tables) :
    previous = some (a, u.name) ∧ u.protocol ≠ conan ∧
      a.resourceID = texts.nativeID u.repository u.name ∧
      tables = st.tables.overwrite texts a u.artifact false ∧
      ∃ granted, nativePermissionTx texts env st.tables u.repository u.name u.username
        permissionPublish = .ok granted := by
  obtain ⟨⟨granted, hgranted⟩, hresource, htables⟩ := saved_over h.row hsave
  obtain ⟨r, hr⟩ := granted_resource hgranted
  obtain ⟨hprevious, hchecked⟩ := admit_replaces hreplaces
  have hfound : previous = some (a, r.name) := by
    rw [hprevious, getNativeArtifact, h.row]
    dsimp only
    rw [hresource]
    exact congrArg (Option.map _) hr
  obtain ⟨hname, hconan⟩ := hchecked a r.name hfound
  exact ⟨hname ▸ hfound, hconan h.published, hresource, htables, granted, hgranted⟩

theorem PublishedAt.overwritten (h : PublishedAt texts localPath st u a) {index : FileIndex}
    {files : GoMap Path (List UInt8)} :
    ¬ LeftAlone texts localPath st
      { tables := st.tables.overwrite texts a u.artifact false, files, index } u := by
  intro hleft
  have hrow := hleft.row
  rw [h.row] at hrow
  have hover : a.overwrite u.artifact false = a :=
    Option.some_inj.mp ((GoMap.load_store_self _ _ _).symm.trans hrow)
  have hpublished := h.published
  rw [← hover] at hpublished
  cases hpublished

theorem PublishedAt.valid (h : PublishedAt texts localPath st u a)
    {calls : List (Accounts × Call)} (hst : st.tables = calls.foldl (next texts) .empty) :
    a.Valid texts := by
  have hall : GoMap.All (NativeArtifact.Valid texts) (calls.foldl (next texts) .empty).artifacts :=
    run_valid calls GoMap.all_empty
  rw [← hst] at hall
  exact hall _ a h.row

theorem PublishedAt.rolledBack (h : PublishedAt texts localPath st u a) (hvalid : a.Valid texts)
    (hfault : fault ≠ some .rollback)
    (hresource : a.resourceID = texts.nativeID u.repository u.name) {granted : Text × ℤ}
    (hgranted : nativePermissionTx texts env st.tables u.repository u.name u.username
      permissionPublish = .ok granted) (index : FileIndex) :
    LeftAlone texts localPath st
      (rollbackPublication texts env localPath statTime fault
        { tables := st.tables.overwrite texts a u.artifact false, files := st.files, index } u
        (some (a, u.name))) u := by
  have hpath : texts.nativeID (a.upload u.name).repository (a.upload u.name).path =
      texts.nativeID u.repository u.relative := by
    rw [← h.repository, ← h.path]
    rfl
  have hold : (st.tables.overwrite texts a u.artifact false).artifacts.load
      (texts.nativeID (a.upload u.name).repository (a.upload u.name).path) =
        some (a.overwrite u.artifact false) := by
    rw [hpath]
    exact GoMap.load_store_self _ _ _
  have hname : texts.nativeID (a.upload u.name).repository (a.upload u.name).name =
      texts.nativeID u.repository u.name := by
    rw [← h.repository]
    rfl
  have hgranted' : nativePermissionTx texts env (st.tables.overwrite texts a u.artifact false)
      (a.upload u.name).repository (a.upload u.name).name u.username permissionPublish =
        .ok granted := by
    rw [← hgranted, ← h.repository]
    rfl
  obtain ⟨tables, hsave, hrows⟩ : ∃ tables, saveNativeArtifact texts env
      (st.tables.overwrite texts a u.artifact false) (a.upload u.name) u.username a.published =
        .ok tables ∧ _ :=
    save_over (valid_upload hvalid u.name) hgranted' hold
      (not_not.mpr (hresource.trans hname.symm))
  have hrow : tables.artifacts.load (texts.nativeID u.repository u.relative) = some a := by
    rw [hrows, ← hpath]
    exact GoMap.load_store_self _ _ _
  have hshown : publishedOrAbsent (some (a, u.name)) = true := h.published
  unfold rollbackPublication
  rw [step, refuse_neg hfault]
  dsimp only
  rw [hsave]
  simp only [liftNative, hshown, if_true]
  refine ⟨?_, ?_, release_unblocked _ _⟩
  · rw [release_tables, hrow, h.row]
  · rw [release_files]

theorem PublishedAt.finished (h : PublishedAt texts localPath st u a)
    (hconan : u.protocol ≠ conan)
    (hresource : a.resourceID = texts.nativeID u.repository u.name) {granted : Text × ℤ}
    (hgranted : nativePermissionTx texts env st.tables u.repository u.name u.username
      permissionPublish = .ok granted) (files : GoMap Path (List UInt8)) (index : FileIndex) :
    (∀ err, (finishPublication texts env localPath statTime fault
      ⟨st.tables.overwrite texts a u.artifact false, files, index⟩ u).1 = .error err →
        LeftAlone texts localPath st (finishPublication texts env localPath statTime fault
          ⟨st.tables.overwrite texts a u.artifact false, files, index⟩ u).2 u) ↔
      ¬ (fault = some .createReview ∨ fault = some .publishArtifacts ∧ u.pending = false) := by
  have hpaths : publishedPaths texts fault
      ⟨st.tables.overwrite texts a u.artifact false, files, index⟩ u = .ok (some [u.relative]) := by
    unfold publishedPaths
    rw [if_neg hconan]
    rfl
  unfold finishPublication
  rw [hpaths]
  dsimp only
  by_cases hreview : fault = some .createReview
  · rw [if_pos hreview]
    exact iff_of_false (fun hleft => h.overwritten (hleft _ rfl)) (not_not.mpr (.inl hreview))
  rw [if_neg hreview]
  by_cases hpending : u.pending = true
  · rw [if_pos hpending]
    refine iff_of_true nofun ?_
    rintro (hfault | ⟨-, hdone⟩)
    · exact hreview hfault
    · rw [hpending] at hdone
      cases hdone
  rw [if_neg hpending]
  by_cases hpublish : fault = some .publishArtifacts
  · rw [if_pos hpublish]
    exact iff_of_false (fun hleft => h.overwritten (hleft _ rfl))
      (not_not.mpr (.inr ⟨hpublish, Bool.not_eq_true _ ▸ hpending⟩))
  rw [if_neg hpublish]
  have hrow : (st.tables.overwrite texts a u.artifact false).artifacts.load
      (texts.nativeID u.repository u.relative) = some (a.overwrite u.artifact false) :=
    GoMap.load_store_self _ _ _
  obtain ⟨tables, htables⟩ : ∃ tables, publishNativeArtifacts texts env
      (st.tables.overwrite texts a u.artifact false) u.repository u.name u.version u.username
      [u.relative] u.now = .ok tables :=
    publish_one hgranted hrow (not_or.mpr ⟨not_not.mpr hresource, not_not.mpr rfl⟩)
  rw [htables]
  refine iff_of_true nofun ?_
  rintro (hfault | ⟨hfault, -⟩)
  · exact hreview hfault
  · exact hpublish hfault

theorem failed_publication_iff {calls : List (Accounts × Call)}
    (hst : st.tables = calls.foldl (next texts) .empty) (hpub : PublishedAt texts localPath st u a) :
    (∀ err, (processNativePublication texts env localPath statTime fault st u).1 = .error err →
      LeftAlone texts localPath st
        (processNativePublication texts env localPath statTime fault st u).2 u) ↔
      ¬ (RowSaved texts env localPath fault st u ∧
        (fault = some .createReview ∨ fault = some .publishArtifacts ∧ u.pending = false)) := by
  unfold processNativePublication
  cases hreplaces : admitPublication texts env localPath fault st u with
  | error err =>
    refine iff_of_true (fun _ _ => hpub.leftAlone) ?_
    rintro ⟨⟨-, resource, previous, tables, hok, -⟩, -⟩
    rw [hreplaces] at hok
    cases hok
  | ok admission =>
    cases admission with
    | retried =>
      refine iff_of_true nofun ?_
      rintro ⟨⟨-, resource, previous, tables, hok, -⟩, -⟩
      rw [hreplaces] at hok
      cases hok
    | replaces resource previous =>
      dsimp only
      by_cases hfault : fault = some .saveArtifact
      · rw [if_pos hfault]
        exact iff_of_true (fun _ _ => hpub.leftAlone) fun hsaved => hsaved.1.1 hfault
      rw [if_neg hfault]
      cases hsave : saveNativeArtifact texts env st.tables u.artifact u.username false with
      | error err =>
        refine iff_of_true (fun _ _ => hpub.leftAlone) ?_
        rintro ⟨⟨-, resource, previous, tables, -, hok⟩, -⟩
        rw [hsave] at hok
        cases hok
      | ok tables =>
        have hsaved : RowSaved texts env localPath fault st u :=
          ⟨hfault, resource, previous, tables, hreplaces, hsave⟩
        obtain ⟨rfl, hconan, hresource, rfl, granted, hgranted⟩ := hpub.saved hreplaces hsave
        rw [and_iff_right hsaved]
        dsimp only
        by_cases hcommit : fault = some .commitFile
        · rw [if_pos hcommit]
          subst hcommit
          have hrollback : some Step.commitFile ≠ some .rollback := by decide
          exact iff_of_true (fun _ _ => hpub.rolledBack (hpub.valid hst) hrollback hresource
            hgranted _) (by simp)
        · rw [if_neg hcommit]
          exact hpub.finished hconan hresource hgranted _ _

def publishedCalls : List (Accounts × Call) :=
  [(oneAccount, .resource (.createNativeResource ['r'] ['h', 'e', 'l', 'm'] ['n'] ['u'] 1)),
    (oneAccount, .saveNativeArtifact ⟨['r'], ['n'], ['1'], ['a'], 2, 2⟩ ['u'] false),
    (oneAccount, .publishNativeArtifacts ['r'] ['n'] ['1'] ['u'] [['a']] 2)]

def storagePath (relative : Text) : Path := '/' :: 'r' :: '/' :: relative

def publishedChart : PublicationStore where
  tables := publishedCalls.foldl (next plainTexts) .empty
  files := (∅ : GoMap Path (List UInt8)).store (storagePath ['a']) [1, 2]
  index := RenoP.Index.newFileIndex.insertFile (storagePath ['a']) { size := 2, modTime := 2 }

def publishedRow : NativeArtifact :=
  ⟨plainTexts.nativeID ['r'] ['n'], ['r'], ['a'], ['1'], 2, 2, true⟩

def chartAgain : NativeUpload where
  repository := ['r']
  protocol := ['h', 'e', 'l', 'm']
  username := ['u']
  relative := ['a']
  content := [3, 4, 5]
  name := ['n']
  version := ['1']
  policy := .off
  canReplace := true
  s3 := false
  deprecated := false
  review := none
  complete := false
  pending := false
  now := 5
  modTime := 5

def sendAgain (fault : Option Step) : Except PublicationError PublicationResult × PublicationStore :=
  processNativePublication plainTexts oneAccount storagePath (fun _ => 0) fault publishedChart
    chartAgain

theorem chart_published :
    PublishedAt plainTexts storagePath publishedChart chartAgain publishedRow where
  row := by decide +kernel
  repository := rfl
  path := rfl
  published := rfl
  unblocked := by decide +kernel

theorem failed_commit_rolled_back : (sendAgain (some .commitFile)).1 = .error (.failed .commitFile) ∧
    LeftAlone plainTexts storagePath publishedChart (sendAgain (some .commitFile)).2 chartAgain := by
  have herror : (sendAgain (some .commitFile)).1 = .error (.failed .commitFile) := by
    decide +kernel
  refine ⟨herror, (failed_publication_iff rfl chart_published).mpr ?_ _ herror⟩
  rintro ⟨-, hfault | ⟨hfault, -⟩⟩
  · cases hfault
  · cases hfault

theorem failed_review_takes_offline :
    PublishedAt plainTexts storagePath publishedChart chartAgain publishedRow ∧
      (sendAgain (some .createReview)).1 = .error (.failed .createReview) ∧
      ¬ LeftAlone plainTexts storagePath publishedChart (sendAgain (some .createReview)).2
        chartAgain := by
  refine ⟨chart_published, by decide +kernel, fun hleft => ?_⟩
  have hblocked := hleft.unblocked
  revert hblocked
  decide +kernel

end RenoP.Native
