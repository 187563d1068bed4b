import RenoP.Native.Ownership
import RenoP.Lib.Runs

/-!
# Publication of native artifacts

An artifact stays with its resource, a resource keeps the time of its publication, and a
publication marks the paths that it lists.
-/

namespace RenoP.Native

open RenoP.Database (Text)
open Fallible (refuse refuse_ok bind_ok refuse_bind_ok foldlM_cons_ok)
open GoMap (Steady steady_refl steady_delete steady_deleteWhere steady_foldl_delete
  steady_updateWhere steady_store)

variable {texts : Texts} {env : Accounts} {t t' : Tables} {repository name target : Text}
  {now : ℤ}

def SamePlace (a a' : NativeArtifact) : Prop :=
  a'.resourceID = a.resourceID ∧ a'.repository = a.repository ∧ a'.path = a.path

def SameDate (r r' : NativeResource) : Prop := r.publishedAt ≠ 0 → r'.publishedAt = r.publishedAt

theorem samePlace_refl (a : NativeArtifact) : SamePlace a a := ⟨rfl, rfl, rfl⟩

theorem sameDate_refl (r : NativeResource) : SameDate r r := fun _ => rfl

structure Stays (t t' : Tables) : Prop where
  places : Steady SamePlace t.artifacts t'.artifacts
  dates : Steady SameDate t.resources t'.resources

theorem steady_setPublishedAt (resources : GoMap Text NativeResource) (id : Text) (now : ℤ) :
    Steady SameDate resources (setPublishedAt resources id now) := by
  apply steady_updateWhere sameDate_refl
  intro k r hp hdate
  simp only [Bool.and_eq_true, decide_eq_true_eq] at hp
  exact absurd hp.2 hdate

theorem saveRow_ok {resourceID : Text} {artifact : Upload} {published : Bool}
    (h : saveRow texts t resourceID artifact published = .ok t') :
    t'.resources = t.resources ∧ Steady SamePlace t.artifacts t'.artifacts := by
  unfold saveRow at h
  dsimp only at h
  split at h
  · rename_i old hold
    obtain ⟨-, h⟩ := refuse_bind_ok h
    cases h
    refine ⟨rfl, steady_store samePlace_refl ?_⟩
    intro row hrow
    rw [hold] at hrow
    cases hrow
    exact ⟨rfl, rfl, rfl⟩
  · rename_i hnone
    obtain ⟨-, h⟩ := refuse_bind_ok h
    obtain ⟨-, h⟩ := refuse_bind_ok h
    cases h
    refine ⟨rfl, steady_store samePlace_refl ?_⟩
    intro row hrow
    rw [hnone] at hrow
    cases hrow

structure Marks (texts : Texts) (repository resourceID version : Text) (paths : List Text)
    (artifacts artifacts' : GoMap Text NativeArtifact) : Prop where
  listed : ∀ path ∈ paths, ∃ a, artifacts.load (texts.nativeID repository path) = some a ∧
    a.resourceID = resourceID ∧ a.version = version
  load : ∀ id, artifacts'.load id =
    if id ∈ paths.map (texts.nativeID repository) then
      (artifacts.load id).map fun a => { a with published := true }
    else artifacts.load id

theorem load_markPublished {artifacts : GoMap Text NativeArtifact} {id : Text} {a : NativeArtifact}
    (hload : artifacts.load id = some a) (id' : Text) :
    (markPublished artifacts id a.resourceID).load id' =
      if id' = id then (artifacts.load id').map fun a => { a with published := true }
      else artifacts.load id' := by
  unfold markPublished
  rw [GoMap.load_updateWhere]
  split_ifs with hid
  · rw [hid, hload]
    simp
  · simp [hid]

theorem marks_of_foldlM {resourceID version : Text} {err : NativeError} {paths : List Text} :
    ∀ {artifacts artifacts' : GoMap Text NativeArtifact},
      paths.foldlM (publishPath texts repository resourceID version err) artifacts = .ok artifacts' →
        Marks texts repository resourceID version paths artifacts artifacts' := by
  induction paths with
  | nil =>
    intro artifacts artifacts' h
    cases h
    exact ⟨nofun, fun id => rfl⟩
  | cons path paths ih =>
    intro artifacts artifacts' h
    obtain ⟨between, hpath, hrest⟩ := foldlM_cons_ok h
    obtain ⟨hlisted, hload⟩ := ih hrest
    simp only [publishPath] at hpath
    split at hpath
    · cases hpath
    · rename_i a ha
      obtain ⟨hsame, hpath⟩ := refuse_bind_ok hpath
      cases hpath
      obtain ⟨hresource, hversion⟩ := not_or.mp hsame
      have hresource : a.resourceID = resourceID := not_not.mp hresource
      have hversion : a.version = version := not_not.mp hversion
      rw [← hresource] at hlisted hload ⊢
      have hmark := load_markPublished ha
      constructor
      · intro path' hmem
        rcases List.mem_cons.mp hmem with heq | hmem
        · rw [heq]
          exact ⟨a, ha, rfl, hversion⟩
        · obtain ⟨row, hrow, hof⟩ := hlisted path' hmem
          rw [hmark] at hrow
          split_ifs at hrow
          · obtain ⟨row', hrow', heq⟩ := Option.map_eq_some_iff.mp hrow
            rw [← heq] at hof
            exact ⟨row', hrow', hof⟩
          · exact ⟨row, hrow, hof⟩
      · intro id
        rw [hload, hmark]
        simp only [List.map_cons, List.mem_cons]
        by_cases hid : id = texts.nativeID repository path
        · rw [if_pos hid, if_pos (Or.inl hid), Option.map_map]
          split_ifs
          · rfl
          · rfl
        · rw [if_neg hid]
          simp only [hid, false_or]

theorem Marks.steady {resourceID version : Text} {paths : List Text}
    {artifacts artifacts' : GoMap Text NativeArtifact}
    (h : Marks texts repository resourceID version paths artifacts artifacts') :
    Steady SamePlace artifacts artifacts' := by
  intro id a a' ha ha'
  rw [h.load, ha] at ha'
  split_ifs at ha'
  · cases ha'
    exact ⟨rfl, rfl, rfl⟩
  · cases ha'
    exact samePlace_refl a

structure Publication where
  repository : Text
  name : Text
  version : Text
  paths : List Text

def Call.publication : Call → Option Publication
  | .publishNativeArtifacts repository name version _ paths _ =>
    some ⟨repository, name, version, paths⟩
  | .approveNativeReview task _ =>
    some ⟨task.repository, task.resourceKey, task.resourceVersion, task.paths⟩
  | _ => none

def Publication.Applied (texts : Texts) (p : Publication) (t t' : Tables) : Prop :=
  Marks texts p.repository (texts.nativeID p.repository p.name) p.version p.paths t.artifacts
      t'.artifacts ∧
    t'.members = t.members ∧ Steady SameDate t.resources t'.resources ∧
    ∀ id, id ≠ texts.nativeID p.repository p.name → t'.resources.load id = t.resources.load id

theorem load_setPublishedAt_ne (resources : GoMap Text NativeResource) {id id' : Text} (now : ℤ)
    (hid : id' ≠ id) : (setPublishedAt resources id now).load id' = resources.load id' := by
  unfold setPublishedAt
  rw [GoMap.load_updateWhere]
  simp [hid]

theorem publication_applied {call : Call} {p : Publication} (hp : call.publication = some p)
    (hcall : nativeCall texts env t call = .ok t') : p.Applied texts t t' := by
  cases call with
  | publishNativeArtifacts repository name version actor paths now =>
    cases hp
    obtain ⟨-, h⟩ := refuse_bind_ok hcall
    obtain ⟨granted, -, h⟩ := bind_ok h
    obtain ⟨artifacts, hfold, h⟩ := bind_ok h
    cases h
    exact ⟨marks_of_foldlM hfold, rfl, steady_setPublishedAt _ _ _,
      fun id hid => load_setPublishedAt_ne _ _ hid⟩
  | approveNativeReview task now =>
    cases hp
    obtain ⟨granted, -, h⟩ := bind_ok hcall
    obtain ⟨id, hkey, h⟩ := bind_ok h
    obtain ⟨-, h⟩ := refuse_bind_ok h
    obtain ⟨artifacts, hfold, h⟩ := bind_ok h
    cases h
    unfold nativeKey at hkey
    split_ifs at hkey
    cases hkey
    exact ⟨marks_of_foldlM hfold, rfl, steady_setPublishedAt _ _ _,
      fun id hid => load_setPublishedAt_ne _ _ hid⟩
  | _ => cases hp

theorem stays_refl (t : Tables) : Stays t t :=
  ⟨steady_refl samePlace_refl _, steady_refl sameDate_refl _⟩

theorem resourceCall_stays {call : ResourceCall} (hcall : resourceCall texts env t call = .ok t') :
    Stays t t' := by
  cases call with
  | createNativeResource repository format name actor now =>
    obtain ⟨userID, user, row, -, hnew, rfl⟩ := createNativeResource_ok hcall
    refine ⟨steady_refl samePlace_refl _, steady_store sameDate_refl ?_⟩
    intro old hold
    rw [(GoMap.has_eq_true _ _).mpr ⟨old, hold⟩] at hnew
    cases hnew
  | setNativeMember repository name actor target level now =>
    obtain ⟨targetID, members, -, -, -, -, rfl⟩ := setNativeMember_ok hcall
    exact ⟨steady_refl samePlace_refl _, steady_refl sameDate_refl _⟩
  | deleteNativeResource repository name actor pending =>
    obtain ⟨-, -, rfl⟩ := deleteNativeResource_ok hcall
    exact ⟨steady_deleteWhere samePlace_refl _ _, steady_delete sameDate_refl _ _⟩

theorem nativeCall_stays {call : Call} (hcall : nativeCall texts env t call = .ok t') :
    Stays t t' := by
  cases call with
  | resource call => exact resourceCall_stays hcall
  | updateNativeResource repository name actor description signingKey =>
    obtain ⟨-, h⟩ := refuse_bind_ok hcall
    obtain ⟨granted, -, h⟩ := bind_ok h
    cases h
    exact ⟨steady_refl samePlace_refl _,
      steady_updateWhere sameDate_refl fun _ _ _ _ => rfl⟩
  | setNativeResourceArchived repository name actor archived =>
    obtain ⟨granted, -, h⟩ := bind_ok hcall
    cases h
    exact ⟨steady_refl samePlace_refl _,
      steady_updateWhere sameDate_refl fun _ _ _ _ => rfl⟩
  | deleteNativeRepository repository =>
    obtain ⟨-, h⟩ := refuse_bind_ok hcall
    obtain ⟨-, h⟩ := refuse_bind_ok h
    cases h
    exact ⟨steady_deleteWhere samePlace_refl _ _, steady_deleteWhere sameDate_refl _ _⟩
  | saveNativeArtifact artifact actor published =>
    obtain ⟨-, h⟩ := refuse_bind_ok hcall
    obtain ⟨granted, -, h⟩ := bind_ok h
    obtain ⟨t₁, hsave, h⟩ := bind_ok h
    obtain ⟨hresources, hplaces⟩ := saveRow_ok hsave
    cases published with
    | true =>
      cases h
      refine ⟨hplaces, ?_⟩
      dsimp only
      rw [hresources]
      exact steady_setPublishedAt _ _ _
    | false =>
      cases h
      refine ⟨hplaces, ?_⟩
      rw [hresources]
      exact steady_refl sameDate_refl _
  | publishNativeArtifacts repository name version actor paths now =>
    obtain ⟨hmarks, -, hdates, -⟩ := publication_applied rfl hcall
    exact ⟨hmarks.steady, hdates⟩
  | approveNativeReview task now =>
    obtain ⟨hmarks, -, hdates, -⟩ := publication_applied rfl hcall
    exact ⟨hmarks.steady, hdates⟩
  | deleteNativeArtifact repository path actor =>
    have hdelete : ∀ id, Stays t { t with artifacts := t.artifacts.delete id } := fun id =>
      ⟨steady_delete samePlace_refl _ _, steady_refl sameDate_refl _⟩
    simp only [nativeCall, deleteNativeArtifact] at hcall
    split at hcall
    · cases hcall
      exact stays_refl t
    · split at hcall
      · cases hcall
        exact stays_refl t
      · split_ifs at hcall
        · cases hcall
          exact hdelete _
        · obtain ⟨granted, -, h⟩ := bind_ok hcall
          cases h
          exact hdelete _
  | deleteNativeArtifactsUnder repository pre =>
    obtain ⟨-, h⟩ := refuse_bind_ok hcall
    cases h
    exact ⟨steady_deleteWhere samePlace_refl _ _, steady_refl sameDate_refl _⟩
  | deleteNativeVersionArtifacts repository name version made =>
    obtain ⟨id, -, h⟩ := bind_ok hcall
    obtain ⟨-, h⟩ := refuse_bind_ok h
    cases h
    exact ⟨steady_foldl_delete samePlace_refl _ _, steady_refl sameDate_refl _⟩

theorem next_stays (t : Tables) (call : Accounts × Call) : Stays t (next texts t call) := by
  unfold next
  split
  · exact stays_refl t
  · rename_i hcall
    exact nativeCall_stays hcall

theorem run_samePlace {id : Text} {calls : List (Accounts × Call)}
    (h : Runs.Through (next texts) (fun t => t.artifacts.has id = true) t calls) :
    ∀ a a', t.artifacts.load id = some a →
      (calls.foldl (next texts) t).artifacts.load id = some a' → SamePlace a a' := by
  refine h.related (R := fun t t' => ∀ a a', t.artifacts.load id = some a →
    t'.artifacts.load id = some a' → SamePlace a a') ?_ ?_ ?_
  · intro t
    exact steady_refl samePlace_refl t.artifacts id
  · intro t t₁ t₂ hthere hfirst hsecond a a₂ ha ha₂
    obtain ⟨a₁, ha₁⟩ := (GoMap.has_eq_true _ _).mp hthere
    obtain ⟨hresource, hrepository, hpath⟩ := hfirst a a₁ ha ha₁
    obtain ⟨hresource', hrepository', hpath'⟩ := hsecond a₁ a₂ ha₁ ha₂
    exact ⟨hresource'.trans hresource, hrepository'.trans hrepository, hpath'.trans hpath⟩
  · intro t call _ _
    exact (next_stays t call).places id

theorem run_sameDate {id : Text} {calls : List (Accounts × Call)}
    (h : Runs.Through (next texts) (fun t => t.resources.has id = true) t calls) :
    ∀ r r', t.resources.load id = some r →
      (calls.foldl (next texts) t).resources.load id = some r' → SameDate r r' := by
  refine h.related (R := fun t t' => ∀ r r', t.resources.load id = some r →
    t'.resources.load id = some r' → SameDate r r') ?_ ?_ ?_
  · intro t
    exact steady_refl sameDate_refl t.resources id
  · intro t t₁ t₂ hthere hfirst hsecond r r₂ hr hr₂ hdate
    obtain ⟨r₁, hr₁⟩ := (GoMap.has_eq_true _ _).mp hthere
    have hsame := hfirst r r₁ hr hr₁ hdate
    rw [← hsame] at hdate ⊢
    exact hsecond r₁ r₂ hr₁ hr₂ hdate
  · intro t call _ _
    exact (next_stays t call).dates id

/-- In every run an artifact stays with its resource while its row is there, and the time of a
publication stays while the row of the resource does. A publication marks the artifacts at the
paths that it lists, all of them of its resource and version, and no other row. -/
theorem native_artifacts_stay_bound (texts : Texts) (calls : List (Accounts × Call)) :
    (∀ before during later, calls = before ++ during ++ later →
      ∀ t t', t = before.foldl (next texts) .empty → t' = during.foldl (next texts) t →
        (∀ id a a', Runs.Through (next texts) (fun t => t.artifacts.has id = true) t during →
          t.artifacts.load id = some a → t'.artifacts.load id = some a' → SamePlace a a') ∧
        ∀ id r r', Runs.Through (next texts) (fun t => t.resources.has id = true) t during →
          t.resources.load id = some r → t'.resources.load id = some r' →
            r.publishedAt ≠ 0 → r'.publishedAt = r.publishedAt) ∧
      ∀ before env call later, calls = before ++ (env, call) :: later →
        ∀ t t', t = before.foldl (next texts) .empty → nativeCall texts env t call = .ok t' →
          ∀ p, call.publication = some p → p.Applied texts t t' := by
  constructor
  · intro before during later _ t t' _ ht'
    rw [ht']
    constructor
    · intro id a a' hthrough ha ha'
      exact run_samePlace hthrough a a' ha ha'
    · intro id r r' hthrough hr hr'
      exact run_sameDate hthrough r r' hr hr'
  · intro before env call later _ t t' _ hcall p hp
    exact publication_applied hp hcall

def plainTexts : Texts where
  nativeID repository key := repository ++ '\x00' :: key
  validRepository repository := !repository.isEmpty
  validName name := !name.isEmpty
  sanitizePath path := some path
  toLower := List.map Char.toLower
  equalFold a b := decide (a.map Char.toLower = b.map Char.toLower)
  managedProtocol format := if format = ['h', 'e', 'l', 'm'] then some format else none
  likePrefix text start := start.isPrefixOf text

/-- The account `u`, which may write everywhere. -/
def oneAccount : Accounts where
  profile username := if username = ['u'] then some ['1'] else none
  token username := if username = ['u'] then some ⟨0, false, none, false, fun _ => true⟩ else none
  now := 10

def twoFiles : List (Accounts × Call) :=
  [(oneAccount, .resource (.createNativeResource ['r'] ['h', 'e', 'l', 'm'] ['n'] ['u'] 1)),
    (oneAccount, .saveNativeArtifact ⟨['r'], ['n'], ['1'], ['a'], 5, 2⟩ ['u'] false),
    (oneAccount, .saveNativeArtifact ⟨['r'], ['n'], ['1'], ['b'], 5, 3⟩ ['u'] false)]

def savedFile (t : Tables) (path : Text) : Option (Text × Text × Bool) :=
  (t.artifacts.load (plainTexts.nativeID ['r'] path)).map fun a =>
    (a.resourceID, a.version, a.published)

/-- A publication that lists one of two unpublished files of its resource and version. -/
theorem publication_leaves_unlisted :
    (nativeCall plainTexts oneAccount (twoFiles.foldl (next plainTexts) .empty)
      (.publishNativeArtifacts ['r'] ['n'] ['1'] ['u'] [['a']] 4)).toOption.map
        (fun t => (savedFile t ['a'], savedFile t ['b'])) =
      some (some (plainTexts.nativeID ['r'] ['n'], ['1'], true),
        some (plainTexts.nativeID ['r'] ['n'], ['1'], false)) := by
  decide +kernel

end RenoP.Native
