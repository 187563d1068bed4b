import RenoP.Docker.Registry
import Mathlib.Data.List.Dedup

/-!
# Which blobs an image references

An upload and a mount link a blob that the image has obtained.
-/

namespace RenoP.Docker

open RenoP.Database (Text)

variable {toLower : Char → Char} {sum256 : List UInt8 → Fin 32 → UInt8}

theorem references_iff {t : Tables} {image : ImageKey} {digest : Text} :
    dockerImageReferencesBlob toLower t image digest = true ↔
      ∃ m, t.imageBlobs.load ⟨image, m, rowDigest toLower digest⟩ = some () := by
  unfold dockerImageReferencesBlob
  rw [List.any_eq_true]
  constructor
  · rintro ⟨⟨link, u⟩, hmem, hb⟩
    rw [Bool.and_eq_true, decide_eq_true_eq, decide_eq_true_eq] at hb
    refine ⟨link.manifestDigest, ?_⟩
    rw [← hb.1, ← hb.2]
    exact (GoMap.mem_entries_iff t.imageBlobs link ()).mp hmem
  · rintro ⟨m, hload⟩
    refine ⟨⟨_, ()⟩, (GoMap.mem_entries_iff t.imageBlobs _ ()).mpr hload, ?_⟩
    simp only [decide_true, Bool.and_self]

theorem load_linkBlob (image : ImageKey) (manifest blob : Text) (links : GoMap BlobLink Unit)
    (link : BlobLink) :
    (linkBlob image manifest links blob).load link =
      if link = ⟨image, manifest, blob⟩ then some ()
      else if link = ⟨image, [], blob⟩ then none else links.load link := by
  unfold linkBlob
  rw [GoMap.load_store, GoMap.load_delete]

theorem load_linkBlobs (image : ImageKey) (manifest : Text) (blobs : List Text) (link : BlobLink) :
    ∀ links : GoMap BlobLink Unit,
      (blobs.foldl (linkBlob image manifest) links).load link =
        if link.image = image ∧ link.manifestDigest = manifest ∧ link.blobDigest ∈ blobs then
          some ()
        else if link.image = image ∧ link.manifestDigest = [] ∧ link.blobDigest ∈ blobs then none
        else links.load link := by
  induction blobs with
  | nil =>
    intro links
    simp only [List.foldl_nil, List.not_mem_nil, and_false, if_false]
  | cons b bs ih =>
    intro links
    rw [List.foldl_cons, ih, load_linkBlob]
    obtain ⟨i, m, d⟩ := link
    simp only [BlobLink.mk.injEq, List.mem_cons]
    grind

theorem load_linkManifestBlobs (t : Tables) (w : DockerManifestWrite) (link : BlobLink) :
    (linkManifestBlobs toLower t w).imageBlobs.load link =
      if link.image = w.image ∧ link.manifestDigest = w.digest ∧
        link.blobDigest ∈ manifestBlobs toLower w then some ()
      else if link.image = w.image ∧ link.manifestDigest = [] ∧
        link.blobDigest ∈ manifestBlobs toLower w then none
      else if link.image = w.image ∧ link.manifestDigest = w.digest then none
      else t.imageBlobs.load link := by
  simp only [linkManifestBlobs, load_linkBlobs, GoMap.load_deleteWhere, List.mem_dedup]
  by_cases hold : link.image = w.image ∧ link.manifestDigest = w.digest
  · simp [hold]
  · simp only [hold, if_false]
    cases t.imageBlobs.load link with
    | none => simp
    | some u =>
      have hkeep : (decide (link.image = w.image) && decide (link.manifestDigest = w.digest)) =
          false := by
        simpa using hold
      simp only [hkeep, Bool.not_false, Option.filter_some, if_true]

theorem mem_manifestBlobs {w : DockerManifestWrite} {d : Text} :
    d ∈ manifestBlobs toLower w ↔ d ≠ [] ∧ ∃ b ∈ w.blobDigests, rowDigest toLower b = d := by
  simp only [manifestBlobs, List.mem_filter, List.mem_map, decide_eq_true_eq]
  exact and_comm

/-- What the request uploads to an image, or mounts into it from an image that references the
blob and that the user can read. -/
def Registry.obtains (toLower : Char → Char) (sum256 : List UInt8 → Fin 32 → UInt8)
    (reg : Registry) : Request → List (ImageKey × Text)
  | .upload user image digest body =>
    if reg.commits sum256 user image digest body then [(image, rowDigest toLower digest)] else []
  | .mount user image digest source =>
    if reg.mountable toLower user image digest source ∧ reg.access.canRead user source = true ∧
        dockerImageReferencesBlob toLower reg.tables source digest = true then
      [(image, rowDigest toLower digest)]
    else []
  | _ => []

structure History where
  registry : Registry
  obtained : List (ImageKey × Text)

def History.next (toLower : Char → Char) (sum256 : List UInt8 → Fin 32 → UInt8) (h : History)
    (r : Request) : History where
  registry := h.registry.next toLower sum256 r
  obtained := h.registry.obtains toLower sum256 r ++ h.obtained

def History.Legitimate (toLower : Char → Char) (h : History) : Prop :=
  ∀ image digest, dockerImageReferencesBlob toLower h.registry.tables image digest = true →
    (image, rowDigest toLower digest) ∈ h.obtained

def History.ListsObtained (toLower : Char → Char) (h : History) : Request → Prop
  | .putManifest user image parsed tag refused =>
    ∀ tables, h.registry.putManifest toLower user image parsed tag refused = some tables →
      ∀ d ∈ referencedBlobDigests parsed, rowDigest toLower d ≠ [] →
        (image, rowDigest toLower d) ∈ h.obtained
  | _ => True

variable {h : History}

theorem legitimate_of_links {links : GoMap BlobLink Unit} {reg : Registry}
    {gained : List (ImageKey × Text)} (hl : h.Legitimate toLower)
    (hlinks : reg.tables.imageBlobs = links)
    (hnew : ∀ image m d, links.load ⟨image, m, rowDigest toLower d⟩ = some () →
      h.registry.tables.imageBlobs.load ⟨image, m, rowDigest toLower d⟩ = some () ∨
        (image, rowDigest toLower d) ∈ gained) :
    (History.mk reg (gained ++ h.obtained)).Legitimate toLower := by
  intro image d href
  obtain ⟨m, hload⟩ := references_iff.mp href
  rw [hlinks] at hload
  rw [List.mem_append]
  rcases hnew image m d hload with hold | hgain
  · exact Or.inr (hl image d (references_iff.mpr ⟨m, hold⟩))
  · exact Or.inl hgain

theorem load_recorded {links : GoMap BlobLink Unit} {image i : ImageKey} {digest d m : Text}
    (hload : (links.store ⟨image, [], rowDigest toLower digest⟩ ()).load
      ⟨i, m, rowDigest toLower d⟩ = some ()) :
    links.load ⟨i, m, rowDigest toLower d⟩ = some () ∨
      (i, rowDigest toLower d) ∈ [(image, rowDigest toLower digest)] := by
  rw [GoMap.load_store] at hload
  split_ifs at hload with heq
  · obtain ⟨himage, _, hblob⟩ := BlobLink.mk.inj heq
    rw [himage, hblob]
    exact Or.inr (List.mem_singleton.mpr rfl)
  · exact Or.inl hload

theorem legitimate_record {t : Tables} {image : ImageKey} {digest : Text}
    (hl : h.Legitimate toLower) (ht : t.imageBlobs = h.registry.tables.imageBlobs)
    {files : GoMap (Text × Text) ℤ} :
    (History.mk (match recordDockerImageBlob toLower t image digest with
        | .error _ => { h.registry with files := files, tables := t }
        | .ok tables => { h.registry with files := files, tables := tables })
      ([(image, rowDigest toLower digest)] ++ h.obtained)).Legitimate toLower := by
  cases hrec : recordDockerImageBlob toLower t image digest with
  | error err =>
    apply legitimate_of_links hl ht
    intro i m d hload
    exact Or.inl hload
  | ok tables =>
    have hlinks := congrArg Tables.imageBlobs (recordDockerImageBlob_cases hrec)
    rw [ht] at hlinks
    apply legitimate_of_links hl hlinks
    intro i m d hload
    exact load_recorded hload

theorem legitimate_of_fewer {reg : Registry} (hl : h.Legitimate toLower)
    (hlinks : ∀ link, reg.tables.imageBlobs.load link = some () →
      h.registry.tables.imageBlobs.load link = some ()) :
    (History.mk reg h.obtained).Legitimate toLower := by
  apply @legitimate_of_links _ _ _ _ [] hl rfl
  intro i m d hload
  exact Or.inl (hlinks _ hload)

theorem load_of_deleteWhere {links : GoMap BlobLink Unit} {q : BlobLink → Unit → Bool}
    {link : BlobLink} (hload : (links.deleteWhere q).load link = some ()) :
    links.load link = some () := by
  rw [GoMap.load_deleteWhere, Option.filter_eq_some_iff] at hload
  exact hload.1

theorem legitimate_put_iff (hl : h.Legitimate toLower) {user : Text} {image : ImageKey}
    {parsed : ParsedManifest} {tag : Text} {refused : Bool} {tables : Tables}
    (hput : h.registry.putManifest toLower user image parsed tag refused = some tables) :
    (History.mk { h.registry with tables := tables } h.obtained).Legitimate toLower ↔
      ∀ d ∈ referencedBlobDigests parsed, rowDigest toLower d ≠ [] →
        (image, rowDigest toLower d) ∈ h.obtained := by
  unfold Registry.putManifest at hput
  split_ifs at hput
  split at hput
  · cases hput
  · cases hdb : putDockerManifest toLower h.registry.tables (parsed.record image) tag user false with
    | error err =>
      rw [hdb] at hput
      cases hput
    | ok t' =>
      rw [hdb] at hput
      cases hput
      obtain ⟨w, hw, htx⟩ := putDockerManifest_cases hdb
      obtain ⟨himage, -, hdigest, hblobs, -⟩ := normalize_fields hw
      obtain ⟨row, -, rfl⟩ := putDockerManifestTx_cases htx
      have hload : ∀ link, (linkManifestBlobs toLower (upsertTag (upsertManifest
          { h.registry.tables with images := h.registry.tables.images.store w.image row } w) w)
          w).imageBlobs.load link =
            if link.image = w.image ∧ link.manifestDigest = w.digest ∧
              link.blobDigest ∈ manifestBlobs toLower w then some ()
            else if link.image = w.image ∧ link.manifestDigest = [] ∧
              link.blobDigest ∈ manifestBlobs toLower w then none
            else if link.image = w.image ∧ link.manifestDigest = w.digest then none
            else h.registry.tables.imageBlobs.load link := by
        intro link
        rw [load_linkManifestBlobs, upsertTag_imageBlobs]
        rfl
      have himage' : w.image = image := himage
      have hlist : ∀ d, d ∈ manifestBlobs toLower w ↔
          d ≠ [] ∧ ∃ b ∈ referencedBlobDigests parsed, rowDigest toLower b = d := by
        intro d
        rw [mem_manifestBlobs, hblobs]
        rfl
      constructor
      · intro hnew d hd hne
        apply hnew image d
        rw [references_iff]
        refine ⟨w.digest, ?_⟩
        have hmem : rowDigest toLower d ∈ manifestBlobs toLower w :=
          (hlist _).mpr ⟨hne, d, hd, rfl⟩
        exact (hload _).trans (if_pos ⟨himage'.symm, rfl, hmem⟩)
      · intro hobtained i d href
        obtain ⟨m, hd⟩ := references_iff.mp href
        rw [hload] at hd
        split_ifs at hd with hnew
        · obtain ⟨hne, b, hb, hbd⟩ := (hlist _).mp hnew.2.2
          have hi : i = image := hnew.1.trans himage'
          have hbd' : rowDigest toLower b = rowDigest toLower d := hbd
          rw [hi, ← hbd']
          apply hobtained b hb
          rw [hbd']
          exact hne
        · exact hl i d (references_iff.mpr ⟨m, hd⟩)

theorem next_legitimate_iff (r : Request) (hl : h.Legitimate toLower) :
    (h.next toLower sum256 r).Legitimate toLower ↔ h.ListsObtained toLower r := by
  cases r with
  | environment access images locks lockVersions =>
    exact iff_of_true (legitimate_of_fewer hl fun _ hload => hload) trivial
  | upload user image digest body =>
    refine iff_of_true ?_ trivial
    simp only [History.next, Registry.next, Registry.obtains, handleUpload]
    cases hc : h.registry.commits sum256 user image digest body with
    | false =>
      simp only [Bool.not_false, if_true, Bool.false_eq_true, if_false]
      exact legitimate_of_fewer hl fun _ hload => hload
    | true =>
      simp only [Bool.not_true, Bool.false_eq_true, if_false, if_true]
      exact legitimate_record hl (recordDockerBlob_imageBlobs _ _ _ _)
  | mount user image digest source =>
    refine iff_of_true ?_ trivial
    simp only [History.next, Registry.next, Registry.obtains, handleMount]
    cases hm : h.registry.mountable toLower user image digest source with
    | false =>
      simp only [Bool.not_false, if_true, Bool.false_eq_true, false_and, if_false]
      exact legitimate_of_fewer hl fun _ hload => hload
    | true =>
      have hchecks : h.registry.access.canRead user source = true ∧
          dockerImageReferencesBlob toLower h.registry.tables source digest = true := by
        simp only [Registry.mountable, Bool.and_eq_true] at hm
        exact ⟨hm.1.1.1.2, hm.1.2⟩
      simp only [Bool.not_true, Bool.false_eq_true, if_false, true_and, if_pos hchecks]
      exact legitimate_record hl (recordDockerBlob_imageBlobs _ _ _ _)
  | putManifest user image parsed tag refused =>
    simp only [History.next, Registry.next, Registry.obtains, handlePutManifest,
      History.ListsObtained]
    cases hput : h.registry.putManifest toLower user image parsed tag refused with
    | none =>
      refine iff_of_true (legitimate_of_fewer hl fun _ hload => hload) ?_
      intro tables htables
      cases htables
    | some tables =>
      have hiff := legitimate_put_iff hl hput
      constructor
      · intro hnext tables' htables
        cases htables
        exact hiff.mp hnext
      · intro hok
        exact hiff.mpr (hok tables rfl)
  | deleteManifest user image reference =>
    refine iff_of_true ?_ trivial
    apply legitimate_of_fewer hl
    intro link hload
    simp only [Registry.next, handleDeleteManifest] at hload
    split_ifs at hload with hwrite hdigest
    · exact hload
    · cases hd : deleteDockerManifest toLower h.registry.tables image reference with
      | error err =>
        rw [hd] at hload
        exact hload
      | ok tables =>
        rw [hd] at hload
        obtain ⟨-, rfl⟩ := deleteDockerManifest_cases hd
        exact load_of_deleteWhere hload
    · cases hd : deleteDockerTag toLower h.registry.tables image reference with
      | error err =>
        rw [hd] at hload
        exact hload
      | ok tables =>
        rw [hd] at hload
        rw [deleteDockerTag_cases hd] at hload
        exact hload
  | deleteBlob user image digest storeFails =>
    refine iff_of_true ?_ trivial
    apply legitimate_of_fewer hl
    intro link hload
    simp only [Registry.next, handleDeleteBlob] at hload
    cases hw : h.registry.access.canWrite user image with
    | false =>
      simp only [hw, Bool.not_false, if_true] at hload
      exact hload
    | true =>
      simp only [hw, Bool.not_true, Bool.false_eq_true, if_false] at hload
      cases hd : deleteDockerBlob toLower h.registry.tables image.repository digest with
      | error err =>
        rw [hd] at hload
        exact hload
      | ok tables =>
        have ht := deleteDockerBlob_cases hd
        rw [hd] at hload
        subst ht
        cases storeFails with
        | false => exact load_of_deleteWhere hload
        | true => exact load_of_deleteWhere hload

def History.start (registry : Registry) : History := ⟨registry, []⟩

/-- Every reference of every state is legitimate exactly when the manifests that are put list
nothing else. -/
theorem references_legitimate_iff {registry : Registry} (rs : List Request)
    (hempty : registry.tables.imageBlobs = ∅) :
    Runs.Through (History.next toLower sum256) (History.Legitimate toLower)
        (History.start registry) rs ↔
      Runs.Along (History.next toLower sum256) (History.ListsObtained toLower)
        (History.start registry) rs := by
  apply Runs.through_iff_along
  · intro h r hl
    exact next_legitimate_iff r hl
  · intro image d href
    obtain ⟨m, hload⟩ := references_iff.mp href
    rw [show (History.start registry).registry.tables.imageBlobs = ∅ from hempty] at hload
    cases hload

def privateImage : ImageKey := ⟨['r'], ['a']⟩
def publicImage : ImageKey := ⟨['r'], ['b']⟩

/-- The user `o` writes the private image, the user `u` the other one. -/
def twoImages : Registry where
  tables := {
    images := (∅ : GoMap ImageKey ImageRow).store privateImage ⟨['o'], [], true⟩
      |>.store publicImage ⟨['u'], [], true⟩
    manifests := ∅
    tags := ∅
    blobs := ∅
    imageBlobs := ∅
    locks := ∅
    lockVersions := ∅ }
  files := ∅
  access := {
    canRead := fun user image => image = publicImage || user = ['o']
    canWrite := fun user image => (user = ['o'] && image = privateImage) ||
      (user = ['u'] && image = publicImage) }

def zeroSum : List UInt8 → Fin 32 → UInt8 := fun _ _ => 0

def layerDigest : Text := calculateDigest zeroSum []

def borrowing (layers : List Text) : ParsedManifest where
  digest := ['m']
  mediaType := ['t']
  size := 2
  configDigest := []
  layers := layers
  isIndex := false
  rawJSON := ['{', '}']

def borrowLayer : List Request :=
  [.upload ['o'] privateImage layerDigest [],
    .putManifest ['u'] publicImage (borrowing [layerDigest]) ['l'] false]

theorem borrowed_layer_is_referenced :
    ¬ ∀ (registry : Registry) (rs : List Request), registry.tables.imageBlobs = ∅ →
      Runs.Through (History.next Char.toLower zeroSum) (History.Legitimate Char.toLower)
        (History.start registry) rs := by
  intro h
  have hlast := (h twoImages borrowLayer rfl).2.2
  have href : dockerImageReferencesBlob Char.toLower (borrowLayer.foldl
      (History.next Char.toLower zeroSum) (History.start twoImages)).registry.tables publicImage
        layerDigest = true := by
    decide +kernel
  have hnot : (publicImage, rowDigest Char.toLower layerDigest) ∉ (borrowLayer.foldl
      (History.next Char.toLower zeroSum) (History.start twoImages)).obtained := by
    decide +kernel
  exact hnot (hlast publicImage layerDigest href)

theorem references_legitimate_own :
    Runs.Through (History.next Char.toLower zeroSum) (History.Legitimate Char.toLower)
        (History.start twoImages) [.upload ['u'] publicImage layerDigest [],
          .putManifest ['u'] publicImage (borrowing [layerDigest]) ['l'] false] := by
  apply (references_legitimate_iff _ rfl).mpr
  refine ⟨trivial, ?_, trivial⟩
  intro tables _ d hd _
  have hone : referencedBlobDigests (borrowing [layerDigest]) = [layerDigest] := by
    decide +kernel
  rw [hone, List.mem_singleton] at hd
  rw [hd]
  decide +kernel

end RenoP.Docker
