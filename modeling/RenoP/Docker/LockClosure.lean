import RenoP.Docker.LockVersions

/-!
# A version lock keeps what the version needs

What a lock covers stays closed under child manifests.
-/

namespace RenoP.Docker

open RenoP.Database (Text)

inductive LockCall where
  | putDockerManifest (manifest : DockerManifest) (tag username : Text) (allowMirrorCreate : Bool)
  | deleteDockerManifest (image : ImageKey) (digest : Text)
  | deleteDockerTag (image : ImageKey) (tag : Text)
  | setResourceLock (image : ImageKey) (version : Text) (source : LockSource) (mode : LockMode)
      (refused : Bool)
  | deleteResourceLock (image : ImageKey) (version : Text) (source : LockSource) (refused : Bool)

variable (toLower : Char → Char) (unmarshal : Text → Option DockerLockManifest)

def Tables.call (t : Tables) : LockCall → Except DockerError Tables
  | .putDockerManifest manifest tag username allowMirrorCreate =>
    putDockerManifest toLower t manifest tag username allowMirrorCreate
  | .deleteDockerManifest image digest => deleteDockerManifest toLower t image digest
  | .deleteDockerTag image tag => deleteDockerTag toLower t image tag
  | .setResourceLock image version source mode refused =>
    setResourceLock toLower unmarshal t image version source mode refused
  | .deleteResourceLock image version source refused =>
    deleteResourceLock toLower t image version source refused

def Tables.next (t : Tables) (c : LockCall) : Tables :=
  match t.call toLower unmarshal c with
  | .error _ => t
  | .ok t => t

variable {toLower : Char → Char} {unmarshal : Text → Option DockerLockManifest} {t t' : Tables}

theorem direct_refuses {image : ImageKey} {version digest : Text} {source : LockSource}
    {mode : LockMode} (hlock : t.locks.load (.docker image version, source) = some mode)
    (hcovers : version = [] ∨ version = digest.map toLower) :
    ensureResourceMutable toLower t image digest ≠ .ok () := by
  have hview : (resourceLocksQuery t).any
      (fun l => l.covers image (digest.map toLower)) = true := by
    rw [List.any_eq_true]
    refine ⟨⟨image, version, mode⟩, ?_, ?_⟩
    · apply List.mem_append_left
      apply List.mem_append_left
      rw [List.mem_filterMap]
      exact ⟨⟨(.docker image version, source), mode⟩, (GoMap.mem_entries_iff _ _ _).mpr hlock, rfl⟩
    · simpa [LockView.covers] using hcovers
  intro h
  simp only [ensureResourceMutable, hview] at h
  split_ifs at h

theorem captured_refuses {image : ImageKey} {version digest : Text} {source : LockSource}
    {mode : LockMode} (hlock : t.locks.load (.docker image version, source) = some mode)
    (hcaptured :
      t.lockVersions.load ((.docker image version, source), digest.map toLower) = some ()) :
    ensureResourceMutable toLower t image digest ≠ .ok () := by
  have hview : (resourceLocksQuery t).any
      (fun l => l.covers image (digest.map toLower)) = true := by
    rw [List.any_eq_true]
    refine ⟨⟨image, digest.map toLower, mode⟩, ?_, ?_⟩
    · apply List.mem_append_left
      apply List.mem_append_right
      rw [List.mem_filterMap]
      refine ⟨⟨((.docker image version, source), digest.map toLower), ()⟩,
        (GoMap.mem_entries_iff _ _ _).mpr hcaptured, ?_⟩
      simp only [capturedLock, hlock]
    · simp [LockView.covers]
  intro h
  simp only [ensureResourceMutable, hview] at h
  split_ifs at h

theorem VersionManifest.needs {image : ImageKey} {version a : Text}
    (h : VersionManifest unmarshal t image version a) : Needs unmarshal t image version a := by
  cases h with
  | refl => exact Or.inl rfl
  | tail hparent hchild =>
    obtain ⟨m, hm, hmem, hne⟩ := hchild
    refine Or.inr ⟨_, m, hparent, hm, ?_, hne⟩
    exact List.mem_append_left _ (List.mem_append_right _ hmem)

theorem Needs.of_unchanged {image : ImageKey} {version : Text}
    (hsame : ∀ a m, Needs unmarshal t image version a →
      t'.lockManifest unmarshal image a = some m → t.lockManifest unmarshal image a = some m)
    {d : Text} (h : Needs unmarshal t' image version d) : Needs unmarshal t image version d := by
  have hreach : ∀ a, VersionManifest unmarshal t' image version a →
      VersionManifest unmarshal t image version a := by
    intro a ha
    induction ha with
    | refl => exact Relation.ReflTransGen.refl
    | tail _ hchild ih =>
      obtain ⟨m, hm, hmem, hne⟩ := hchild
      exact ih.tail ⟨m, hsame _ m ih.needs hm, hmem, hne⟩
  rcases h with rfl | ⟨a, m, ha, hm, href, hne⟩
  · exact Or.inl rfl
  · exact Or.inr ⟨a, m, hreach a ha, hsame a m (hreach a ha).needs hm, href, hne⟩

def Tables.Locks (t : Tables) (image : ImageKey) (version : Text) (source : LockSource)
    (d : Text) : Prop :=
  d = version ∨ t.lockVersions.load ((.docker image version, source), d) = some ()

def LocksCover (toLower : Char → Char) (unmarshal : Text → Option DockerLockManifest)
    (t : Tables) : Prop :=
  ∀ image version source mode, t.locks.load (.docker image version, source) = some mode →
    version ≠ [] → ∀ d, Needs unmarshal t image version d →
      d.map toLower = d ∧ t.Locks image version source d

theorem LocksCover.refuses (h : LocksCover toLower unmarshal t) {image : ImageKey}
    {version : Text} {source : LockSource} {mode : LockMode}
    (hlock : t.locks.load (.docker image version, source) = some mode) {d : Text}
    (hd : Needs unmarshal t image version d) :
    ensureResourceMutable toLower t image d ≠ .ok () := by
  by_cases hversion : version = []
  · exact direct_refuses hlock (Or.inl hversion)
  · obtain ⟨hfold, hcovers⟩ := h image version source mode hlock hversion d hd
    rcases hcovers with hd | hcaptured
    · apply direct_refuses hlock
      rw [hfold, hd]
      exact Or.inr rfl
    · apply captured_refuses hlock
      rw [hfold]
      exact hcaptured

theorem LocksCover.of_mutable (h : LocksCover toLower unmarshal t)
    (hlocks : t'.locks = t.locks) (hversions : t'.lockVersions = t.lockVersions)
    (hsame : ∀ image a m, ensureResourceMutable toLower t image a ≠ .ok () →
      t'.lockManifest unmarshal image a = some m → t.lockManifest unmarshal image a = some m) :
    LocksCover toLower unmarshal t' := by
  intro image version source mode hlock hversion d hd
  rw [hlocks] at hlock
  have hneeds : Needs unmarshal t image version d :=
    hd.of_unchanged fun a m ha hm => hsame image a m (h.refuses hlock ha) hm
  obtain ⟨hfold, hcovers⟩ := h image version source mode hlock hversion d hneeds
  refine ⟨hfold, ?_⟩
  unfold Tables.Locks
  rw [hversions]
  exact hcovers

theorem upsertTag_manifests (t : Tables) (w : DockerManifestWrite) :
    (upsertTag t w).manifests = t.manifests ∧ (upsertTag t w).locks = t.locks ∧
      (upsertTag t w).lockVersions = t.lockVersions := by
  unfold upsertTag
  split_ifs <;> exact ⟨rfl, rfl, rfl⟩

theorem cover_put (h : LocksCover toLower unmarshal t) {w : DockerManifestWrite}
    (hput : putDockerManifestTx toLower t w = .ok t') : LocksCover toLower unmarshal t' := by
  obtain ⟨row, hmutable, rfl⟩ := putDockerManifestTx_cases hput
  obtain ⟨hmanifests, hlocks, hversions⟩ :=
    upsertTag_manifests (upsertManifest { t with images := t.images.store w.image row } w) w
  have himages : LocksCover toLower unmarshal { t with images := t.images.store w.image row } := h
  apply himages.of_mutable hlocks hversions
  intro image a m hrefused hm
  have hm' : ((t.manifests.store (w.image, w.digest)
      ⟨w.mediaType, w.size, w.configDigest, w.username, w.rawJSON⟩).load (image, a)).bind
        (fun row => unmarshal row.rawJSON) = some m := by
    rw [← hm]
    show _ = ((upsertTag (upsertManifest { t with images := t.images.store w.image row } w)
      w).manifests.load (image, a)).bind _
    rw [hmanifests]
    rfl
  rw [GoMap.load_store] at hm'
  split_ifs at hm' with hkey
  · obtain ⟨himage, hdigest⟩ := Prod.mk.inj hkey
    rw [himage, hdigest] at hrefused
    exact absurd hmutable hrefused
  · exact hm'

theorem cover_deleteManifest (h : LocksCover toLower unmarshal t) {image : ImageKey}
    {digest : Text} (hdelete : deleteDockerManifest toLower t image digest = .ok t') :
    LocksCover toLower unmarshal t' := by
  obtain ⟨-, rfl⟩ := deleteDockerManifest_cases hdelete
  refine h.of_mutable rfl rfl ?_
  intro image' a m _ hm
  unfold Tables.lockManifest at hm ⊢
  rw [GoMap.load_delete] at hm
  split_ifs at hm
  · cases hm
  · exact hm

theorem setDockerLockVersionsTx_cases {image : ImageKey} {version : Text} {source : LockSource}
    (h : setDockerLockVersionsTx toLower unmarshal t image version source = .ok t') :
    t'.manifests = t.manifests ∧ t'.locks = t.locks ∧
      (∀ lock d, lock ≠ (.docker image version, source) →
        t'.lockVersions.load (lock, d) = t.lockVersions.load (lock, d)) ∧
      (version ≠ [] → ∃ seen, lockVersionSet toLower unmarshal t image version = .ok seen ∧
        ∀ d ∈ seen, t'.Locks image version source d) := by
  simp only [setDockerLockVersionsTx] at h
  cases hrow : lockDockerImageRow t image with
  | error err =>
    rw [hrow] at h
    cases h
  | ok u =>
    simp only [hrow] at h
    have hcleared : ∀ lock d, lock ≠ (LockTarget.docker image version, source) →
        (t.lockVersions.deleteWhere fun k _ => decide (k.1 = (.docker image version, source))).load
          (lock, d) = t.lockVersions.load (lock, d) := by
      intro lock d hne
      apply GoMap.load_deleteWhere_of_false
      intro _
      exact decide_eq_false hne
    split_ifs at h with hversion
    · cases h
      exact ⟨rfl, rfl, hcleared, fun hne => absurd hversion hne⟩
    · cases hset : lockVersionSet toLower unmarshal t image version with
      | error err =>
        rw [hset] at h
        cases h
      | ok seen =>
        simp only [hset] at h
        cases h
        refine ⟨rfl, rfl, ?_, fun _ => ⟨seen, rfl, ?_⟩⟩
        · intro lock d hne
          rcases GoMap.load_storeAll (t.lockVersions.deleteWhere
              fun k _ => decide (k.1 = (.docker image version, source)))
            ((seen.filter fun d => d ≠ version).map
              fun d => (((LockTarget.docker image version, source), d), ())) (lock, d) with
            ⟨v, hmem, -⟩ | ⟨-, hload⟩
          · obtain ⟨d', -, heq⟩ := List.mem_map.mp hmem
            exact absurd (congrArg (·.1.1) heq).symm hne
          · exact hload.trans (hcleared lock d hne)
        · intro d hd
          by_cases hd' : d = version
          · exact Or.inl hd'
          · apply Or.inr
            rcases GoMap.load_storeAll (t.lockVersions.deleteWhere
                fun k _ => decide (k.1 = (.docker image version, source)))
              ((seen.filter fun d => d ≠ version).map
                fun d => (((LockTarget.docker image version, source), d), ()))
              ((.docker image version, source), d) with ⟨v, -, hload⟩ | ⟨hno, -⟩
            · exact hload
            · refine absurd (List.mem_map.mpr ⟨d, ?_, rfl⟩) (hno ())
              exact List.mem_filter.mpr ⟨hd, decide_eq_true hd'⟩

theorem cover_setLock (hidem : ∀ c, toLower (toLower c) = toLower c)
    (h : LocksCover toLower unmarshal t) {image : ImageKey} {version : Text} {source : LockSource}
    {mode : LockMode} {refused : Bool}
    (hset : setResourceLock toLower unmarshal t image version source mode refused = .ok t') :
    LocksCover toLower unmarshal t' := by
  simp only [setResourceLock] at hset
  split_ifs at hset
  cases htx : setDockerLockVersionsTx toLower unmarshal t image (version.map toLower) source with
  | error err =>
    rw [htx] at hset
    cases hset
  | ok t₁ =>
    simp only [htx] at hset
    cases hset
    obtain ⟨hmanifests, hlocks, hothers, hseen⟩ := setDockerLockVersionsTx_cases htx
    have hneeds : ∀ locks image' version' d,
        Needs unmarshal { t₁ with locks := locks } image' version' d →
          Needs unmarshal t image' version' d := by
      intro locks image' version' d hd
      apply hd.of_unchanged
      intro a m _ hm
      rw [← hm]
      unfold Tables.lockManifest
      rw [hmanifests]
    intro image' version' source' mode' hlock hversion d hd
    replace hd := hneeds _ image' version' d hd
    by_cases hsame : (LockTarget.docker image' version', source') =
        (.docker image (version.map toLower), source)
    · obtain ⟨htarget, rfl⟩ := Prod.mk.inj hsame
      obtain ⟨rfl, rfl⟩ := LockTarget.docker.inj htarget
      obtain ⟨seen, hset, hall⟩ := hseen hversion
      have hsearch := lockSearch_of_lockVersionSet toLower unmarshal hset
      have hmem := lockSearch_needs hsearch hd
      refine ⟨?_, hall d hmem⟩
      rcases lockSearch_folded hsearch hmem with rfl | hfold
      · rw [List.map_map]
        apply List.map_congr_left
        intro c _
        exact hidem c
      · exact hfold
    · rw [GoMap.load_store, if_neg hsame, hlocks] at hlock
      obtain ⟨hfold, hcovers⟩ := h image' version' source' mode' hlock hversion d hd
      refine ⟨hfold, ?_⟩
      rcases hcovers with hd' | hcaptured
      · exact Or.inl hd'
      · exact Or.inr ((hothers _ d hsame).trans hcaptured)

theorem cover_deleteLock (h : LocksCover toLower unmarshal t) {image : ImageKey} {version : Text}
    {source : LockSource} {refused : Bool}
    (hdelete : deleteResourceLock toLower t image version source refused = .ok t') :
    LocksCover toLower unmarshal t' := by
  simp only [deleteResourceLock] at hdelete
  split_ifs at hdelete
  cases hdelete
  intro image' version' source' mode' hlock hversion d hd
  rw [GoMap.load_delete] at hlock
  split_ifs at hlock with hsame
  obtain ⟨hfold, hcovers⟩ := h image' version' source' mode' hlock hversion d hd
  refine ⟨hfold, ?_⟩
  rcases hcovers with hd' | hcaptured
  · exact Or.inl hd'
  · refine Or.inr ?_
    rw [GoMap.load_deleteWhere, hcaptured, Option.filter_eq_some_iff]
    exact ⟨rfl, by simp only [hsame, decide_false, Bool.not_false]⟩

theorem next_cover (hidem : ∀ c, toLower (toLower c) = toLower c)
    (h : LocksCover toLower unmarshal t) (c : LockCall) :
    LocksCover toLower unmarshal (t.next toLower unmarshal c) := by
  unfold Tables.next
  cases hcall : t.call toLower unmarshal c with
  | error err => exact h
  | ok t' =>
    cases c with
    | putDockerManifest manifest tag username allowMirrorCreate =>
      obtain ⟨w, -, htx⟩ := putDockerManifest_cases hcall
      exact cover_put h htx
    | deleteDockerManifest image digest => exact cover_deleteManifest h hcall
    | deleteDockerTag image tag =>
      have ht' := deleteDockerTag_cases hcall
      rw [ht']
      exact h
    | setResourceLock image version source mode refused => exact cover_setLock hidem h hcall
    | deleteResourceLock image version source refused => exact cover_deleteLock h hcall

theorem run_cover (hidem : ∀ c, toLower (toLower c) = toLower c) (cs : List LockCall) :
    ∀ {t : Tables}, LocksCover toLower unmarshal t →
      LocksCover toLower unmarshal (cs.foldl (Tables.next toLower unmarshal) t) := by
  induction cs with
  | nil =>
    intro t h
    exact h
  | cons c cs ih =>
    intro t h
    exact ih (next_cover hidem h c)

/-- From tables without Docker locks, in every state that calls lead to: what the manifests of a
locked version refer to is refused, and the search for a new lock ends. -/
theorem version_lock_covers (hidem : ∀ c, toLower (toLower c) = toLower c) (cs : List LockCall)
    (hfree : ∀ image version source, t.locks.load (.docker image version, source) = none) :
    (∀ image version source mode d,
      (cs.foldl (Tables.next toLower unmarshal) t).locks.load (.docker image version, source) =
        some mode →
      Needs unmarshal (cs.foldl (Tables.next toLower unmarshal) t) image version d →
        ensureResourceMutable toLower (cs.foldl (Tables.next toLower unmarshal) t) image d ≠
          .ok ()) ∧
      ∀ image version, ∃ result,
        lockSearch toLower unmarshal (cs.foldl (Tables.next toLower unmarshal) t) image
          (maxReferences + 1) (.start version) = some result := by
  have hstart : LocksCover toLower unmarshal t := by
    intro image version source mode hlock
    rw [hfree image version source] at hlock
    cases hlock
  refine ⟨?_, fun image version => lockSearch_start_ends _ image version⟩
  intro image version source mode d hlock hd
  exact (run_cover hidem cs hstart).refuses hlock hd

def lockedImage : ImageKey := ⟨['r'], ['a']⟩

def repeatedDigest (c : Char) : Text := digestPrefix ++ List.replicate 64 c

def versionDigest : Text := repeatedDigest '1'
def nestedDigest : Text := repeatedDigest '2'
def contentDigest : Text := repeatedDigest '3'

def oneDescriptorJSON (key digest : Text) : Text :=
  ['\x7b', '"'] ++ key ++ ['"', ':', '[', '\x7b', '"', 'd', 'i', 'g', 'e', 's', 't', '"', ':', '"'] ++
    digest ++ ['"', '\x7d', ']', '\x7d']

def layersKey : Text := ['l', 'a', 'y', 'e', 'r', 's']
def manifestsKey : Text := ['m', 'a', 'n', 'i', 'f', 'e', 's', 't', 's']

def unmarshalOne (raw : Text) : Option DockerLockManifest :=
  [nestedDigest, contentDigest].findSome? fun d =>
    if raw = oneDescriptorJSON layersKey d then some ⟨[], [d], []⟩
    else if raw = oneDescriptorJSON manifestsKey d then some ⟨[], [], [d]⟩
    else none

def emptyTables : Tables := ⟨∅, ∅, ∅, ∅, ∅, ∅, ∅⟩

def mirrorOne (digest key descriptor : Text) : LockCall :=
  .putDockerManifest ⟨lockedImage, digest, ['j'], 0, [], [descriptor],
    oneDescriptorJSON key descriptor⟩ [] ['m', 'i', 'r', 'r', 'o', 'r'] true

/-- `b` is a descriptor of the stored manifest `a`. -/
def Descriptor (unmarshal : Text → Option DockerLockManifest) (t : Tables) (image : ImageKey)
    (a b : Text) : Prop :=
  ∃ m, t.lockManifest unmarshal image a = some m ∧ b ∈ m.refs ∧ b ≠ []

theorem nested_layer_is_free :
    ¬ ∀ (t : Tables) (cs : List LockCall),
      (∀ image version source, t.locks.load (.docker image version, source) = none) →
      ∀ image version source mode d,
        (cs.foldl (Tables.next Char.toLower unmarshalOne) t).locks.load
          (.docker image version, source) = some mode →
        Relation.ReflTransGen (Descriptor unmarshalOne
          (cs.foldl (Tables.next Char.toLower unmarshalOne) t) image) version d →
        ensureResourceMutable Char.toLower
          (cs.foldl (Tables.next Char.toLower unmarshalOne) t) image d ≠ .ok () := by
  intro h
  apply h emptyTables [mirrorOne versionDigest layersKey nestedDigest,
      mirrorOne nestedDigest layersKey contentDigest,
      .setResourceLock lockedImage versionDigest .manual .write false]
    (fun _ _ _ => rfl) lockedImage versionDigest .manual .write contentDigest
  · decide +kernel
  · refine (Relation.ReflTransGen.single ?_).tail ?_ (b := nestedDigest)
    · exact ⟨⟨[], [nestedDigest], []⟩, by decide +kernel, by decide +kernel, by decide +kernel⟩
    · exact ⟨⟨[], [contentDigest], []⟩, by decide +kernel, by decide +kernel, by decide +kernel⟩
  · decide +kernel

theorem toLower_toLower (c : Char) : c.toLower.toLower = c.toLower := by
  unfold Char.toLower
  split_ifs
  · grind
  · rfl
  · rfl

theorem child_layer_is_locked :
    ensureResourceMutable Char.toLower (([mirrorOne versionDigest manifestsKey nestedDigest,
      mirrorOne nestedDigest layersKey contentDigest,
      .setResourceLock lockedImage versionDigest .manual .write false,
      .deleteDockerManifest lockedImage nestedDigest] : List LockCall).foldl
        (Tables.next Char.toLower unmarshalOne) emptyTables) lockedImage contentDigest ≠ .ok () := by
  apply (@version_lock_covers Char.toLower unmarshalOne emptyTables toLower_toLower _
    fun _ _ _ => rfl).1 lockedImage versionDigest .manual .write contentDigest
  · decide +kernel
  · refine Or.inr ⟨nestedDigest, ⟨[], [contentDigest], []⟩, ?_, ?_, ?_, ?_⟩
    · apply Relation.ReflTransGen.single
      exact ⟨⟨[], [], [nestedDigest]⟩, by decide +kernel, by decide +kernel, by decide +kernel⟩
    · decide +kernel
    · decide +kernel
    · decide +kernel

end RenoP.Docker
