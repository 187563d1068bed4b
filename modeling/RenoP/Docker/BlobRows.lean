import RenoP.Docker.Registry
import Mathlib.Data.List.GetD

/-!
# Recorded blobs are stored

`docker_blobs` and the blob files of a repository.
-/

namespace RenoP.Docker

open RenoP.Database (Text isSpace trimSpace sanitizeControlBytes truncateUTF8)

variable {toLower : Char → Char} {sum256 : List UInt8 → Fin 32 → UInt8} {reg : Registry}

/-- A character of one byte that `toLower`, trimming and sanitizing leave. -/
def Plain (toLower : Char → Char) (c : Char) : Prop :=
  isSpace c = false ∧ (32 ≤ c.val ∧ c.val ≠ 127) ∧ c.utf8Size = 1 ∧ toLower c = c

theorem dropWhile_of_false {p : Char → Bool} {s : Text} (h : ∀ c ∈ s, p c = false) :
    s.dropWhile p = s := by
  cases s with
  | nil => rfl
  | cons c s => rw [List.dropWhile_cons_of_neg (by simp [h c List.mem_cons_self])]

theorem trimSpace_eq_self {s : Text} (h : ∀ c ∈ s, Plain toLower c) : trimSpace s = s := by
  unfold RenoP.Database.trimSpace
  rw [dropWhile_of_false fun c hc => (h c hc).1, dropWhile_of_false, List.reverse_reverse]
  intro c hc
  exact (h c (List.mem_reverse.mp hc)).1

theorem truncateUTF8_eq_self {s : Text} (h : ∀ c ∈ s, Plain toLower c) :
    ∀ maxLen, s.length ≤ maxLen → truncateUTF8 s maxLen = s := by
  induction s with
  | nil =>
    intro maxLen _
    rfl
  | cons c s ih =>
    intro maxLen hlen
    have hsize := (h c List.mem_cons_self).2.2.1
    rw [List.length_cons] at hlen
    unfold RenoP.Database.truncateUTF8
    rw [hsize, if_pos (by omega), ih (fun d hd => h d (List.mem_cons_of_mem c hd)) _ (by omega)]

theorem sanitizeLower_eq_self {s : Text} (h : ∀ c ∈ s, Plain toLower c) {maxLen : ℕ}
    (hlen : s.length ≤ maxLen) : sanitizeLower toLower s maxLen = s := by
  have hcontrol : sanitizeControlBytes s = s := by
    unfold RenoP.Database.sanitizeControlBytes
    rw [List.filter_eq_self]
    intro c hc
    have hc := (h c hc).2.1
    simp [hc.1, hc.2]
  have hmap : s.map toLower = s := by
    conv_rhs => rw [← List.map_id s]
    apply List.map_congr_left
    intro c hc
    exact (h c hc).2.2.2
  unfold sanitizeLower
  rw [trimSpace_eq_self h, hcontrol, truncateUTF8_eq_self h maxLen hlen, hmap]

/-- `unicode.ToLower` leaves the letters, digits and the colon of a digest. -/
def KeepsDigestChars (toLower : Char → Char) : Prop :=
  ∀ c ∈ digestPrefix ++ hexDigits, toLower c = c

theorem plain_of_digestChar (hlower : KeepsDigestChars toLower) {c : Char}
    (hc : c ∈ digestPrefix ++ hexDigits) : Plain toLower c := by
  have hall : (digestPrefix ++ hexDigits).all fun c => decide
      (isSpace c = false ∧ (32 ≤ c.val ∧ c.val ≠ 127) ∧ c.utf8Size = 1) := by
    decide
  obtain ⟨hspace, hval, hsize⟩ := of_decide_eq_true (List.all_eq_true.mp hall c hc)
  exact ⟨hspace, hval, hsize, hlower c hc⟩

theorem hexDigit_mem (n : ℕ) : hexDigit n ∈ hexDigits := by
  unfold hexDigit
  by_cases hn : n < hexDigits.length
  · rw [List.getD_eq_getElem _ _ hn]
    exact List.getElem_mem hn
  · rw [List.getD_eq_default _ _ (by omega)]
    decide

theorem calculateDigest_chars (body : List UInt8) :
    ∀ c ∈ calculateDigest sum256 body, c ∈ digestPrefix ++ hexDigits := by
  intro c hc
  unfold calculateDigest hexEncode at hc
  rw [List.mem_append] at hc ⊢
  rcases hc with hc | hc
  · exact Or.inl hc
  · rw [List.mem_flatMap] at hc
    obtain ⟨b, _, hb⟩ := hc
    simp only [List.mem_cons, List.not_mem_nil, or_false] at hb
    rcases hb with rfl | rfl
    · exact Or.inr (hexDigit_mem _)
    · exact Or.inr (hexDigit_mem _)

theorem calculateDigest_length (body : List UInt8) :
    (calculateDigest sum256 body).length = 71 := by
  unfold calculateDigest hexEncode
  rw [List.length_append, List.length_flatMap]
  simp only [List.length_cons, List.length_nil, List.map_const', List.length_ofFn,
    List.sum_replicate]
  decide

theorem rowDigest_calculateDigest (hlower : KeepsDigestChars toLower) (body : List UInt8) :
    rowDigest toLower (calculateDigest sum256 body) = calculateDigest sum256 body := by
  apply sanitizeLower_eq_self
  · intro c hc
    exact plain_of_digestChar hlower (calculateDigest_chars body c hc)
  · rw [calculateDigest_length]
    omega

/-- Every row of `docker_blobs` has its file. -/
def Registry.Stored (toLower : Char → Char) (reg : Registry) : Prop :=
  ∀ repository digest, reg.tables.blobs.has (repository, digest) = true →
    reg.blobExists toLower repository digest = true

def Registry.deletes (toLower : Char → Char) (reg : Registry) (user : Text) (image : ImageKey)
    (digest : Text) (storeFails : Bool) : Bool :=
  reg.access.canWrite user image &&
    (deleteDockerBlob toLower reg.tables image.repository digest).isOk && !storeFails

/-- A mount goes to a repository that stores the blob, and a deletion takes no file from under
the row of another spelling. -/
def Registry.KeepsFiles (toLower : Char → Char) (reg : Registry) : Request → Prop
  | .mount user image digest source =>
    reg.mountable toLower user image digest source = true →
      reg.blobExists toLower image.repository (rowDigest toLower digest) = true
  | .deleteBlob user image digest storeFails =>
    reg.deletes toLower user image digest storeFails = true →
      ∀ d, reg.tables.blobs.has (image.repository, d) = true →
        cleanDigestHash toLower d = cleanDigestHash toLower digest → d = rowDigest toLower digest
  | _ => True

theorem has_recordDockerBlob (t : Tables) (repository digest : Text) (size : ℤ)
    (key : Text × Text) :
    (recordDockerBlob toLower t repository digest size).blobs.has key = true ↔
      key = (repository, rowDigest toLower digest) ∨ t.blobs.has key = true := by
  simp only [recordDockerBlob]
  split_ifs with hhas
  · constructor
    · exact Or.inr
    · intro h
      rcases h with rfl | h
      · exact hhas
      · exact h
  · simp only [GoMap.has, GoMap.load_store]
    split_ifs with hkey
    · simp [hkey]
    · simp [hkey]

theorem recordDockerImageBlob_blobs {t t' : Tables} {image : ImageKey} {digest : Text}
    (h : recordDockerImageBlob toLower t image digest = .ok t') : t'.blobs = t.blobs := by
  rw [recordDockerImageBlob_cases h]

theorem stored_record_iff {t : Tables} {image : ImageKey} {digest : Text}
    {files : GoMap (Text × Text) ℤ} {size : ℤ} :
    Registry.Stored toLower
        (match recordDockerImageBlob toLower
            (recordDockerBlob toLower t image.repository digest size) image digest with
          | .error _ => { reg with
              files := files
              tables := recordDockerBlob toLower t image.repository digest size }
          | .ok tables => { reg with files := files, tables := tables }) ↔
      ∀ repository d, ((repository, d) = (image.repository, rowDigest toLower digest) ∨
        t.blobs.has (repository, d) = true) →
          files.has (repository, cleanDigestHash toLower d) = true := by
  have hblobs : ∀ t' : Tables, t'.blobs = (recordDockerBlob toLower t image.repository digest size).blobs →
      ∀ key : Text × Text, t'.blobs.has key = true ↔
        key = (image.repository, rowDigest toLower digest) ∨ t.blobs.has key = true := by
    intro t' ht key
    rw [ht]
    exact has_recordDockerBlob t image.repository digest size key
  cases hrec : recordDockerImageBlob toLower
      (recordDockerBlob toLower t image.repository digest size) image digest with
  | error err =>
    constructor
    · intro h repository d hd
      exact h repository d ((hblobs _ rfl _).mpr hd)
    · intro h repository d hd
      exact h repository d ((hblobs _ rfl _).mp hd)
  | ok tables =>
    have ht := recordDockerImageBlob_blobs hrec
    constructor
    · intro h repository d hd
      exact h repository d ((hblobs tables ht _).mpr hd)
    · intro h repository d hd
      exact h repository d ((hblobs tables ht _).mp hd)

theorem stored_upload (hlower : KeepsDigestChars toLower) (hs : reg.Stored toLower) {user : Text}
    {image : ImageKey} {digest : Text} {body : List UInt8} :
    (handleUpload toLower sum256 reg user image digest body).Stored toLower := by
  unfold handleUpload
  cases hc : reg.commits sum256 user image digest body with
  | false =>
    simp only [Bool.not_false, if_true]
    exact hs
  | true =>
    simp only [Bool.not_true, Bool.false_eq_true, if_false]
    have hdigest : calculateDigest sum256 body = digest := by
      simp only [Registry.commits, Bool.and_eq_true, decide_eq_true_eq] at hc
      exact hc.1.2
    apply stored_record_iff.mpr
    intro repository d hd
    rw [GoMap.has_eq_true]
    rcases hd with hnew | hold
    · obtain ⟨hrepo, hrow⟩ := Prod.mk.inj hnew
      rw [hrepo, hrow, ← hdigest, rowDigest_calculateDigest hlower]
      exact ⟨body.length, GoMap.load_store_self _ _ _⟩
    · obtain ⟨size, hsize⟩ := (GoMap.has_eq_true _ _).mp (hs repository d hold)
      rw [GoMap.load_store]
      split_ifs
      · exact ⟨_, rfl⟩
      · exact ⟨size, hsize⟩

theorem stored_mount_iff (hs : reg.Stored toLower) {user : Text} {image : ImageKey}
    {digest : Text} {source : ImageKey} :
    (handleMount toLower reg user image digest source).Stored toLower ↔
      reg.KeepsFiles toLower (.mount user image digest source) := by
  unfold handleMount
  simp only [Registry.KeepsFiles]
  cases hm : reg.mountable toLower user image digest source with
  | false =>
    simp only [Bool.not_false, if_true, Bool.false_eq_true, false_implies, iff_true]
    exact hs
  | true =>
    simp only [Bool.not_true, Bool.false_eq_true, if_false, true_implies]
    refine Iff.trans stored_record_iff ?_
    constructor
    · intro h
      exact h _ _ (Or.inl rfl)
    · intro h repository d hd
      rcases hd with hnew | hold
      · obtain ⟨hrepo, hrow⟩ := Prod.mk.inj hnew
        rw [hrepo, hrow]
        exact h
      · exact hs repository d hold

theorem stored_delete_iff (hs : reg.Stored toLower) {user : Text} {image : ImageKey}
    {digest : Text} {storeFails : Bool} :
    (handleDeleteBlob toLower reg user image digest storeFails).Stored toLower ↔
      reg.KeepsFiles toLower (.deleteBlob user image digest storeFails) := by
  unfold handleDeleteBlob
  simp only [Registry.KeepsFiles, Registry.deletes]
  cases hw : reg.access.canWrite user image with
  | false =>
    simp only [Bool.not_false, if_true, Bool.false_and, Bool.false_eq_true, false_implies, iff_true]
    exact hs
  | true =>
    simp only [Bool.not_true, Bool.false_eq_true, if_false, Bool.true_and]
    cases hd : deleteDockerBlob toLower reg.tables image.repository digest with
    | error err =>
      refine iff_of_true hs ?_
      intro h
      cases h
    | ok tables =>
      have ht := deleteDockerBlob_cases hd
      subst ht
      have hrow : ∀ repository d, (reg.tables.blobs.delete
          (image.repository, rowDigest toLower digest)).has (repository, d) = true ↔
            (repository, d) ≠ (image.repository, rowDigest toLower digest) ∧
              reg.tables.blobs.has (repository, d) = true := by
        intro repository d
        simp only [GoMap.has, GoMap.load_delete]
        split_ifs with hkey
        · simp [hkey]
        · simp [hkey]
      cases storeFails with
      | true =>
        simp only [if_true, Bool.not_true, Bool.and_false, Bool.false_eq_true, false_implies,
          iff_true]
        intro repository d hd
        exact hs repository d ((hrow repository d).mp hd).2
      | false =>
        have hfile : ∀ repository d, (reg.files.delete
            (image.repository, cleanDigestHash toLower digest)).has
              (repository, cleanDigestHash toLower d) = true ↔
            (repository = image.repository →
              cleanDigestHash toLower d ≠ cleanDigestHash toLower digest) ∧
                reg.blobExists toLower repository d = true := by
          intro repository d
          simp only [GoMap.has, GoMap.load_delete, Registry.blobExists, Prod.mk.injEq]
          split_ifs with hkey
          · simp [hkey]
          · constructor
            · intro h
              exact ⟨fun hrepo hsame => hkey ⟨hrepo, hsame⟩, h⟩
            · intro h
              exact h.2
        simp only [Bool.false_eq_true, if_false, Bool.not_false, Bool.and_true]
        constructor
        · intro h _ d hrec hsame
          by_contra hne
          have hkept := h image.repository d
            ((hrow image.repository d).mpr ⟨fun heq => hne (Prod.mk.inj heq).2, hrec⟩)
          exact ((hfile image.repository d).mp hkept).1 rfl hsame
        · intro h repository d hkept
          obtain ⟨hne, hrec⟩ := (hrow repository d).mp hkept
          apply (hfile repository d).mpr
          refine ⟨?_, hs repository d hrec⟩
          intro hrepo hsame
          rw [hrepo] at hrec hne
          exact hne (congrArg _ (h rfl d hrec hsame))

theorem stored_of_blobs (hs : reg.Stored toLower) {tables : Tables}
    (hblobs : tables.blobs = reg.tables.blobs) :
    Registry.Stored toLower { reg with tables := tables } := by
  intro repository d hd
  have hd' : tables.blobs.has (repository, d) = true := hd
  rw [hblobs] at hd'
  exact hs repository d hd'

theorem putManifest_blobs {user : Text} {image : ImageKey} {parsed : ParsedManifest} {tag : Text}
    {refused : Bool} {tables : Tables}
    (h : reg.putManifest toLower user image parsed tag refused = some tables) :
    tables.blobs = reg.tables.blobs := by
  unfold Registry.putManifest at h
  split_ifs at h
  split at h
  · cases h
  · cases hdb : putDockerManifest toLower reg.tables (parsed.record image) tag user false with
    | error err =>
      rw [hdb] at h
      cases h
    | ok t' =>
      rw [hdb] at h
      cases h
      obtain ⟨w, -, htx⟩ := putDockerManifest_cases hdb
      obtain ⟨row, -, rfl⟩ := putDockerManifestTx_cases htx
      exact upsertTag_blobs _ w

theorem next_stored_iff (hlower : KeepsDigestChars toLower) (reg : Registry) (r : Request)
    (hs : reg.Stored toLower) :
    (reg.next toLower sum256 r).Stored toLower ↔ reg.KeepsFiles toLower r := by
  cases r with
  | environment access images locks lockVersions => exact iff_of_true hs trivial
  | upload user image digest body => exact iff_of_true (stored_upload hlower hs) trivial
  | mount user image digest source => exact stored_mount_iff hs
  | putManifest user image parsed tag refused =>
    refine iff_of_true ?_ trivial
    simp only [Registry.next, handlePutManifest]
    cases hput : reg.putManifest toLower user image parsed tag refused with
    | none => exact hs
    | some tables => exact stored_of_blobs hs (putManifest_blobs hput)
  | deleteManifest user image reference =>
    refine iff_of_true ?_ trivial
    simp only [Registry.next, handleDeleteManifest]
    split_ifs with hwrite hdigest
    · exact hs
    · cases hd : deleteDockerManifest toLower reg.tables image reference with
      | error err => exact hs
      | ok tables =>
        apply stored_of_blobs hs
        rw [(deleteDockerManifest_cases hd).2]
    · cases hd : deleteDockerTag toLower reg.tables image reference with
      | error err => exact hs
      | ok tables =>
        apply stored_of_blobs hs
        rw [deleteDockerTag_cases hd]
  | deleteBlob user image digest storeFails => exact stored_delete_iff hs

def sourceImage : ImageKey := ⟨['r'], ['a']⟩
def targetImage : ImageKey := ⟨['s'], ['b']⟩

def twoRepositories : Registry where
  tables := {
    images := (∅ : GoMap ImageKey ImageRow).store sourceImage ⟨['u'], [], true⟩
      |>.store targetImage ⟨['u'], [], true⟩
    manifests := ∅
    tags := ∅
    blobs := ∅
    imageBlobs := ∅
    locks := ∅
    lockVersions := ∅ }
  files := ∅
  access := { canRead := fun _ _ => true, canWrite := fun _ _ => true }

def onesSum : List UInt8 → Fin 32 → UInt8 := fun _ _ => 17

def emptyDigest : Text := calculateDigest onesSum []

end RenoP.Docker
