import RenoP.Lib.KeysetPages
import RenoP.Docker.BlobRows
import RenoP.Docker.ImageReads

/-!
# Listings of Docker images and tags

`HandleCatalog` and `HandleTagsList` of `internal/service/docker/handler.go` with the queries of
`internal/database/docker.go` and `FilterReadableDockerImages` of `auth.go`.
-/

namespace RenoP.Docker

open RenoP.Database (Text trimSpace sanitizeControlBytes truncateUTF8 isSpace)
open RenoP.Review (trimSlashes)
open KeysetPages (Follows Listing)

section Model
variable (toLower : Char → Char)

def ImageStore.imageNames (s : ImageStore) (repository : Text) : List Text :=
  ((s.tables.images.entries.filter fun i => decide (i.1.repository = repository)).map
    fun i => i.1.name).mergeSort fun a b => decide (a ≤ b)

def ImageStore.listDockerImages (s : ImageStore) (repository last : Text) (limit : ℤ) : List Text :=
  let names := s.imageNames (sanitizeLower toLower repository 64)
  let last := sanitizeLower toLower last 255
  (names.filter fun name => decide (last = []) || decide (last < name)).take (clampLimit limit)

/-- `DockerImageMemberLevels`, as a test of the names that are found. -/
def ImageStore.dockerImageMembers (s : ImageStore) (repository username : Text) (names : List Text) :
    Option (Text → Bool) :=
  let repository := sanitizeLower toLower repository 64
  let username := sanitizeLower toLower username 255
  if names = [] ∨ repository = [] ∨ username = [] ∨ username = guest then some fun _ => false
  else match s.userIDForUsername toLower username with
  | none => some fun _ => false
  | some userID =>
    let names := names.map fun name => sanitizeLower toLower name 255
    if [] ∈ names then none
    else some fun name => decide (name ∈ names) && s.listMember ⟨repository, name⟩ userID

def ImageStore.resourceMetadataVisibility (s : ImageStore) (repository username : Text)
    (moderator : Bool) (names : List Text) : Option (Text → Bool) :=
  if moderator = true ∨ names = [] then some fun _ => true
  else if (names.any fun name => (lockImage toLower repository name).isNone) = true then none
  else
    let userID := s.listViewerID toLower username
    some fun name => !(resourceLocksQuery s.tables).any fun l =>
      decide (l.mode = .read) && decide (l.version = []) &&
        decide (l.image.repository = repository.map toLower) &&
        decide (lockImage toLower repository name = some l.image) && !s.listMember l.image userID

def ImageStore.filterReadableDockerImages (s : ImageStore) (user : User) (repository : Text)
    (names : List Text) : Option (List Text) :=
  if names = [] then some []
  else
    let administrator := user.isManager || user.checkUpdatePermission repository
    let isPrivate (name : Text) : Bool := s.privateImages ⟨sanitizeLower toLower repository 64, name⟩
    let privateNames := names.filter fun name => isPrivate name && !administrator
    let asked := if user.username = [] ∨ equalFold user.username guest then [] else privateNames
    match s.dockerImageMembers toLower repository user.username asked with
    | none => none
    | some member =>
      let visible := names.filter fun name => !isPrivate name || member name || administrator
      match s.resourceMetadataVisibility toLower repository user.username
        (user.checkModeratePermission repository) visible with
      | none => none
      | some allowed => some (visible.filter allowed)

/-- An image of the answer, which is written `repository/image`. -/
structure CatalogEntry where
  repository : Text
  imageName : Text
  deriving DecidableEq

def CatalogEntry.path (e : CatalogEntry) : Text := e.repository ++ '/' :: e.imageName

def nextLast {α : Type} (n : ℤ) (path : α → Text) (items : List α) : Option Text :=
  if 0 < n ∧ n ≤ items.length then items.getLast?.map path else none

/-- The turn of a repository in the loop of `HandleCatalog`. -/
def BlobStore.catalogImages (st : BlobStore) (user : User) (last : Text) (n : ℤ) (e : Text × Text) :
    Option (List CatalogEntry) :=
  if st.images.canReadDocker toLower (some user) e.1 e.2 e.1 = false then some []
  else
    let images := st.images.listDockerImages toLower e.1 last n
    (st.images.filterReadableDockerImages toLower user e.1 images).map fun names =>
      names.map fun name => ⟨e.1, name⟩

def BlobStore.handleCatalog (st : BlobStore) (order : GoMap.RangeOrder Text Text) (user : User)
    (last : Text) (n : ℤ) : Option (List CatalogEntry × Option Text) :=
  match (order.pairs st.repositories).mapM (st.catalogImages toLower user last n) with
  | none => none
  | some lists => some (lists.flatten, nextLast n CatalogEntry.path lists.flatten)

def BlobStore.tagsPage (st : BlobStore) (r : ReadRequest) (last : Text) (n : ℤ) :
    Option (List Text × Option Text) :=
  (st.handleTagsList toLower r last n).map fun tags => (tags, nextLast n id tags)

def BlobStore.tagsOf (st : BlobStore) (r : ReadRequest) : List Text :=
  st.images.visibleTags (r.image toLower) (st.images.listViewerID toLower r.user.username)
    (r.user.checkModeratePermission r.repository)

def BlobStore.TagsListed (st : BlobStore) (r : ReadRequest) (n : ℤ) : Prop :=
  ∃ got, Follows (fun _ last => st.tagsPage toLower r last n) 0 [] got ∧
    got.Perm (st.tagsOf toLower r)

def BlobStore.catalog (st : BlobStore) : List CatalogEntry :=
  st.repositories.keys.flatMap fun repository =>
    (st.images.imageNames (sanitizeLower toLower repository 64)).map fun name => ⟨repository, name⟩

/-- A client that follows the links of the catalog comes to an end with every image once, whatever
order of the repositories each answer has. -/
def BlobStore.CatalogListed (st : BlobStore) (user : User) (n : ℤ) : Prop :=
  ∀ orders : ℕ → GoMap.RangeOrder Text Text, ∃ got,
    Follows (fun k last => st.handleCatalog toLower (orders k) user last n) 0 [] got ∧
      got.Perm (st.catalog toLower)

def BlobStore.AllReadable (st : BlobStore) (user : User) : Prop :=
  ∀ repository visibility, st.repositories.load repository = some visibility →
    st.images.canReadDocker toLower (some user) repository visibility repository = true ∧
    ∀ names, (∀ name ∈ names, name ∈ st.images.imageNames (sanitizeLower toLower repository 64)) →
      st.images.filterReadableDockerImages toLower user repository names = some names

end Model

variable {toLower : Char → Char} {st : BlobStore} {user : User} {r : ReadRequest} {n : ℤ}

theorem sorted_names {names : List Text} (h : names.Nodup) :
    (names.mergeSort fun a b => decide (a ≤ b)).Pairwise (· < ·) := by
  have hsorted : (names.mergeSort fun a b => decide (a ≤ b)).Pairwise fun a b =>
      decide (a ≤ b) = true := by
    apply List.pairwise_mergeSort
    · intro a b c hab hbc
      rw [decide_eq_true_eq] at hab hbc ⊢
      exact hab.trans hbc
    · intro a b
      rw [Bool.or_eq_true, decide_eq_true_eq, decide_eq_true_eq]
      exact le_total a b
  have hnodup : (names.mergeSort fun a b => decide (a ≤ b)).Nodup :=
    (List.mergeSort_perm _ _).nodup_iff.mpr h
  refine (List.pairwise_and_iff.mpr ⟨hsorted, hnodup⟩).imp ?_
  intro a b h
  exact lt_of_le_of_ne (of_decide_eq_true h.1) h.2

theorem column_nodup {K V : Type} [DecidableEq K] {m : GoMap K V} {p : (Sigma fun _ : K => V) → Bool}
    {column : K → Text} (h : ∀ e e', p e = true → p e' = true → column e.1 = column e'.1 → e.1 = e'.1) :
    ((m.entries.filter p).map fun e => column e.1).Nodup := by
  refine List.Nodup.map_on ?_ (m.nodup_entries.filter _)
  intro e he e' he' hcolumn
  rw [List.mem_filter] at he he'
  have hkey := h e e' he.2 he'.2 hcolumn
  have hload := (GoMap.mem_entries_iff m e.1 e.2).mp he.1
  rw [hkey, (GoMap.mem_entries_iff m e'.1 e'.2).mp he'.1] at hload
  exact Sigma.ext hkey (heq_of_eq (Option.some.inj hload).symm)

theorem ImageStore.imageNames_sorted (s : ImageStore) (repository : Text) :
    (s.imageNames repository).Pairwise (· < ·) := by
  apply sorted_names
  apply column_nodup
  intro i j hi hj hname
  rw [decide_eq_true_eq] at hi hj
  cases hi' : i.1
  cases hj' : j.1
  rw [hi'] at hi hname
  rw [hj'] at hj hname
  exact congrArg₂ ImageKey.mk (hi.trans hj.symm) hname

theorem ImageStore.visibleTags_sorted (s : ImageStore) (image : ImageKey) (userID : Text)
    (moderator : Bool) : (s.visibleTags image userID moderator).Pairwise (· < ·) := by
  apply sorted_names
  apply column_nodup
  intro i j hi hj htag
  rw [Bool.and_eq_true, decide_eq_true_eq] at hi hj
  exact Prod.ext (hi.1.trans hj.1.symm) htag

theorem clampLimit_pos (limit : ℤ) : 0 < clampLimit limit := by
  unfold clampLimit
  split_ifs <;> omega

def startAt (last : Text) : WithBot Text := if last = [] then ⊥ else (last : WithBot Text)

theorem startAt_lt {last name : Text} :
    startAt last < (name : WithBot Text) ↔ last = [] ∨ last < name := by
  unfold startAt
  split_ifs with h
  · simp [h, WithBot.bot_lt_coe]
  · simp [h, WithBot.coe_lt_coe]

theorem after_startAt (last : Text) (names : List Text) :
    Listing.after (startAt last) names =
      names.filter fun name => decide (last = []) || decide (last < name) := by
  apply List.filter_congr
  intro name _
  rw [← Bool.decide_or, decide_eq_decide]
  exact startAt_lt

def tagCursor (last : Text) : WithBot Text := startAt (sanitize last 128)

def imageCursor (toLower : Char → Char) (last : Text) : WithBot Text :=
  startAt (sanitizeLower toLower last 255)

def BlobStore.tagListing (toLower : Char → Char) (st : BlobStore) (r : ReadRequest) {n : ℤ}
    (hn : 0 < n) : Listing Unit Text where
  members := [()]
  lists _ := st.tagsOf toLower r
  cursor _ tag := tagCursor tag
  limit := clampLimit n
  size := n.toNat
  nodup := List.nodup_singleton _
  sorted _ := ImageStore.visibleTags_sorted ..
  limit_pos := clampLimit_pos n
  size_pos := by omega

/-- The images of the repositories, with the cursor that the queries make of `repository/image`. -/
def BlobStore.catalogListing (toLower : Char → Char) (st : BlobStore) {n : ℤ} (hn : 0 < n) :
    Listing Text Text where
  members := st.repositories.keys
  lists repository := st.images.imageNames (sanitizeLower toLower repository 64)
  cursor repository name := imageCursor toLower (repository ++ '/' :: name)
  limit := clampLimit n
  size := n.toNat
  nodup := st.repositories.nodupKeys
  sorted _ := ImageStore.imageNames_sorted ..
  limit_pos := clampLimit_pos n
  size_pos := by omega

theorem nextLast_map {α β : Type} {path : α → Text} {f : β → α} {items : List β} (hn : 0 < n) :
    nextLast n path (items.map f) =
      if n.toNat ≤ items.length then items.getLast?.map fun e => path (f e) else none := by
  unfold nextLast
  rw [List.length_map, List.getLast?_map, Option.map_map]
  have hsize : (0 < n ∧ n ≤ items.length) ↔ n.toNat ≤ items.length := by omega
  simp only [hsize]
  rfl

theorem tagListing_page (hn : 0 < n) (last : Text) :
    (st.tagListing toLower r hn).page (tagCursor last) () =
      st.images.listDockerTagsForViewer toLower r.repository r.imageName last n r.user.username
        (r.user.checkModeratePermission r.repository) := by
  unfold Listing.page tagCursor ImageStore.listDockerTagsForViewer
  rw [after_startAt]
  rfl

theorem tagsPage_answer (hauth : st.authorisesRead toLower r = true) (hn : 0 < n) (last : Text) :
    (st.tagsPage toLower r last n).map
      (fun p => (p.1, p.2.map tagCursor)) =
      (some ((st.tagListing toLower r hn).answer [()] (tagCursor last))).map
        fun p => (p.1.map Prod.snd, p.2) := by
  have hitems : (st.tagListing toLower r hn).items [()] (tagCursor last) =
      (st.images.listDockerTagsForViewer toLower r.repository r.imageName last n r.user.username
        (r.user.checkModeratePermission r.repository)).map fun tag => ((), tag) := by
    unfold Listing.items
    rw [List.flatMap_singleton, tagListing_page]
  have hpage : st.tagsPage toLower r last n =
      some (st.images.listDockerTagsForViewer toLower r.repository r.imageName last n
        r.user.username (r.user.checkModeratePermission r.repository),
        nextLast n id (st.images.listDockerTagsForViewer toLower r.repository r.imageName last n
          r.user.username (r.user.checkModeratePermission r.repository))) := by
    unfold BlobStore.tagsPage BlobStore.handleTagsList
    simp [hauth]
  generalize st.images.listDockerTagsForViewer toLower r.repository r.imageName last n
    r.user.username (r.user.checkModeratePermission r.repository) = tags at hitems hpage
  have hlink : nextLast n id tags = if n.toNat ≤ tags.length then tags.getLast?.map id else none := by
    simpa using @nextLast_map n Text Text id id tags hn
  rw [hpage, hlink]
  unfold Listing.answer
  simp only [hitems, Option.map_some, List.length_map, List.getLast?_map, Option.map_map,
    List.map_map]
  refine congrArg some (Prod.ext ?_ ?_)
  · exact (List.map_id tags).symm
  · show Option.map _ (if n.toNat ≤ tags.length then _ else none) =
      if n.toNat ≤ tags.length then _ else none
    split_ifs
    · rw [Option.map_map]
      rfl
    · rfl

theorem tagListing_all (hn : 0 < n) :
    (st.tagListing toLower r hn).all.map Prod.snd = st.tagsOf toLower r := by
  unfold Listing.all
  show (List.flatMap _ [()]).map Prod.snd = _
  rw [List.flatMap_singleton, List.map_map]
  exact List.map_id _

theorem tagsListed_iff_complete (hauth : st.authorisesRead toLower r = true) (hn : 0 < n) :
    st.TagsListed toLower r n ↔ (st.tagListing toLower r hn).Complete := by
  have hstart : tagCursor [] = ⊥ := rfl
  have hfollows : ∀ got, Follows (fun _ last => st.tagsPage toLower r last n) 0 [] got ↔
      ∃ got', (st.tagListing toLower r hn).Receives (fun _ => [()]) 0 ⊥ got' ∧
        got = got'.map Prod.snd := by
    intro got
    rw [← hstart]
    exact KeysetPages.follows_iff fun _ last => tagsPage_answer hauth hn last
  have hsnd : Function.Injective (Prod.snd : Unit × Text → Text) := by
    rintro ⟨⟨⟩, a⟩ ⟨⟨⟩, b⟩ h
    exact congrArg _ h
  constructor
  · rintro ⟨got, hgot, hperm⟩ orders horders
    obtain ⟨got', hreceives, rfl⟩ := (hfollows got).mp hgot
    have hsame : orders = fun _ => [()] := by
      funext k
      exact List.perm_singleton.mp (horders k)
    rw [hsame]
    rw [← tagListing_all hn] at hperm
    exact ⟨got', hreceives, (List.map_perm_map_iff hsnd).mp hperm⟩
  · intro hcomplete
    obtain ⟨got', hreceives, hperm⟩ := hcomplete (fun _ => [()]) fun _ => .refl _
    refine ⟨got'.map Prod.snd, (hfollows _).mpr ⟨got', hreceives, rfl⟩, ?_⟩
    rw [← tagListing_all hn]
    exact hperm.map _

/-- Tags as `dockerTagPattern` admits them: a tag is its own cursor. -/
def BlobStore.TagsPlain (toLower : Char → Char) (st : BlobStore) (r : ReadRequest) : Prop :=
  ∀ tag ∈ st.tagsOf toLower r, tag ≠ [] ∧ sanitize tag 128 = tag

theorem tagListing_separated_iff (hn : 0 < n) (hplain : st.TagsPlain toLower r) :
    (st.tagListing toLower r hn).Separated ↔ n ≤ 100 ∨ (st.tagsOf toLower r).length ≤ 50 := by
  have hcursor : ∀ tag ∈ (st.tagListing toLower r hn).lists (),
      (st.tagListing toLower r hn).cursor () tag = (tag : WithBot Text) := by
    intro tag htag
    obtain ⟨hne, hsame⟩ := hplain tag htag
    show startAt (sanitize tag 128) = _
    rw [hsame, startAt, if_neg hne]
  rw [Listing.separated_single_iff rfl hcursor]
  show n.toNat ≤ clampLimit n ∨ (st.tagsOf toLower r).length ≤ clampLimit n ↔ _
  unfold clampLimit
  split_ifs <;> omega

theorem tagListing_ordered (hn : 0 < n) (hplain : st.TagsPlain toLower r) :
    (st.tagListing toLower r hn).Ordered := by
  intro i _ k hk k' hk' hle
  show startAt (sanitize k 128) ≤ startAt (sanitize k' 128)
  obtain ⟨hne, hsame⟩ := hplain k hk
  obtain ⟨hne', hsame'⟩ := hplain k' hk'
  rw [hsame, hsame', startAt, startAt, if_neg hne, if_neg hne']
  exact WithBot.coe_le_coe.mpr hle

def entryOf (e : Text × Text) : CatalogEntry := ⟨e.1, e.2⟩

theorem entryOf_injective : Function.Injective entryOf := by
  rintro ⟨a, b⟩ ⟨a', b'⟩ h
  rw [entryOf, entryOf, CatalogEntry.mk.injEq] at h
  exact Prod.ext h.1 h.2

theorem catalogListing_page (hn : 0 < n) (last repository : Text) :
    (st.catalogListing toLower hn).page (imageCursor toLower last) repository =
      st.images.listDockerImages toLower repository last n := by
  unfold Listing.page imageCursor ImageStore.listDockerImages
  rw [after_startAt]
  rfl

theorem mapM_some {α β : Type} {f : α → Option β} {g : α → β} {l : List α}
    (h : ∀ a ∈ l, f a = some (g a)) : l.mapM f = some (l.map g) := by
  induction l with
  | nil => rfl
  | cons a l ih =>
    rw [List.mapM_cons, h a (List.mem_cons_self ..), ih fun b hb => h b (List.mem_cons_of_mem a hb)]
    rfl

theorem listDockerImages_mem {s : ImageStore} {repository last name : Text} {limit : ℤ}
    (h : name ∈ s.listDockerImages toLower repository last limit) :
    name ∈ s.imageNames (sanitizeLower toLower repository 64) :=
  (List.mem_filter.mp (List.mem_of_mem_take h)).1

theorem catalogImages_readable (hreadable : st.AllReadable toLower user) {e : Text × Text}
    (he : st.repositories.load e.1 = some e.2) (last : Text) :
    st.catalogImages toLower user last n e =
      some ((st.images.listDockerImages toLower e.1 last n).map fun name => ⟨e.1, name⟩) := by
  obtain ⟨hread, hfilter⟩ := hreadable e.1 e.2 he
  unfold BlobStore.catalogImages
  rw [hread]
  simp [hfilter _ fun name => listDockerImages_mem]

theorem handleCatalog_answer (hreadable : st.AllReadable toLower user) (hn : 0 < n)
    (order : GoMap.RangeOrder Text Text) (last : Text) :
    (st.handleCatalog toLower order user last n).map
      (fun p => (p.1, p.2.map (imageCursor toLower))) =
      (some ((st.catalogListing toLower hn).answer (order.keys st.repositories)
        (imageCursor toLower last))).map fun p => (p.1.map entryOf, p.2) := by
  have hlists : (order.pairs st.repositories).mapM (st.catalogImages toLower user last n) =
      some ((order.pairs st.repositories).map fun e =>
        (st.images.listDockerImages toLower e.1 last n).map fun name => (⟨e.1, name⟩ : CatalogEntry)) :=
    mapM_some fun e he =>
      catalogImages_readable hreadable ((order.mem_pairs st.repositories e.1 e.2).mp he) last
  have hitems : ((order.pairs st.repositories).map fun e =>
      (st.images.listDockerImages toLower e.1 last n).map fun name =>
        (⟨e.1, name⟩ : CatalogEntry)).flatten =
      ((st.catalogListing toLower hn).items (order.keys st.repositories)
        (imageCursor toLower last)).map entryOf := by
    unfold Listing.items
    rw [← order.pairs_keys, List.map_flatMap, List.flatMap_map, ← List.flatMap_def]
    congr 1
    funext e
    rw [catalogListing_page, List.map_map]
    rfl
  unfold BlobStore.handleCatalog
  rw [hlists]
  dsimp only
  rw [hitems, nextLast_map hn]
  unfold Listing.answer
  simp only [Option.map_some]
  refine congrArg some (Prod.ext rfl ?_)
  show Option.map _ (if n.toNat ≤ _ then _ else none) = if n.toNat ≤ _ then _ else none
  split_ifs
  · rw [Option.map_map]
    rfl
  · rfl

theorem catalogListing_all (hn : 0 < n) :
    (st.catalogListing toLower hn).all.map entryOf = st.catalog toLower := by
  unfold Listing.all BlobStore.catalog
  rw [List.map_flatMap]
  congr 1
  funext repository
  rw [List.map_map]
  rfl

theorem exists_rangeOrder {K V : Type} [DecidableEq K] (m : GoMap K V) {keys : List K}
    (h : keys.Perm m.keys) : ∃ order : GoMap.RangeOrder K V, order.keys m = keys := by
  classical
  refine ⟨⟨fun m' => if m' = m then keys else m'.keys, fun m' => ?_⟩, if_pos rfl⟩
  split_ifs with hm
  · rw [hm]
    exact h
  · exact .refl _

theorem catalogListed_iff_complete (hreadable : st.AllReadable toLower user) (hn : 0 < n) :
    st.CatalogListed toLower user n ↔ (st.catalogListing toLower hn).Complete := by
  have hstart : imageCursor toLower [] = ⊥ := rfl
  have hfollows : ∀ (orders : ℕ → GoMap.RangeOrder Text Text) got,
      Follows (fun k last => st.handleCatalog toLower (orders k) user last n) 0 [] got ↔
        ∃ got', (st.catalogListing toLower hn).Receives (fun k => (orders k).keys st.repositories)
          0 ⊥ got' ∧ got = got'.map entryOf := by
    intro orders got
    rw [← hstart]
    exact KeysetPages.follows_iff fun k last => handleCatalog_answer hreadable hn (orders k) last
  constructor
  · intro hlisted orders horders
    choose ranges hranges using fun k => exists_rangeOrder st.repositories (horders k)
    obtain ⟨got, hgot, hperm⟩ := hlisted ranges
    obtain ⟨got', hreceives, rfl⟩ := (hfollows ranges got).mp hgot
    rw [← catalogListing_all hn] at hperm
    rw [funext hranges] at hreceives
    exact ⟨got', hreceives, (List.map_perm_map_iff entryOf_injective).mp hperm⟩
  · intro hcomplete orders
    obtain ⟨got', hreceives, hperm⟩ := hcomplete (fun k => (orders k).keys st.repositories)
      fun k => (orders k).perm st.repositories
    refine ⟨got'.map entryOf, (hfollows orders _).mpr ⟨got', hreceives, rfl⟩, ?_⟩
    rw [← catalogListing_all hn]
    exact hperm.map _

/-- Names as `dockerImageComponentPattern` admits them: printable, without capitals and spaces. -/
def BlobStore.ImagesPlain (toLower : Char → Char) (st : BlobStore) : Prop :=
  ∀ image row, st.images.tables.images.load image = some row → ∀ c ∈ image.name, Plain toLower c

theorem truncateUTF8_mem {s : Text} {n : ℕ} {c : Char} (h : c ∈ truncateUTF8 s n) : c ∈ s := by
  induction s generalizing n with
  | nil => exact h
  | cons d s ih =>
    unfold truncateUTF8 at h
    split_ifs at h
    · rcases List.mem_cons.mp h with rfl | hmem
      · exact List.mem_cons_self ..
      · exact List.mem_cons_of_mem d (ih hmem)
    · cases h

theorem cons_le_cons_iff {c d : Char} {a b : Text} : c :: a ≤ d :: b ↔ c < d ∨ c = d ∧ a ≤ b := by
  rw [← not_lt, List.cons_lt_cons_iff, ← not_lt]
  constructor
  · intro h
    push Not at h
    rcases h.1.lt_or_eq with hlt | heq
    · exact Or.inl hlt
    · exact Or.inr ⟨heq, not_lt.mpr (h.2 heq.symm)⟩
  · rintro (hlt | ⟨rfl, hle⟩)
    · rintro (hgt | ⟨heq, -⟩)
      · exact lt_asymm hlt hgt
      · exact hlt.ne heq.symm
    · rintro (hgt | ⟨-, hgt⟩)
      · exact lt_irrefl _ hgt
      · exact hle hgt

theorem truncateUTF8_mono {a b : Text} (ha : ∀ c ∈ a, Plain toLower c)
    (hb : ∀ c ∈ b, Plain toLower c) (h : a ≤ b) (n : ℕ) : truncateUTF8 a n ≤ truncateUTF8 b n := by
  induction a generalizing b n with
  | nil => exact not_lt.mp (List.not_lt_nil _)
  | cons c a ih =>
    cases b with
    | nil => exact absurd (List.nil_lt_cons c a) (not_lt.mpr h)
    | cons d b =>
      have hc := (ha c (List.mem_cons_self ..)).2.2.1
      have hd := (hb d (List.mem_cons_self ..)).2.2.1
      unfold truncateUTF8
      rw [hc, hd]
      split_ifs
      · rw [cons_le_cons_iff] at h ⊢
        exact h.imp_right fun hsame => ⟨hsame.1, ih (fun e he => ha e (List.mem_cons_of_mem c he))
          (fun e he => hb e (List.mem_cons_of_mem d he)) hsame.2 _⟩
      · exact le_rfl

theorem lowered_mono {a b : Text} (ha : ∀ c ∈ a, Plain toLower c) (hb : ∀ c ∈ b, Plain toLower c)
    (h : a ≤ b) (front : Text) (n : ℕ) :
    (truncateUTF8 (front ++ a) n).map toLower ≤ (truncateUTF8 (front ++ b) n).map toLower := by
  induction front generalizing n with
  | nil =>
    have hsame : ∀ {name : Text}, (∀ c ∈ name, Plain toLower c) →
        (truncateUTF8 name n).map toLower = truncateUTF8 name n := by
      intro name hname
      have hid : ∀ c ∈ truncateUTF8 name n, toLower c = id c :=
        fun c hc => (hname c (truncateUTF8_mem hc)).2.2.2
      rw [List.map_congr_left hid, List.map_id]
    rw [List.nil_append, List.nil_append, hsame ha, hsame hb]
    exact truncateUTF8_mono ha hb h n
  | cons c front ih =>
    rw [List.cons_append, List.cons_append]
    unfold truncateUTF8
    split_ifs
    · rw [List.map_cons, List.map_cons, cons_le_cons_iff]
      exact Or.inr ⟨rfl, ih _⟩
    · exact le_rfl

theorem sanitizeLower_path {repository name : Text} (hname : ∀ c ∈ name, Plain toLower c) :
    sanitizeLower toLower (repository ++ '/' :: name) 255 =
      (truncateUTF8 ((sanitizeControlBytes (repository.dropWhile isSpace) ++ ['/']) ++ name) 255).map
        toLower := by
  have hfirst : (repository ++ '/' :: name).dropWhile isSpace =
      repository.dropWhile isSpace ++ '/' :: name := by
    rw [List.dropWhile_append]
    split_ifs with hempty
    · rw [List.isEmpty_iff.mp hempty]
      rfl
    · rfl
  have hspace : ∀ c ∈ '/' :: name, isSpace c = false := by
    intro c hc
    rcases List.mem_cons.mp hc with rfl | hmem
    · decide
    · exact (hname c hmem).1
  have hlast : ∀ front : Text, (front ++ '/' :: name).reverse.dropWhile isSpace =
      (front ++ '/' :: name).reverse := by
    intro front
    rw [List.reverse_append]
    cases hend : ('/' :: name).reverse with
    | nil => simp at hend
    | cons c rest =>
      have hc : c ∈ '/' :: name := by
        rw [← List.mem_reverse, hend]
        exact List.mem_cons_self ..
      rw [List.cons_append, List.dropWhile_cons, hspace c hc]
      rfl
  have hkept : sanitizeControlBytes ('/' :: name) = '/' :: name := by
    apply List.filter_eq_self.mpr
    intro c hc
    rcases List.mem_cons.mp hc with rfl | hmem
    · decide
    · have hval := (hname c hmem).2.1
      simp [hval.1, hval.2]
  unfold sanitizeLower trimSpace
  rw [hfirst, hlast, List.reverse_reverse]
  have happend : sanitizeControlBytes (repository.dropWhile isSpace ++ '/' :: name) =
      sanitizeControlBytes (repository.dropWhile isSpace) ++ sanitizeControlBytes ('/' :: name) :=
    List.filter_append ..
  rw [happend, hkept, List.append_assoc]
  rfl

theorem catalogListing_ordered (hn : 0 < n) (hplain : st.ImagesPlain toLower) :
    (st.catalogListing toLower hn).Ordered := by
  have hname : ∀ repository name, name ∈ (st.catalogListing toLower hn).lists repository →
      ∀ c ∈ name, Plain toLower c := by
    intro repository name hmem
    have hmem : name ∈ (st.images.tables.images.entries.filter fun i =>
        decide (i.1.repository = sanitizeLower toLower repository 64)).map fun i => i.1.name :=
      List.mem_mergeSort.mp hmem
    obtain ⟨i, hi, rfl⟩ := List.mem_map.mp hmem
    exact hplain i.1 i.2 ((GoMap.mem_entries_iff _ _ _).mp (List.mem_filter.mp hi).1)
  intro repository _ k hk k' hk' hle
  have hmono := lowered_mono (hname repository k hk) (hname repository k' hk') hle
    (sanitizeControlBytes (repository.dropWhile isSpace) ++ ['/']) 255
  rw [← sanitizeLower_path (hname repository k hk), ← sanitizeLower_path (hname repository k' hk')]
    at hmono
  show startAt _ ≤ startAt _
  unfold startAt
  split_ifs with hfirst hsecond hsecond
  · exact le_rfl
  · exact bot_le
  · rw [hsecond] at hmono
    exact absurd (le_antisymm hmono (not_lt.mp (List.not_lt_nil _))) hfirst
  · exact WithBot.coe_le_coe.mpr hmono

theorem allReadable_of_public
    (hpublic : ∀ repository visibility, st.repositories.load repository = some visibility →
      equalFold visibility visPublic = true ∧ '/' ∉ trimSlashes repository ∧
        ∀ name ∈ st.images.imageNames (sanitizeLower toLower repository 64),
          (lockImage toLower repository name).isSome)
    (hprivate : ∀ image, st.images.privateImages image = false)
    (hlocks : resourceLocksQuery st.images.tables = []) : st.AllReadable toLower user := by
  intro repository visibility hload
  obtain ⟨hvisible, hslash, hnames⟩ := hpublic repository visibility hload
  constructor
  · unfold ImageStore.canReadDocker ImageStore.canReadRepository
    simp [hslash, hvisible]
  · intro names hmem
    by_cases hempty : names = []
    · unfold ImageStore.filterReadableDockerImages
      rw [if_pos hempty, hempty]
    · have hmembers : st.images.dockerImageMembers toLower repository user.username [] =
          some fun _ => false := by
        unfold ImageStore.dockerImageMembers
        simp
      have hlockable : (names.any fun name => (lockImage toLower repository name).isNone) = false := by
        rw [List.any_eq_false]
        intro name hname
        simp [Option.isSome_iff_ne_none.mp (hnames name (hmem name hname))]
      have hallowed : st.images.resourceMetadataVisibility toLower repository user.username
          (user.checkModeratePermission repository) names = some fun _ => true := by
        unfold ImageStore.resourceMetadataVisibility
        simp [hlockable, hlocks]
      unfold ImageStore.filterReadableDockerImages
      simp [hempty, hprivate, hmembers, hallowed]

def hub : Text := ['h', 'u', 'b']
def nginx : Text := ['n', 'g', 'i', 'n', 'x']
def redis : Text := ['r', 'e', 'd', 'i', 's']

def hubStore : BlobStore where
  images := {
    tables := {
      images := (GoMap.store ∅ ⟨hub, redis⟩ ⟨['u'], [], true⟩).store ⟨hub, nginx⟩ ⟨['u'], [], true⟩
      manifests := ∅
      tags := GoMap.store ∅ (⟨hub, nginx⟩, ['v', '1']) ⟨sharedLayer, [], 2, [], ['u']⟩
      blobs := ∅
      imageBlobs := ∅
      locks := ∅
      lockVersions := ∅ }
    privateImages := fun _ => false
    members := ∅
    superTeamMembers := ∅
    profiles := ∅
    deprecated := fun _ => false
    members_named := members_of_empty
    superTeamMembers_named := superTeamMembers_of_empty }
  repositories := GoMap.store ∅ hub visPublic
  files := ∅

def hubReader : User := ⟨guest, []⟩

def nginxRequest : ReadRequest := ⟨hubReader, true, hub ++ '/' :: nginx⟩

theorem hubStore_names : hubStore.images.imageNames hub = [nginx, redis] :=
  List.mergeSort_of_pairwise (by decide +kernel)

theorem hubStore_readable : hubStore.AllReadable Char.toLower hubReader := by
  apply allReadable_of_public
  · intro repository visibility hload
    have hpair : (repository, visibility) = (hub, visPublic) := by
      rw [show hubStore.repositories = GoMap.store ∅ hub visPublic from rfl, GoMap.load_store] at hload
      split_ifs at hload with h
      · rw [h, Option.some.inj hload]
      · cases hload
    obtain ⟨rfl, rfl⟩ := Prod.mk.inj hpair
    have hkey : sanitizeLower Char.toLower hub 64 = hub := by decide +kernel
    rw [hkey, hubStore_names]
    decide +kernel
  · exact fun _ => rfl
  · decide +kernel

theorem plain_of_all {name : Text} (h : (name.all fun c => decide (isSpace c = false ∧
    (32 ≤ c.val ∧ c.val ≠ 127) ∧ c.utf8Size = 1 ∧ c.toLower = c)) = true) :
    ∀ c ∈ name, Plain Char.toLower c := by
  intro c hc
  have hplain := List.all_eq_true.mp h c hc
  rw [decide_eq_true_eq] at hplain
  exact hplain

theorem hubStore_plain : hubStore.ImagesPlain Char.toLower := by
  intro image row hload
  change ((GoMap.store ∅ ⟨hub, redis⟩ _).store ⟨hub, nginx⟩ _).load image = some row at hload
  rw [GoMap.load_store, GoMap.load_store] at hload
  split_ifs at hload with hnginx hredis
  · rw [hnginx]
    exact plain_of_all (by decide)
  · rw [hredis]
    exact plain_of_all (by decide)
  · cases hload

def hubListing : Listing Text Text := hubStore.catalogListing Char.toLower (n := 1) one_pos

end RenoP.Docker
