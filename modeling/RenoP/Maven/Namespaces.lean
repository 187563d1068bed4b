import RenoP.Maven.Access
import RenoP.Maven.Claims
import RenoP.Maven.DomainTeam

/-!
# The namespace of a publication

When the domain that authorises an upload is the one under which the catalog takes the artifact.
-/

namespace RenoP.Maven

open RenoP.Database (Text)
open Fallible (refuse refuse_ok bind_ok refuse_bind_ok)

variable {env : Outside} {t : Tables} {user path : Text}

theorem joinDots_append (parts : List Text) (hne : parts ≠ []) (more : Text) (rest : List Text) :
    joinDots (parts ++ more :: rest) = joinDots parts ++ '.' :: joinDots (more :: rest) := by
  unfold joinDots
  induction parts with
  | nil => exact absurd rfl hne
  | cons part parts ih =>
    cases parts with
    | nil => simp
    | cons next parts =>
      have hi := ih (by simp)
      simp only [List.cons_append, List.intercalate_cons_cons] at hi ⊢
      rw [hi]
      simp

theorem parseArtifactPath_ok {c : MavenCoordinate} (h : parseArtifactPath path = some c) :
    ∃ group filename, pathParts path = (group ++ [c.artifactID, c.version]) ++ [filename] ∧
      c.groupID = joinDots group ∧ 2 ≤ group.length ∧
      (pathParts path).length ≤ maxMavenPathParts ∧
      (group ++ [c.artifactID, c.version]).all validMavenCoordinatePart = true := by
  unfold parseArtifactPath at h
  dsimp only at h
  split_ifs at h with hlength
  split at h
  · rename_i filename version artifactID group hreverse
    split_ifs at h with _ hvalid hgroup
    cases h
    have hparts : pathParts path = (group.reverse ++ [artifactID, version]) ++ [filename] := by
      rw [← List.reverse_reverse (pathParts path), hreverse]
      simp
    obtain ⟨htwo, hvalid⟩ := not_or.mp hvalid
    obtain ⟨hartifact, hversion⟩ := not_or.mp hvalid
    refine ⟨group.reverse, filename, hparts, rfl, Nat.not_lt.mp htwo, ?_, ?_⟩
    · exact Nat.not_lt.mp (not_or.mp hlength).2
    · rw [List.all_append, Bool.and_eq_true]
      refine ⟨Bool.not_eq_false _ |>.mp hgroup, ?_⟩
      simp only [List.all_cons, List.all_nil, Bool.and_true, Bool.and_eq_true]
      exact ⟨Bool.not_eq_false _ |>.mp hartifact, Bool.not_eq_false _ |>.mp hversion⟩
  · cases h

theorem parseArtifactPath_candidate {c : MavenCoordinate} (h : parseArtifactPath path = some c) :
    domainContainsGroup (lower c.groupID) (pathNamespaceCandidate path) = true := by
  obtain ⟨group, filename, hparts, hgroup, htwo, hshort, hall⟩ := parseArtifactPath_ok h
  have hne : group ≠ [] := by
    intro hnil
    rw [hnil] at htwo
    cases htwo
  have hlong : 2 ≤ (pathParts path).length := by
    rw [hparts]
    simp
  have hcandidate : pathNamespaceCandidate path =
      lower c.groupID ++ '.' :: lower (joinDots [c.artifactID, c.version]) := by
    unfold pathNamespaceCandidate
    dsimp only
    rw [if_neg (by omega), hparts, List.dropLast_concat, if_neg (by rw [hall]; exact nofun),
      joinDots_append _ hne, ← hgroup, lower, List.map_append, List.map_cons]
    rfl
  rw [hcandidate]
  exact Nested.contains_append ..

theorem validMavenCoordinatePart_text {value : Text} (h : validMavenCoordinatePart value = true) :
    value ≠ [] ∧ ':' ∉ value := by
  unfold validMavenCoordinatePart at h
  split at h
  · cases h
  · rename_i first rest
    simp only [Bool.and_eq_true] at h
    obtain ⟨⟨hfirst, -⟩, hrest⟩ := h
    refine ⟨nofun, ?_⟩
    intro hmem
    rcases List.mem_cons.mp hmem with rfl | hmem
    · exact absurd hfirst (by decide)
    · exact absurd (List.all_eq_true.mp hrest _ hmem) (by decide)

theorem parseArtifactPath_key {c : MavenCoordinate} (h : parseArtifactPath path = some c) :
    c.groupID ≠ [] ∧ c.artifactID ≠ [] ∧ c.version ≠ [] ∧ ':' ∉ c.artifactID := by
  obtain ⟨group, filename, -, hgroup, htwo, -, hall⟩ := parseArtifactPath_ok h
  rw [List.all_append, Bool.and_eq_true] at hall
  simp only [List.all_cons, List.all_nil, Bool.and_true, Bool.and_eq_true] at hall
  obtain ⟨-, hartifact, hversion⟩ := hall
  obtain ⟨hartifact, hcolon⟩ := validMavenCoordinatePart_text hartifact
  refine ⟨?_, hartifact, (validMavenCoordinatePart_text hversion).1, hcolon⟩
  rw [hgroup]
  rcases group with _ | ⟨first, _ | ⟨second, rest⟩⟩
  · cases htwo
  · simp at htwo
  · rw [show first :: second :: rest = [first] ++ second :: rest from rfl,
      joinDots_append _ (by simp)]
    simp

theorem cutLastColon_append (groupID artifactID : Text) (h : ':' ∉ artifactID) :
    cutLastColon (groupID ++ ':' :: artifactID) = some (groupID, artifactID) := by
  have hnone : ∀ text : Text, ':' ∉ text → cutLastColon text = none := by
    intro text
    induction text with
    | nil => exact fun _ => rfl
    | cons c text ih =>
      intro hmem
      obtain ⟨hc, htext⟩ := not_or.mp (mt List.mem_cons.mpr hmem)
      unfold cutLastColon
      rw [ih htext]
      exact if_neg (Ne.symm hc)
  induction groupID with
  | nil =>
    simp only [List.nil_append, cutLastColon, hnone artifactID h, if_true]
  | cons c groupID ih =>
    simp only [List.cons_append, cutLastColon, ih]

theorem byteLength_grows (a s : Text) : byteLength a < byteLength (a ++ '.' :: s) := by
  unfold byteLength
  rw [List.map_append, List.sum_append, List.map_cons, List.sum_cons]
  have hdot : 0 < Char.utf8Size '.' := by decide
  omega

theorem mem_listMavenDomains {includeAll : Bool} {d : ListedDomain} :
    d ∈ listMavenDomains env t user includeAll ↔
      t.domains.load d.domain = some d.row ∧ d = scanMavenDomain env t user d.domain d.row ∧
        (includeAll = true ∨ d.row.verified = true ∨ d.member = true) := by
  unfold listMavenDomains
  dsimp only
  rw [List.mem_filter, List.mem_map]
  constructor
  · rintro ⟨⟨e, hmem, rfl⟩, hseen⟩
    rw [(List.perm_insertionSort _ _).mem_iff, GoMap.mem_entries_iff] at hmem
    simp only [Bool.or_eq_true, or_assoc] at hseen
    exact ⟨hmem, rfl, hseen⟩
  · rintro ⟨hload, hscan, hseen⟩
    refine ⟨⟨⟨d.domain, d.row⟩, ?_, hscan.symm⟩, ?_⟩
    · rw [(List.perm_insertionSort _ _).mem_iff, GoMap.mem_entries_iff]
      exact hload
    · simp only [Bool.or_eq_true, or_assoc]
      exact hseen

theorem scan_mem_listAll (user : Text) {domain : Text} {r : MavenDomain}
    (hload : t.domains.load domain = some r) :
    scanMavenDomain env t user domain r ∈ listMavenDomains env t user true :=
  mem_listMavenDomains.mpr ⟨hload, rfl, Or.inl rfl⟩

theorem matchingDomain_spec {domains : List ListedDomain} {candidate : Text} {d : ListedDomain}
    (h : matchingDomain domains candidate = some d) :
    d ∈ domains ∧ domainContainsGroup d.domain candidate = true ∧
      ∀ e ∈ domains, domainContainsGroup e.domain candidate = true →
        byteLength e.domain ≤ byteLength d.domain :=
  Nested.longest_spec h

theorem authorizeMutation_ok {pathLocked : Text → Bool} {requiredLevel : ℤ} {d : ListedDomain}
    (h : authorizeMutation env t pathLocked user path requiredLevel = .ok d) :
    matchingDomain (listMavenDomains env t user false) (pathNamespaceCandidate path) = some d ∧
      d.row.verified = true ∧ requiredLevel ≤ d.level := by
  obtain ⟨-, h⟩ := refuse_bind_ok h
  obtain ⟨-, h⟩ := refuse_bind_ok h
  obtain ⟨-, h⟩ := refuse_bind_ok h
  split at h
  · cases h
  · rename_i d' hmatching
    obtain ⟨-, h⟩ := refuse_bind_ok h
    obtain ⟨hverified, h⟩ := refuse_bind_ok h
    obtain ⟨hlevel, h⟩ := refuse_bind_ok h
    obtain ⟨-, h⟩ := refuse_bind_ok h
    cases h
    exact ⟨hmatching, Bool.not_eq_false _ |>.mp hverified, Int.not_lt.mp hlevel⟩

theorem publishedDomain_ok {domains : List ListedDomain} {groupID : Text} {d : ListedDomain}
    (h : publishedDomain domains groupID = .ok d) :
    matchingDomain domains (lower groupID) = some d ∧ d.row.verified = true := by
  unfold publishedDomain at h
  split at h
  · cases h
  · split_ifs at h with hverified
    cases h
    rename_i hmatching
    exact ⟨hmatching, hverified⟩

theorem publishedDomain_eq {lister groupID domain : Text} {r : MavenDomain}
    (hload : t.domains.load domain = some r) (hverified : r.verified = true)
    (hcontains : domainContainsGroup domain (lower groupID) = true)
    (hlongest : ∀ name r, t.domains.load name = some r →
      domainContainsGroup name (lower groupID) = true → byteLength name ≤ byteLength domain) :
    publishedDomain (listMavenDomains env t lister true) groupID =
      .ok (scanMavenDomain env t lister domain r) := by
  have hmem := @scan_mem_listAll env t lister domain r hload
  obtain ⟨m, hm⟩ := @Nested.longest_isSome _ _ _ '.' ListedDomain.domain byteLength
    (lower groupID) _ _ hmem hcontains
  obtain ⟨hlisted, hmcontains, hmax⟩ := matchingDomain_spec hm
  obtain ⟨hmload, hmscan, -⟩ := mem_listMavenDomains.mp hlisted
  have hsize : byteLength m.domain = byteLength domain := by
    apply Nat.le_antisymm
    · exact hlongest m.domain m.row hmload hmcontains
    · exact hmax _ hmem hcontains
  have hname := Nested.eq_of_size_eq byteLength_grows hmcontains hcontains hsize
  rw [hname, hload] at hmload
  cases hmload
  rw [hname] at hmscan
  unfold publishedDomain
  rw [show matchingDomain (listMavenDomains env t lister true) (lower groupID) = some m from hm]
  dsimp only
  rw [if_pos hverified, ← hmscan]

theorem recordMavenPublication_ok {p p' : Publication} (h : recordMavenPublication t p = .ok p') :
    p' = p := by
  unfold recordMavenPublication at h
  split at h
  · cases h
  · split_ifs at h
    cases h
    rfl

/-- The catalog takes the artifact of a path under a domain, where the user has the level. -/
structure Catalogued (env : Outside) (t : Tables) (user path : Text) (requiredLevel : ℤ)
    (c : MavenCoordinate) (domain : Text) : Prop where
  recorded : recordPublishedPath env t path user =
    .ok (some ⟨domain, c.groupID, c.artifactID, c.version, user⟩)
  approved : ∀ requestedBy, approvePublicationReview env t
      ⟨c.groupID ++ ':' :: c.artifactID, c.version, requestedBy⟩ =
    .ok ⟨domain, c.groupID, c.artifactID, c.version, requestedBy⟩
  permitted : ∃ d ∈ listMavenDomains env t user true, d.domain = domain ∧ requiredLevel ≤ d.level

/-- No domain that the user sees reaches from the group into the directories below it, and the
user sees a longest of all domains that contain the group. -/
structure NamespaceSeen (env : Outside) (t : Tables) (user path groupID : Text) : Prop where
  inGroup : ∀ d ∈ listMavenDomains env t user false,
    domainContainsGroup d.domain (pathNamespaceCandidate path) = true →
      domainContainsGroup d.domain (lower groupID) = true
  longest : ∀ name r, t.domains.load name = some r →
    domainContainsGroup name (lower groupID) = true →
      ∃ d ∈ listMavenDomains env t user false, domainContainsGroup d.domain (lower groupID) = true ∧
        byteLength name ≤ byteLength d.domain

theorem catalogued_of_seen {pathLocked : Text → Bool} {requiredLevel : ℤ} {d : ListedDomain}
    {c : MavenCoordinate} (hpath : parseArtifactPath path = some c)
    (hauthorized : authorizeMutation env t pathLocked user path requiredLevel = .ok d)
    (hseen : NamespaceSeen env t user path c.groupID) :
    Catalogued env t user path requiredLevel c d.domain := by
  obtain ⟨hmatching, hverified, hlevel⟩ := authorizeMutation_ok hauthorized
  obtain ⟨hlisted, hcontains, hmax⟩ := matchingDomain_spec hmatching
  obtain ⟨hload, hscan, -⟩ := mem_listMavenDomains.mp hlisted
  have hgroup := hseen.inGroup d hlisted hcontains
  have hlongest : ∀ name r, t.domains.load name = some r →
      domainContainsGroup name (lower c.groupID) = true → byteLength name ≤ byteLength d.domain := by
    intro name r hname hin
    obtain ⟨v, hv, hvgroup, hle⟩ := hseen.longest name r hname hin
    have hvpath := Nested.contains_trans hvgroup (parseArtifactPath_candidate hpath)
    exact Nat.le_trans hle (hmax v hv hvpath)
  have hpublished := fun lister =>
    @publishedDomain_eq env t lister c.groupID d.domain d.row hload hverified hgroup hlongest
  have hrecord : ∀ p : Publication, p.domain = d.domain → recordMavenPublication t p = .ok p := by
    intro p hp
    unfold recordMavenPublication
    rw [hp, hload]
    exact if_pos hverified
  obtain ⟨hgroupID, hartifact, hversion, hcolon⟩ := parseArtifactPath_key hpath
  constructor
  · unfold recordPublishedPath
    rw [hpath]
    dsimp only
    rw [hpublished user]
    show (recordMavenPublication t _ >>= fun p => pure (some p)) = _
    rw [hrecord]
    · rfl
    · rfl
  · intro requestedBy
    unfold approvePublicationReview
    dsimp only
    rw [cutLastColon_append _ _ hcolon]
    dsimp only
    rw [hpublished []]
    simp only [refuse, hversion, hgroupID, hartifact, or_self, if_false]
    exact hrecord _ rfl
  · exact ⟨d, mem_listMavenDomains.mpr ⟨hload, hscan, Or.inl rfl⟩, rfl, hlevel⟩

theorem seen_of_catalogued {pathLocked : Text → Bool} {requiredLevel : ℤ} {d : ListedDomain}
    {c : MavenCoordinate} (hpath : parseArtifactPath path = some c)
    (hauthorized : authorizeMutation env t pathLocked user path requiredLevel = .ok d)
    (hcatalogued : Catalogued env t user path requiredLevel c d.domain) :
    NamespaceSeen env t user path c.groupID := by
  obtain ⟨hmatching, -, -⟩ := authorizeMutation_ok hauthorized
  obtain ⟨hlisted, hcontains, hmax⟩ := matchingDomain_spec hmatching
  have hrecorded := hcatalogued.recorded
  unfold recordPublishedPath at hrecorded
  rw [hpath] at hrecorded
  obtain ⟨e, hpublished, hrecorded⟩ := bind_ok hrecorded
  obtain ⟨p, hrecord, hp⟩ := bind_ok hrecorded
  obtain ⟨hselected, -⟩ := publishedDomain_ok hpublished
  obtain ⟨-, hegroup, hemax⟩ := matchingDomain_spec hselected
  have hname : e.domain = d.domain := by
    rw [recordMavenPublication_ok hrecord] at hp
    exact congrArg Publication.domain (Option.some.inj (Except.ok.inj hp))
  rw [hname] at hegroup hemax
  constructor
  · intro v hv hvpath
    have hle := hmax v hv hvpath
    exact Nested.contains_trans
      (Nested.contains_of_size_le byteLength_grows hvpath hcontains hle) hegroup
  · intro name r hload hin
    exact ⟨d, hlisted, hegroup, hemax _ (scan_mem_listAll user hload) hin⟩

/-- Where an upload is authorised, its artifact is catalogued under the domain that authorised it
exactly where the user sees the namespace of the group. -/
theorem publication_namespace_iff {pathLocked : Text → Bool} {requiredLevel : ℤ} {d : ListedDomain}
    {c : MavenCoordinate} (hpath : parseArtifactPath path = some c)
    (hauthorized : authorizeMutation env t pathLocked user path requiredLevel = .ok d) :
    Catalogued env t user path requiredLevel c d.domain ↔
      NamespaceSeen env t user path c.groupID :=
  ⟨seen_of_catalogued hpath hauthorized, catalogued_of_seen hpath hauthorized⟩

/-- The user `u` proves a claim of `de.x`. -/
def ownedNamespace : Tables :=
  next (next ⟨∅, ∅, ∅, ∅⟩ (openOutside, .domain (.createMavenDomain
    ⟨['d', 'e', '.', 'x'], .dns, ['x', '.', 'd', 'e'], ['p'], [], false, 1, 0, none⟩ ['u'])))
    (openOutside, .domain (.markMavenDomainVerified ['d', 'e', '.', 'x'] ['p'] 2 none))

/-- The user `s` claims `de.x.y`, without a proof. -/
def nestedClaim : Tables :=
  next ownedNamespace (openOutside, .domain (.createMavenDomain
    ⟨['d', 'e', '.', 'x', '.', 'y'], .dns, ['x', '.', 'd', 'e'], ['q'], [], false, 3, 0, none⟩
    ['s']))

def nestedPath : Text :=
  ['d', 'e', '/', 'x', '/', 'y', '/', 'a', '/', '1', '/', 'a', '-', '1', '.', 'p', 'o', 'm']

def nestedCoordinate : MavenCoordinate := ⟨['d', 'e', '.', 'x', '.', 'y'], ['a'], ['1']⟩

theorem nestedPath_parsed : parseArtifactPath nestedPath = some nestedCoordinate := by
  decide +kernel

theorem nestedClaim_authorized : ∃ d,
    authorizeMutation openOutside nestedClaim (fun _ => false) ['u'] nestedPath 1 = .ok d := by
  have hok : (authorizeMutation openOutside nestedClaim (fun _ => false) ['u'] nestedPath 1).isOk =
      true := by decide +kernel
  cases h : authorizeMutation openOutside nestedClaim (fun _ => false) ['u'] nestedPath 1 with
  | ok d => exact ⟨d, rfl⟩
  | error err =>
    rw [h] at hok
    cases hok

theorem nestedClaim_refused :
    recordPublishedPath openOutside nestedClaim nestedPath ['u'] = .error .domainUnverified := by
  decide +kernel

/-- The catalog refuses what was authorised, for the claim that nobody proved. -/
theorem nestedClaim_uncatalogued : ∃ d,
    authorizeMutation openOutside nestedClaim (fun _ => false) ['u'] nestedPath 1 = .ok d ∧
      ¬Catalogued openOutside nestedClaim ['u'] nestedPath 1 nestedCoordinate d.domain := by
  obtain ⟨d, hd⟩ := nestedClaim_authorized
  refine ⟨d, hd, ?_⟩
  intro hcatalogued
  have hrecorded := hcatalogued.recorded
  rw [nestedClaim_refused] at hrecorded
  cases hrecorded

theorem nestedClaim_unseen :
    ¬NamespaceSeen openOutside nestedClaim ['u'] nestedPath nestedCoordinate.groupID := by
  obtain ⟨d, hd⟩ := nestedClaim_authorized
  intro hseen
  have hrecorded := ((publication_namespace_iff nestedPath_parsed hd).mpr hseen).recorded
  rw [nestedClaim_refused] at hrecorded
  cases hrecorded

end RenoP.Maven
