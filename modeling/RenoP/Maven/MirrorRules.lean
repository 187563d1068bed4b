import RenoP.Lib.SlashPath
import RenoP.Maven.Namespaces

/-!
# Mirror rules

What the allow and deny lists of a mirror say of a Maven path (`IsArtifactAllowed` with
`parseMavenGroupArtifact` of `internal/config/mirror.go`).
-/

namespace RenoP.Maven

open RenoP.Database (Text trimSpace)

structure Mirror where
  allowArtifacts : List Text
  denyArtifacts : List Text

def trimSlashes (path : Text) : Text :=
  ((path.dropWhile (· = '/')).reverse.dropWhile (· = '/')).reverse

/-- `unicode.ToUpper` for the runes that become letters of `SNAPSHOT` -/
def upperRune (c : Char) : Char := if c = 'ſ' then 'S' else c.toUpper

def looksLikeMavenVersion (s : Text) : Bool :=
  match s with
  | [] => false
  | first :: _ =>
    if '.' ∈ s ∨ (s.map upperRune).tails.any ("SNAPSHOT".toList.isPrefixOf ·) = true then true
    else decide ('0' ≤ first) && decide (first ≤ '9')

def isMetadataFile (file : Text) : Bool :=
  decide (file = metadataName) || (metadataName ++ ['.']).isPrefixOf file

/-- The group and the artifact id. The parts are those of the path from the last on. -/
def parseMavenGroupArtifact (path : Text) : Text × Text :=
  let clean := trimSlashes path
  if clean = [] then ([], [])
  else
    match (clean.splitOn '/').reverse with
    | file :: last :: before =>
      if isMetadataFile file then
        match before with
        | artifactID :: group =>
          if looksLikeMavenVersion last then (joinDots group.reverse, artifactID)
          else (joinDots before.reverse, last)
        | [] => ([], last)
      else
        match before with
        | artifactID :: group => (joinDots group.reverse, artifactID)
        | [] => (last, [])
    | _ => ([], [])

/-- The function `match` of a pattern. -/
def matchRule (group artifactID pattern : Text) : Bool :=
  let ga := if artifactID ≠ [] then group ++ ':' :: artifactID else group
  let pattern := trimSpace pattern
  if pattern = [] then false
  else if pattern = group ∨ pattern = ga then true
  else if group ≠ [] ∧ (pattern ++ ['.']).isPrefixOf group = true then true
  else false

def isArtifactAllowed (m : Mirror) (path : Text) : Bool × Text :=
  let hasAllow := !m.allowArtifacts.isEmpty
  let hasDeny := !m.denyArtifacts.isEmpty
  if !hasAllow && !hasDeny then (true, [])
  else if hasAllow && hasDeny then (false, "Both allow and deny rules enabled on mirror".toList)
  else
    let clean := trimSlashes path
    let (group, artifactID) := parseMavenGroupArtifact path
    if hasAllow then
      if m.allowArtifacts.any (matchRule group artifactID) then (true, [])
      else (false, "Artifact blocked: Not in mirror allow list (".toList ++ clean ++ [')'])
    else if m.denyArtifacts.any (matchRule group artifactID) then
      (false, "Artifact blocked: In mirror deny list (".toList ++ clean ++ [')'])
    else (true, [])

structure Coordinates where
  group : List Text
  group_ne : group ≠ []
  segments : ∀ s ∈ group, s ≠ [] ∧ '/' ∉ s ∧ '.' ∉ s
  artifactID : Text
  artifact : artifactID ≠ [] ∧ '/' ∉ artifactID
  version : Text
  versioned : version ≠ [] ∧ '/' ∉ version

def joinSlashes (parts : List Text) : Text := ['/'].intercalate parts

inductive PathOf (c : Coordinates) : Text → Prop
  | file {name} (h : name ≠ [] ∧ '/' ∉ name) (hfile : isMetadataFile name = false) :
      PathOf c (joinSlashes (c.group ++ [c.artifactID, c.version, name]))
  | metadata {name} (h : '/' ∉ name) (hfile : isMetadataFile name = true) :
      PathOf c (joinSlashes (c.group ++ [c.artifactID, name]))
  | versionMetadata {name} (h : '/' ∉ name) (hfile : isMetadataFile name = true) :
      PathOf c (joinSlashes (c.group ++ [c.artifactID, c.version, name]))

theorem trimSlashes_join {parts : List Text} (hne : parts ≠ [])
    (hparts : ∀ p ∈ parts, p ≠ [] ∧ '/' ∉ p) :
    trimSlashes (joinSlashes parts) = joinSlashes parts ∧ joinSlashes parts ≠ [] := by
  have hstart : ∀ (s : Text) (c : Char), c ≠ '/' →
      (c :: s).dropWhile (fun d => decide (d = '/')) = c :: s := by
    intro s c hc
    rw [List.dropWhile_cons_of_neg (by simpa using hc)]
  have hfirst : ∃ c s, joinSlashes parts = c :: s ∧ c ≠ '/' := by
    obtain ⟨p, ps, rfl⟩ := List.exists_cons_of_ne_nil hne
    obtain ⟨hp, hslash⟩ := hparts p (List.mem_cons_self ..)
    obtain ⟨c, s, rfl⟩ := List.exists_cons_of_ne_nil hp
    have hc : c ≠ '/' := fun he => hslash (he ▸ List.mem_cons_self ..)
    cases ps with
    | nil => exact ⟨c, s, by simp [joinSlashes], hc⟩
    | cons q qs => exact ⟨c, _, by rw [joinSlashes, List.intercalate_cons_cons]; rfl, hc⟩
  have hlast : ∃ c s, joinSlashes parts = s ++ [c] ∧ c ≠ '/' := by
    obtain ⟨ps, p, rfl⟩ := (List.eq_nil_or_concat parts).resolve_left hne
    rw [List.concat_eq_append] at hparts ⊢
    obtain ⟨hp, hslash⟩ := hparts p (by simp)
    obtain ⟨s, c, rfl⟩ := (List.eq_nil_or_concat p).resolve_left hp
    rw [List.concat_eq_append] at hslash ⊢
    have hc : c ≠ '/' := fun he => hslash (by simp [he])
    cases ps with
    | nil => exact ⟨c, s, by simp [joinSlashes], hc⟩
    | cons q qs =>
      rw [joinSlashes, SlashPath.intercalate_concat _ _ (List.cons_ne_nil _ _)]
      exact ⟨c, ['/'].intercalate (q :: qs) ++ '/' :: s, by simp, hc⟩
  obtain ⟨c, s, hcs, hc⟩ := hfirst
  obtain ⟨d, t, htd, hd⟩ := hlast
  refine ⟨?_, by rw [hcs]; exact List.cons_ne_nil _ _⟩
  unfold trimSlashes
  rw [hcs, hstart s c hc, ← hcs, htd, List.reverse_append, List.reverse_singleton,
    List.singleton_append, hstart _ d hd]
  simp

theorem parse_parts (parts : List Text) (hne : parts ≠ [])
    (hparts : ∀ p ∈ parts, p ≠ [] ∧ '/' ∉ p) :
    trimSlashes (joinSlashes parts) ≠ [] ∧
      ((trimSlashes (joinSlashes parts)).splitOn '/').reverse = parts.reverse := by
  obtain ⟨htrim, hpath⟩ := trimSlashes_join hne hparts
  rw [htrim]
  refine ⟨hpath, ?_⟩
  rw [joinSlashes, List.splitOn_intercalate '/' (fun p hp => (hparts p hp).2) hne]

section

variable (c : Coordinates)

def Coordinates.groupID : Text := joinDots c.group

def Coordinates.parent : Text := joinDots c.group.dropLast

def Coordinates.leaf : Text := c.group.getLast c.group_ne

theorem Coordinates.parts {more : List Text} (h : ∀ p ∈ more, p ≠ [] ∧ '/' ∉ p) :
    ∀ p ∈ c.group ++ more, p ≠ [] ∧ '/' ∉ p := by
  intro p hp
  rcases List.mem_append.mp hp with hp | hp
  · obtain ⟨hne, hslash, -⟩ := c.segments p hp
    exact ⟨hne, hslash⟩
  · exact h p hp

theorem metadataFile_ne {name : Text} (h : isMetadataFile name = true) : name ≠ [] := by
  rintro rfl
  exact absurd h (by decide)

theorem parse_file {name : Text} (h : name ≠ [] ∧ '/' ∉ name) (hfile : isMetadataFile name = false) :
    parseMavenGroupArtifact (joinSlashes (c.group ++ [c.artifactID, c.version, name])) =
      (c.groupID, c.artifactID) := by
  obtain ⟨hne, hparts⟩ := parse_parts (c.group ++ [c.artifactID, c.version, name])
    (by simp) (c.parts (by simp [c.artifact, c.versioned, h]))
  unfold parseMavenGroupArtifact
  rw [if_neg hne, hparts]
  simp [hfile, Coordinates.groupID]

theorem parse_version {name : Text} (h : '/' ∉ name) (hfile : isMetadataFile name = true) :
    parseMavenGroupArtifact (joinSlashes (c.group ++ [c.artifactID, c.version, name])) =
      if looksLikeMavenVersion c.version then (c.groupID, c.artifactID)
      else (c.groupID ++ '.' :: c.artifactID, c.version) := by
  obtain ⟨hne, hparts⟩ := parse_parts (c.group ++ [c.artifactID, c.version, name])
    (by simp) (c.parts (by simp [c.artifact, c.versioned, h, metadataFile_ne hfile]))
  have hjoin := joinDots_append c.group c.group_ne c.artifactID []
  have hsingle : joinDots [c.artifactID] = c.artifactID := by simp [joinDots]
  rw [hsingle] at hjoin
  unfold parseMavenGroupArtifact
  rw [if_neg hne, hparts]
  simp [hfile, Coordinates.groupID, hjoin]

theorem parse_metadata {name : Text} (h : '/' ∉ name) (hfile : isMetadataFile name = true) :
    parseMavenGroupArtifact (joinSlashes (c.group ++ [c.artifactID, name])) =
      if looksLikeMavenVersion c.artifactID then (c.parent, c.leaf)
      else (c.groupID, c.artifactID) := by
  obtain ⟨hne, hparts⟩ := parse_parts (c.group ++ [c.artifactID, name])
    (by simp) (c.parts (by simp [c.artifact, h, metadataFile_ne hfile]))
  have hback : c.group.dropLast ++ [c.leaf] = c.group := List.dropLast_append_getLast c.group_ne
  have hgroup : c.group.reverse = c.leaf :: c.group.dropLast.reverse := by
    rw [← hback]
    simp
  unfold parseMavenGroupArtifact
  rw [if_neg hne, hparts]
  simp [hfile, hgroup, hback, Coordinates.groupID, Coordinates.parent]

end

def Mirror.patterns (m : Mirror) : List Text :=
  ((m.allowArtifacts ++ m.denyArtifacts).map trimSpace).filter (· ≠ [])

def Covers (group artifactID pattern : Text) : Prop :=
  pattern = group ∨ pattern = group ++ ':' :: artifactID ∨ pattern ++ ['.'] <+: group

def Mirror.OneList (m : Mirror) : Prop := m.allowArtifacts = [] ↔ m.denyArtifacts ≠ []

def Mirror.Allows (m : Mirror) (group artifactID : Text) : Prop :=
  if m.denyArtifacts = [] then ∃ pattern ∈ m.patterns, Covers group artifactID pattern
  else ¬∃ pattern ∈ m.patterns, Covers group artifactID pattern

theorem matchRule_iff {group artifactID rule : Text} (hne : artifactID ≠ []) :
    matchRule group artifactID rule = true ↔
      trimSpace rule ≠ [] ∧ Covers group artifactID (trimSpace rule) := by
  unfold matchRule Covers
  simp only [if_pos hne]
  split_ifs with hempty hsame hbefore
  · simp [hempty]
  · simpa [hempty] using or_assoc.mp (.inl hsame)
  · simpa [hempty] using .inr (.inr (List.isPrefixOf_iff_prefix.mp hbefore.2))
  · refine iff_of_false nofun ?_
    rintro ⟨-, h | h | h⟩
    · exact hsame (.inl h)
    · exact hsame (.inr h)
    · refine hbefore ⟨?_, List.isPrefixOf_iff_prefix.mpr h⟩
      rintro rfl
      exact absurd (List.prefix_nil.mp h) (by simp)

theorem any_matchRule (m : Mirror) (rules : List Text) (group : Text) {artifactID : Text}
    (hne : artifactID ≠ []) (hrules : m.patterns = (rules.map trimSpace).filter (· ≠ [])) :
    rules.any (matchRule group artifactID) = true ↔
      ∃ pattern ∈ m.patterns, Covers group artifactID pattern := by
  rw [List.any_eq_true, hrules]
  constructor
  · rintro ⟨rule, hrule, hmatch⟩
    obtain ⟨hempty, hcovers⟩ := (matchRule_iff hne).mp hmatch
    exact ⟨trimSpace rule, by simp [hempty]; exact ⟨rule, hrule, rfl⟩, hcovers⟩
  · rintro ⟨pattern, hpattern, hcovers⟩
    obtain ⟨hmem, hempty⟩ := List.mem_filter.mp hpattern
    obtain ⟨rule, hrule, rfl⟩ := List.mem_map.mp hmem
    exact ⟨rule, hrule, (matchRule_iff hne).mpr ⟨by simpa using hempty, hcovers⟩⟩

theorem isArtifactAllowed_iff {m : Mirror} (hone : m.OneList) {path group artifactID : Text}
    (hparse : parseMavenGroupArtifact path = (group, artifactID)) (hne : artifactID ≠ []) :
    (isArtifactAllowed m path).1 = true ↔ m.Allows group artifactID := by
  unfold isArtifactAllowed Mirror.Allows
  simp only [hparse]
  generalize "Both allow and deny rules enabled on mirror".toList = both
  generalize "Artifact blocked: Not in mirror allow list (".toList = blocked
  generalize "Artifact blocked: In mirror deny list (".toList = denied
  cases hallow : m.allowArtifacts with
  | nil =>
    have hdeny : m.denyArtifacts ≠ [] := hone.mp hallow
    have hmatch := any_matchRule m m.denyArtifacts group hne
      (by simp [Mirror.patterns, hallow])
    rw [if_neg hdeny, ← hmatch]
    cases hany : m.denyArtifacts.any (matchRule group artifactID) with
    | true => simp [hdeny]
    | false => simp [hdeny]
  | cons rule rules =>
    have hdeny : m.denyArtifacts = [] := by
      by_contra hdeny
      exact absurd (hone.mpr hdeny) (by simp [hallow])
    have hmatch := any_matchRule m m.allowArtifacts group hne
      (by simp [Mirror.patterns, hdeny])
    rw [if_pos hdeny, ← hmatch, hallow]
    cases hany : (rule :: rules).any (matchRule group artifactID) with
    | true => simp [hdeny]
    | false => simp [hdeny]

section

variable (m : Mirror) (c : Coordinates)

/-- An artifact id that looks like a version has its metadata judged as the group's last segment,
and a version that does not look like one has its metadata judged as an artifact of its own. That
does no harm where the rules say the same of both. -/
def JudgedAlike : Prop :=
  (looksLikeMavenVersion c.artifactID = true →
    (∃ pattern ∈ m.patterns, pattern ++ ['.'] <+: c.groupID) ∨
    ((∃ pattern ∈ m.patterns, pattern = c.groupID ∨ pattern = c.groupID ++ ':' :: c.artifactID) ↔
      c.parent ++ ':' :: c.leaf ∈ m.patterns)) ∧
  (looksLikeMavenVersion c.version = false →
    (∃ pattern ∈ m.patterns, domainContainsGroup pattern c.groupID = true) ∨
    (c.groupID ++ ':' :: c.artifactID ∈ m.patterns ↔
      ∃ pattern ∈ m.patterns, Covers (c.groupID ++ '.' :: c.artifactID) c.version pattern))

theorem Coordinates.leaf_segment : c.leaf ≠ [] ∧ '.' ∉ c.leaf := by
  obtain ⟨hne, -, hdot⟩ := c.segments c.leaf (List.getLast_mem c.group_ne)
  exact ⟨hne, hdot⟩

theorem Coordinates.groupID_cases :
    (c.groupID = c.leaf ∧ c.parent = []) ∨ c.groupID = c.parent ++ '.' :: c.leaf := by
  have hback : c.group.dropLast ++ [c.leaf] = c.group := List.dropLast_append_getLast c.group_ne
  cases hparent : c.group.dropLast with
  | nil =>
    left
    rw [hparent] at hback
    rw [Coordinates.groupID, Coordinates.parent, hparent, ← hback]
    simp [joinDots]
  | cons part parts =>
    right
    rw [hparent] at hback
    have hjoin := joinDots_append (part :: parts) (List.cons_ne_nil _ _) c.leaf []
    rw [Coordinates.groupID, Coordinates.parent, hparent, ← hback, hjoin]
    simp [joinDots]

theorem covers_parent {pattern : Text} (hne : pattern ≠ []) :
    Covers c.parent c.leaf pattern ↔
      pattern ++ ['.'] <+: c.groupID ∨ pattern = c.parent ++ ':' :: c.leaf := by
  obtain ⟨-, hdot⟩ := c.leaf_segment
  unfold Covers
  rcases c.groupID_cases with ⟨hgroup, hparent⟩ | hgroup
  · have hbefore : ¬pattern ++ ['.'] <+: c.groupID := by
      rw [hgroup]
      exact fun h => hdot (h.subset (by simp))
    rw [hparent]
    simp [hbefore, hne]
  · rw [hgroup, Nested.before_label hdot, Nested.contains, Bool.or_eq_true, decide_eq_true_eq,
      List.isPrefixOf_iff_prefix, eq_comm (a := c.parent), or_assoc]
    exact or_congr_right or_comm

theorem parent_alike : ((∃ pattern ∈ m.patterns, Covers c.parent c.leaf pattern) ↔
      ∃ pattern ∈ m.patterns, Covers c.groupID c.artifactID pattern) ↔
    (∃ pattern ∈ m.patterns, pattern ++ ['.'] <+: c.groupID) ∨
      ((∃ pattern ∈ m.patterns, pattern = c.groupID ∨
        pattern = c.groupID ++ ':' :: c.artifactID) ↔ c.parent ++ ':' :: c.leaf ∈ m.patterns) := by
  have hparent : (∃ pattern ∈ m.patterns, Covers c.parent c.leaf pattern) ↔
      (∃ pattern ∈ m.patterns, pattern ++ ['.'] <+: c.groupID) ∨
        c.parent ++ ':' :: c.leaf ∈ m.patterns := by
    constructor
    · rintro ⟨pattern, hmem, hcovers⟩
      have hne : pattern ≠ [] := by simpa using (List.mem_filter.mp hmem).2
      rcases (covers_parent c hne).mp hcovers with hbefore | rfl
      · exact .inl ⟨pattern, hmem, hbefore⟩
      · exact .inr hmem
    · rintro (⟨pattern, hmem, hbefore⟩ | hmem)
      · have hne : pattern ≠ [] := by simpa using (List.mem_filter.mp hmem).2
        exact ⟨pattern, hmem, (covers_parent c hne).mpr (.inl hbefore)⟩
      · exact ⟨_, hmem, .inr (.inl rfl)⟩
  have hgroup : (∃ pattern ∈ m.patterns, Covers c.groupID c.artifactID pattern) ↔
      (∃ pattern ∈ m.patterns, pattern ++ ['.'] <+: c.groupID) ∨
        ∃ pattern ∈ m.patterns, pattern = c.groupID ∨
          pattern = c.groupID ++ ':' :: c.artifactID := by
    rw [← exists_or]
    refine exists_congr fun pattern => ?_
    unfold Covers
    rw [← and_or_left, ← or_assoc, or_comm]
  rw [hparent, hgroup]
  by_cases hbefore : ∃ pattern ∈ m.patterns, pattern ++ ['.'] <+: c.groupID
  · simp only [hbefore, true_or]
  · simp only [hbefore, false_or]
    exact iff_comm

theorem version_alike :
    ((∃ pattern ∈ m.patterns, Covers (c.groupID ++ '.' :: c.artifactID) c.version pattern) ↔
      ∃ pattern ∈ m.patterns, Covers c.groupID c.artifactID pattern) ↔
    (∃ pattern ∈ m.patterns, domainContainsGroup pattern c.groupID = true) ∨
      (c.groupID ++ ':' :: c.artifactID ∈ m.patterns ↔
        ∃ pattern ∈ m.patterns, Covers (c.groupID ++ '.' :: c.artifactID) c.version pattern) := by
  have hcontains : ∀ pattern, domainContainsGroup pattern c.groupID = true ↔
      pattern = c.groupID ∨ pattern ++ ['.'] <+: c.groupID := by
    intro pattern
    rw [domainContainsGroup, Nested.contains, Bool.or_eq_true, decide_eq_true_eq,
      List.isPrefixOf_iff_prefix, eq_comm (a := c.groupID)]
  have hgroup : (∃ pattern ∈ m.patterns, Covers c.groupID c.artifactID pattern) ↔
      (∃ pattern ∈ m.patterns, domainContainsGroup pattern c.groupID = true) ∨
        c.groupID ++ ':' :: c.artifactID ∈ m.patterns := by
    constructor
    · rintro ⟨pattern, hmem, h | rfl | h⟩
      · exact .inl ⟨pattern, hmem, (hcontains pattern).mpr (.inl h)⟩
      · exact .inr hmem
      · exact .inl ⟨pattern, hmem, (hcontains pattern).mpr (.inr h)⟩
    · rintro (⟨pattern, hmem, h⟩ | hmem)
      · rcases (hcontains pattern).mp h with h | h
        · exact ⟨pattern, hmem, .inl h⟩
        · exact ⟨pattern, hmem, .inr (.inr h)⟩
      · exact ⟨_, hmem, .inr (.inl rfl)⟩
  -- a pattern that contains the group is before a longer one as well
  have hinner : (∃ pattern ∈ m.patterns, domainContainsGroup pattern c.groupID = true) →
      ∃ pattern ∈ m.patterns, Covers (c.groupID ++ '.' :: c.artifactID) c.version pattern := by
    rintro ⟨pattern, hmem, h⟩
    refine ⟨pattern, hmem, .inr (.inr ?_)⟩
    have happend : c.groupID ++ '.' :: c.artifactID = (c.groupID ++ ['.']) ++ c.artifactID := by
      simp
    rw [happend]
    exact (Nested.contains_iff.mp h).trans (List.prefix_append ..)
  rw [hgroup]
  by_cases houter : ∃ pattern ∈ m.patterns, domainContainsGroup pattern c.groupID = true
  · simp only [houter, hinner houter, true_or]
  · simp only [houter, false_or]
    exact iff_comm

/-- All paths of an artifact are judged by its coordinates exactly where the rules cannot tell the
coordinates from what its metadata is taken for. -/
theorem mirror_rules_iff (hone : m.OneList) :
    (∀ path, PathOf c path →
      ((isArtifactAllowed m path).1 = true ↔ m.Allows c.groupID c.artifactID)) ↔ JudgedAlike m c := by
  have hallows : ∀ group artifactID, (m.Allows group artifactID ↔ m.Allows c.groupID c.artifactID) ↔
      ((∃ pattern ∈ m.patterns, Covers group artifactID pattern) ↔
        ∃ pattern ∈ m.patterns, Covers c.groupID c.artifactID pattern) := by
    intro group artifactID
    unfold Mirror.Allows
    split_ifs
    · exact Iff.rfl
    · exact not_iff_not
  have hmetadata : '/' ∉ metadataName ∧ isMetadataFile metadataName = true := by decide
  constructor
  · intro h
    constructor
    · intro hlooks
      have hparse := parse_metadata c hmetadata.1 hmetadata.2
      rw [if_pos hlooks] at hparse
      rw [← parent_alike, ← hallows, ← isArtifactAllowed_iff hone hparse c.leaf_segment.1]
      exact h _ (.metadata hmetadata.1 hmetadata.2)
    · intro hlooks
      have hparse := parse_version c hmetadata.1 hmetadata.2
      rw [if_neg (by simp [hlooks])] at hparse
      rw [← version_alike, ← hallows, ← isArtifactAllowed_iff hone hparse c.versioned.1]
      exact h _ (.versionMetadata hmetadata.1 hmetadata.2)
  · rintro ⟨hartifact, hversion⟩ path hpath
    cases hpath with
    | file hname hfile =>
      exact isArtifactAllowed_iff hone (parse_file c hname hfile) c.artifact.1
    | metadata hname hfile =>
      have hparse := parse_metadata c hname hfile
      split_ifs at hparse with hlooks
      · rw [isArtifactAllowed_iff hone hparse c.leaf_segment.1, hallows, parent_alike]
        exact hartifact hlooks
      · exact isArtifactAllowed_iff hone hparse c.artifact.1
    | versionMetadata hname hfile =>
      have hparse := parse_version c hname hfile
      split_ifs at hparse with hlooks
      · exact isArtifactAllowed_iff hone hparse c.artifact.1
      · rw [isArtifactAllowed_iff hone hparse c.versioned.1, hallows, version_alike]
        exact hversion (by simpa using hlooks)

end

def widget : Coordinates where
  group := ["com".toList, "example".toList]
  group_ne := List.cons_ne_nil _ _
  segments := by decide
  artifactID := "widget".toList
  artifact := by decide
  version := "1.0".toList
  versioned := by decide

theorem mirror_rules_widget : JudgedAlike ⟨["com.example:widget".toList], []⟩ widget ∧
    ∀ path, PathOf widget path → ((isArtifactAllowed ⟨["com.example:widget".toList], []⟩ path).1 =
      true ↔ Mirror.Allows ⟨["com.example:widget".toList], []⟩ widget.groupID widget.artifactID) := by
  have halike : JudgedAlike ⟨["com.example:widget".toList], []⟩ widget :=
    ⟨fun h => absurd h (by decide +kernel), fun h => absurd h (by decide +kernel)⟩
  exact ⟨halike, (mirror_rules_iff ⟨["com.example:widget".toList], []⟩ widget
    (by simp [Mirror.OneList])).mpr halike⟩

def toolCore : Coordinates where
  group := ["com".toList, "evil".toList]
  group_ne := List.cons_ne_nil _ _
  segments := by decide
  artifactID := "tool.core".toList
  artifact := by decide
  version := "1.0".toList
  versioned := by decide

/-- The metadata of `com.evil:tool.core` passes a deny list with `com.evil`. -/
theorem dotted_artifact_passes : ¬∀ path, PathOf toolCore path →
    ((isArtifactAllowed ⟨[], ["com.evil".toList]⟩ path).1 = true ↔
      Mirror.Allows ⟨[], ["com.evil".toList]⟩ toolCore.groupID toolCore.artifactID) := by
  intro h
  have hallowed := (h _ (@PathOf.metadata toolCore metadataName (by decide) (by decide))).mp
    (by decide +kernel)
  exact hallowed ⟨"com.evil".toList, by decide +kernel, .inl (by decide +kernel)⟩

end RenoP.Maven
