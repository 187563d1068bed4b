import Mathlib.Data.List.GetD
import RenoP.Lib.SlashPath
import RenoP.Maven.PathLockNames

/-!
# The paths that a lock covers

The paths for which `GetMavenPathLocks` with descendants returns a lock on an artifact or on one of
its versions.
-/

namespace RenoP.Maven

open RenoP.Database (Text trimSpace isSpace)
open RenoP.Docker (validLockVersion)

variable {host : Host} {db : LockTables} {repository path : Text}

def Host.names (host : Host) (n : ℕ) (parts : List Text) : List Text :=
  (parts.take n).map host.lower ++ (parts.drop n).map host.key

structure LockedArtifact (host : Host) where
  labels : List Text
  artifact : Text
  two_labels : 2 ≤ labels.length
  label_ok : ∀ label ∈ labels, '.' ∉ label ∧ ':' ∉ label ∧ host.lower label = label
  artifact_ok : ':' ∉ artifact ∧ host.key artifact = artifact
  trimmed : trimSpace (joinDots labels ++ ':' :: artifact) = joinDots labels ++ ':' :: artifact

namespace LockedArtifact

variable (a : LockedArtifact host)

def name : Text := joinDots a.labels ++ ':' :: a.artifact

def dir : List Text := a.labels ++ [a.artifact]

def names (path : Text) : List Text := host.names a.labels.length (pathParts path)

def Covers (version path : Text) : Prop :=
  let locked := a.dir ++ if version = [] then [] else [host.key version]
  pathParts path = [[]] ∨ a.names path <+: locked ∨ locked <+: a.names path ∨
    ∃ file, host.metadataFile file = true ∧ a.names path = a.dir ++ [file]

/-- The path is neither above the directory of the artifact nor below it. -/
structure Apart (path : Text) : Prop where
  not_root : pathParts path ≠ [[]]
  not_above : ¬a.names path <+: a.dir
  not_below : ¬a.dir <+: a.names path
  no_dots : ∀ part ∈ (pathParts path).take a.labels.length, '.' ∉ part
  /-- no white space before the group or behind the artifact -/
  trimmed : ∀ part, (pathParts path)[a.labels.length]? = some part →
    trimSpace (joinDots ((pathParts path).take a.labels.length) ++ ':' :: part) =
      joinDots ((pathParts path).take a.labels.length) ++ ':' :: part
  /-- no colon that the subtree of a group and an artifact begins with -/
  no_colon : ∀ first second, pathParts path = [first, second] → ':' ∉ second

def OtherVersion (version path : Text) : Prop :=
  version ≠ [] ∧ ∃ other rest, a.names path = a.dir ++ other :: rest ∧
    other ≠ host.key version ∧ host.metadataFile other = false

theorem labels_ne : a.labels ≠ [] := by
  intro hnil
  have hlength := a.two_labels
  rw [hnil] at hlength
  cases hlength

theorem label_no_dot : ∀ label ∈ a.labels, '.' ∉ label := fun label h => (a.label_ok label h).1

theorem group_no_colon : ':' ∉ joinDots a.labels := by
  intro hmem
  rcases Nested.mem_labels hmem with hcolon | ⟨label, hlabel, hc⟩
  · cases hcolon
  · exact (a.label_ok label hlabel).2.1 hc

theorem lower_labels : a.labels.map host.lower = a.labels :=
  (List.map_congr_left fun label h => (a.label_ok label h).2.2).trans (List.map_id _)

theorem lower_group : host.lower (joinDots a.labels) = joinDots a.labels := by
  rw [lower_joinDots, lower_labels]

theorem ofNormalized {t target : MavenTarget} (h : normalizeResourceLockTarget host t = some target)
    {group artifact : Text} (hname : target.name = group ++ ':' :: artifact) (hcolon : ':' ∉ group)
    (hdot : '.' ∈ group) : ∃ a : LockedArtifact host, a.name = target.name := by
  obtain ⟨group', artifact', htrim, hgroup, hartifact, -, rfl⟩ := normalize_spec h
  have hlower : ':' ∉ host.lower group' := fun hmem => hgroup ((mem_lower host.toLower_colon).mp hmem)
  have hkey : ':' ∉ host.key artifact' := fun hmem =>
    hartifact ((mem_key host.toLower_colon).mp hmem)
  obtain ⟨rfl, -, rfl⟩ := (List.append_cons_inj_of_notMem hlower hkey).mp hname
  have hjoin : joinDots ((host.lower group').splitOn '.') = host.lower group' :=
    List.intercalate_splitOn '.'
  have hplain : ∀ label ∈ (host.lower group').splitOn '.', '.' ∉ label :=
    SlashPath.splitOn_noSep '.' _
  have hmem : ∀ label ∈ (host.lower group').splitOn '.', ∀ c ∈ label, c ∈ host.lower group' := by
    intro label hlabel c hc
    rw [← hjoin]
    exact Nested.mem_of_label hlabel hc
  refine ⟨⟨(host.lower group').splitOn '.', host.key artifact', ?_, ?_, ?_, ?_⟩, ?_⟩
  · have hcount : (joinDots ((host.lower group').splitOn '.')).count '.' + 1 = _ :=
      Nested.count_plain hplain (List.splitOn_ne_nil _ _)
    have hpos := List.count_pos_iff.mpr hdot
    rw [hjoin] at hcount
    omega
  · intro label hlabel
    refine ⟨hplain label hlabel, fun hc => hlower (hmem label hlabel _ hc), ?_⟩
    have hsame : label.map host.toLower = label.map id := List.map_congr_left fun c hc => by
      obtain ⟨d, -, rfl⟩ := List.mem_map.mp (hmem label hlabel c hc)
      exact host.toLower_toLower d
    exact hsame.trans (List.map_id _)
  · exact ⟨hkey, key_key _⟩
  · obtain ⟨hfirst, hlast⟩ := trimSpace_trimmed htrim
    rw [hjoin, trimSpace_colon, dropWhile_self (map_isSpace_lower group').symm hfirst,
      rdropWhile_self (map_isSpace_key artifact').symm hlast]
  · exact congrArg (· ++ ':' :: host.key artifact') hjoin

theorem names_length (path : Text) : (a.names path).length = (pathParts path).length := by
  unfold names Host.names
  rw [List.length_append, List.length_map, List.length_map, ← List.length_append,
    List.take_append_drop]

theorem dir_length : a.dir.length = a.labels.length + 1 := List.length_append

theorem names_of_short (h : (pathParts path).length ≤ a.labels.length) :
    a.names path = (pathParts path).map host.lower := by
  unfold names Host.names
  rw [List.take_of_length_le h, List.drop_of_length_le h]
  exact List.append_nil _

theorem parts_of_below (h : a.dir <+: a.names path) : ∃ group artifact rest,
    pathParts path = group ++ artifact :: rest ∧ group.map host.lower = a.labels ∧
      host.key artifact = a.artifact ∧ a.names path = a.dir ++ rest.map host.key := by
  obtain ⟨tail, htail⟩ := h
  have hnames : a.names path = ((pathParts path).take a.labels.length).map host.lower ++
      ((pathParts path).drop a.labels.length).map host.key := rfl
  have hdir : a.dir ++ tail = a.labels ++ a.artifact :: tail := List.append_assoc ..
  rw [hdir, hnames] at htail
  have hlength := congrArg List.length htail
  simp only [List.length_append, List.length_map, List.length_take, List.length_drop,
    List.length_cons] at hlength
  obtain ⟨hgroup, hdrop⟩ := List.append_inj htail (by
    rw [List.length_map, List.length_take]
    omega)
  obtain ⟨artifact, rest, hparts, hartifact, hrest⟩ := List.map_eq_cons_iff.mp hdrop.symm
  refine ⟨(pathParts path).take a.labels.length, artifact, rest, ?_, hgroup.symm, hartifact, ?_⟩
  · rw [← hparts, List.take_append_drop]
  · rw [hnames, hparts, ← hgroup, List.map_cons, hartifact, dir, List.append_assoc]
    rfl

end LockedArtifact

theorem getMavenPathLocks_mem {locks : List LockRow}
    (h : db.getMavenPathLocks host repository path true = some locks) :
    ∃ conditions, host.artifactConditions repository true (pathParts path) = some conditions ∧
      ∀ l : LockRow, l.format = .maven → l.repository = host.lower repository →
        l ∈ db.mavenRows host → (l ∈ locks ↔
          (∃ c ∈ conditions, c.holds host l = true) ∨
            (host.subtreeCondition (pathParts path)).holds host l = true) := by
  unfold LockTables.getMavenPathLocks at h
  dsimp only at h
  rw [if_pos rfl] at h
  split_ifs at h
  split at h
  · rename_i domainLocks conditions hdomains hconditions
    rw [if_neg (by simp)] at h
    split_ifs at h with hmany
    cases h
    refine ⟨conditions, hconditions, fun l hformat hrepository hrow => ?_⟩
    have hdomain : l ∉ domainLocks := by
      intro hmem
      unfold LockTables.mavenPathDomainLocks at hdomains
      dsimp only at hdomains
      split_ifs at hdomains
      cases hdomains
      obtain ⟨d, -, rfl⟩ := List.mem_map.mp hmem
      cases hformat
    generalize hrows : List.filter _ (db.mavenRows host) = rows at hmany ⊢
    have hall : rows.take (lockLimit + 1) = rows := by
      rw [List.length_take] at hmany
      exact List.take_of_length_le (by omega)
    rw [hall, List.mem_append, or_iff_right hdomain, List.mem_map]
    have hmem (m : LockRow) : m ∈ rows ↔ m ∈ db.mavenRows host ∧ m.format = .maven ∧
        m.repository = host.lower repository ∧ ((∃ c ∈ conditions, c.holds host m = true) ∨
          (host.subtreeCondition (pathParts path)).holds host m = true) := by
      rw [← hrows, List.mem_filter]
      simp [and_assoc]
    constructor
    · rintro ⟨m, hm, rfl⟩
      obtain ⟨-, hm, hm', hholds⟩ := (hmem m).mp hm
      rwa [← hm, ← hm']
    · intro hholds
      refine ⟨l, (hmem l).mpr ⟨hrow, hformat, hrepository, hholds⟩, ?_⟩
      rw [← hformat, ← hrepository]
  · cases h

namespace LockedArtifact

variable (a : LockedArtifact host) {l : LockRow} {c : Condition} {parts : List Text} {i : ℕ}

theorem labels_count : (joinDots a.labels).count '.' + 1 = a.labels.length :=
  Nested.count_plain a.label_no_dot a.labels_ne

theorem condition_place (hname : l.name = a.name)
    (hdots : ∀ part ∈ parts.take a.labels.length, '.' ∉ part) (hi : 2 ≤ i) (hparts : i < parts.length)
    (hc : host.artifactCondition repository true parts i = some c) (hholds : c.holds host l = true) :
    i = a.labels.length ∧
      host.lower ((joinDots (parts.take i)).dropWhile isSpace) = joinDots a.labels ∧
      host.key ((parts.getD i []).rdropWhile isSpace) = a.artifact := by
  obtain ⟨-, -, -, rfl⟩ := artifactCondition_spec hc
  have hplace : l.name = host.lower ((joinDots (parts.take i)).dropWhile isSpace) ++
      ':' :: host.key ((parts.getD i []).rdropWhile isSpace) := by
    unfold Condition.holds at hholds
    rw [Bool.and_eq_true, decide_eq_true_eq] at hholds
    exact hholds.1
  rw [hname, name] at hplace
  obtain ⟨hlower, -, hkey⟩ :=
    (List.append_cons_inj_of_notMem a.group_no_colon a.artifact_ok.1).mp hplace
  have hne : parts.take i ≠ [] := by
    intro hnil
    rw [List.take_eq_nil_iff] at hnil
    rcases hnil with rfl | rfl
    · cases hi
    · cases hparts
  have hcount : (joinDots a.labels).count '.' = (joinDots (parts.take i)).count '.' := by
    rw [hlower, count_lower host.toLower_dot, count_dropWhile (by decide)]
  have hlabels := a.labels_count
  have hdotted := @Nested.count_labels _ _ '.' _ hne
  have hplaces : (parts.take i).length = i := List.length_take_of_le (Nat.le_of_lt hparts)
  unfold joinDots at hcount hlabels
  have hle : i ≤ a.labels.length := by omega
  have hplain := Nested.count_plain (fun part hpart =>
    hdots part ((List.take_sublist_take_left hle).subset hpart)) hne
  exact ⟨by omega, hlower.symm, hkey.symm⟩

theorem condition_below {group rest : List Text} {artifact : Text}
    (hgroup : group.map host.lower = a.labels) (hartifact : host.key artifact = a.artifact)
    (hc : host.artifactCondition repository true (group ++ artifact :: rest) group.length = some c) :
    c = .artifact a.name (if rest.headD [] = [] ∨ host.metadataFile (rest.headD []) = true then none
      else some (host.key (rest.headD []))) := by
  obtain ⟨-, -, -, rfl⟩ := artifactCondition_spec hc
  obtain ⟨hfirst, hlast⟩ := trimSpace_trimmed a.trimmed
  have hlower : host.lower (joinDots group) = joinDots a.labels := by
    rw [lower_joinDots, hgroup]
  have htake : (group ++ artifact :: rest).take group.length = group := List.take_left ..
  have hat : (group ++ artifact :: rest).getD group.length [] = artifact := by
    rw [List.getD_append_right _ _ _ _ (Nat.le_refl _), Nat.sub_self, List.getD_cons_zero]
  have hnext : (group ++ artifact :: rest).getD (group.length + 1) [] = rest.headD [] := by
    rw [List.getD_append_right _ _ _ _ (Nat.le_add_right _ 1), Nat.add_sub_cancel_left,
      List.getD_cons_succ]
    cases rest <;> rfl
  have hdrop : (joinDots group).dropWhile isSpace = joinDots group := by
    apply dropWhile_self _ hfirst
    rw [← hlower, map_isSpace_lower]
  have hrdrop : artifact.rdropWhile isSpace = artifact := by
    apply rdropWhile_self _ hlast
    rw [← hartifact, map_isSpace_key]
  rw [htake, hat, hnext, hdrop, hrdrop, hlower, hartifact]
  simp [name]

theorem subtree_holds (hname : l.name = a.name) (hroot : parts ≠ [[]]) :
    (host.subtreeCondition parts).holds host l = true ↔ ∃ sep, (sep = '.' ∨ sep = ':') ∧
      joinDots (parts.map host.lower) ++ [sep] <+:
        joinDots a.labels ++ ':' :: a.artifact.map host.likeFold := by
  have hfold (s : Text) : (host.lower s).map host.likeFold = host.lower s := by
    unfold Host.lower
    rw [List.map_map]
    exact List.map_congr_left fun c _ => host.likeFold_toLower c
  have hdot : host.likeFold '.' = '.' := by
    have h := host.likeFold_toLower '.'
    rwa [(host.toLower_dot '.').mpr rfl] at h
  have hcolon : host.likeFold ':' = ':' := (host.likeFold_colon ':').mpr rfl
  have hlocked : l.name.map host.likeFold =
      joinDots a.labels ++ ':' :: a.artifact.map host.likeFold := by
    rw [hname, name, List.map_append, List.map_cons, hcolon, ← a.lower_group, hfold]
  unfold Host.subtreeCondition
  rw [if_neg hroot]
  dsimp only
  unfold Condition.holds
  rw [Bool.or_eq_true, Like.like_begin_letter (by decide) (by decide),
    Like.like_begin_letter (by decide) (by decide), hlocked, List.map_append, List.map_append,
    hfold, lower_joinDots, List.map_singleton, List.map_singleton, hdot, hcolon]
  constructor
  · rintro (h | h)
    · exact ⟨'.', Or.inl rfl, h⟩
    · exact ⟨':', Or.inr rfl, h⟩
  · rintro ⟨sep, rfl | rfl, h⟩
    · exact Or.inl h
    · exact Or.inr h

theorem subtree_above (hname : l.name = a.name) (hroot : parts ≠ [[]])
    (h : parts.map host.lower <+: a.labels) (hne : parts ≠ []) :
    (host.subtreeCondition parts).holds host l = true := by
  rw [a.subtree_holds hname hroot]
  obtain ⟨rest, hrest⟩ := h
  have hmapped : parts.map host.lower ≠ [] := fun hnil => hne (List.map_eq_nil_iff.mp hnil)
  by_cases hlast : rest = []
  · rw [hlast, List.append_nil] at hrest
    refine ⟨':', Or.inr rfl, ?_⟩
    rw [hrest]
    exact ⟨a.artifact.map host.likeFold, List.append_assoc ..⟩
  · refine ⟨'.', Or.inl rfl, ?_⟩
    rw [← hrest]
    exact (Nested.begin_of_labels hmapped hlast).trans (List.prefix_append _ _)

theorem subtree_cases {begin : Text} {sep : Char} (hsep : sep = '.' ∨ sep = ':')
    (hcolon : ':' ∉ begin) {rest : Text}
    (h : begin ++ [sep] <+: joinDots a.labels ++ ':' :: rest) :
    begin ++ ['.'] <+: joinDots a.labels ∨ begin = joinDots a.labels := by
  rcases Nat.lt_or_ge begin.length (joinDots a.labels).length with hlt | hge
  · left
    have hbefore : begin ++ [sep] <+: joinDots a.labels := by
      apply List.prefix_of_prefix_length_le h (List.prefix_append _ _)
      rw [List.length_append, List.length_singleton]
      omega
    rcases hsep with rfl | rfl
    · exact hbefore
    · exact absurd (hbefore.subset (by simp)) a.group_no_colon
  · right
    have hbegin : begin <+: joinDots a.labels ++ ':' :: rest := (List.prefix_append _ _).trans h
    obtain ⟨more, hmore⟩ := List.prefix_of_prefix_length_le (List.prefix_append _ _) hbegin hge
    cases more with
    | nil => rw [← hmore, List.append_nil]
    | cons c more =>
      rw [← hmore] at hbegin hcolon
      obtain ⟨tail, htail⟩ := hbegin
      rw [List.append_assoc] at htail
      have hc := (List.cons.inj (List.append_cancel_left htail)).1
      rw [hc] at hcolon
      exact absurd (by simp) hcolon

theorem subtree_length (hname : l.name = a.name) (hroot : parts ≠ [[]]) (hne : parts ≠ [])
    (hcolon : ∀ part ∈ parts, ':' ∉ part)
    (h : (host.subtreeCondition parts).holds host l = true) :
    parts.length ≤ a.labels.length ∧
      ((∀ part ∈ parts, '.' ∉ part) → parts.map host.lower <+: a.labels) := by
  obtain ⟨sep, hsep, hbegin⟩ := (a.subtree_holds hname hroot).mp h
  have hmapped : parts.map host.lower ≠ [] := fun hnil => hne (List.map_eq_nil_iff.mp hnil)
  have hplain : ':' ∉ joinDots (parts.map host.lower) := by
    intro hmem
    rcases Nested.mem_labels hmem with hc | ⟨part, hpart, hc⟩
    · cases hc
    · obtain ⟨source, hsource, rfl⟩ := List.mem_map.mp hpart
      exact hcolon source hsource ((mem_lower host.toLower_colon).mp hc)
  have hcount := @Nested.count_labels _ _ '.' _ hmapped
  have hlabels := a.labels_count
  rw [List.length_map] at hcount
  have hdots (hparts : ∀ part ∈ parts, '.' ∉ part) : ∀ part ∈ parts.map host.lower, '.' ∉ part := by
    intro part hpart
    obtain ⟨source, hsource, rfl⟩ := List.mem_map.mp hpart
    rw [mem_lower host.toLower_dot]
    exact hparts source hsource
  unfold joinDots at hlabels
  rcases a.subtree_cases hsep hplain hbegin with hbefore | heq
  · have hless := (hbefore.sublist).count_le '.'
    rw [List.count_append, List.count_singleton_self] at hless
    unfold joinDots at hless hbefore
    exact ⟨by omega, fun hparts =>
      Nested.labels_of_begin (hdots hparts) hmapped a.label_no_dot hbefore⟩
  · unfold joinDots at heq
    refine ⟨by rw [heq] at hcount; omega, fun hparts => ?_⟩
    rw [← List.splitOn_intercalate '.' (hdots hparts) hmapped, heq,
      List.splitOn_intercalate '.' a.label_no_dot a.labels_ne]

theorem subtree_first (hname : l.name = a.name) {first : Text} {rest : List Text}
    (hroot : first :: rest ≠ [[]]) (hdot : '.' ∉ first)
    (h : (host.subtreeCondition (first :: rest)).holds host l = true) : ':' ∉ first := by
  obtain ⟨sep, -, hbegin⟩ := (a.subtree_holds hname hroot).mp h
  have hfirst : host.lower first <+: joinDots ((first :: rest).map host.lower) := by
    cases rest with
    | nil => exact (List.prefix_refl _).trans (by simp [joinDots])
    | cons next rest =>
      unfold joinDots
      rw [List.map_cons, List.map_cons, List.intercalate_cons_cons, List.append_assoc]
      exact List.prefix_append _ _
  have hgroup : '.' ∈ joinDots a.labels := by
    have hcount := a.labels_count
    have htwo := a.two_labels
    exact List.count_pos_iff.mp (by omega)
  intro hcolon
  have hwhole := (hfirst.trans (List.prefix_append _ _)).trans hbegin
  rcases Nat.le_total (host.lower first).length (joinDots a.labels).length with hle | hge
  · have hshort := List.prefix_of_prefix_length_le hwhole (List.prefix_append _ _) hle
    exact a.group_no_colon (hshort.subset ((mem_lower host.toLower_colon).mpr hcolon))
  · have hlong := List.prefix_of_prefix_length_le (List.prefix_append _ _) hwhole hge
    exact hdot ((mem_lower host.toLower_dot).mp (hlong.subset hgroup))

theorem pathParts_ne (path : Text) : pathParts path ≠ [] := List.splitOn_ne_nil _ _

variable {conditions : List Condition}

theorem mem_conditions
    (h : host.artifactConditions repository true parts = some conditions) :
    (∀ i, 2 ≤ i → i < parts.length →
      ∃ c ∈ conditions, host.artifactCondition repository true parts i = some c) ∧
    ∀ c ∈ conditions, ∃ i, 2 ≤ i ∧ i < parts.length ∧
      host.artifactCondition repository true parts i = some c := by
  obtain ⟨hto, hof⟩ := mapM_mem h
  constructor
  · intro i hi hparts
    exact hto i (List.mem_range'_1.mpr (by omega))
  · intro c hc
    obtain ⟨i, hi, hic⟩ := hof c hc
    have hrange := List.mem_range'_1.mp hi
    exact ⟨i, by omega, by omega, hic⟩

theorem no_colon_of_conditions
    (h : host.artifactConditions repository true parts = some conditions)
    (hlong : 3 ≤ parts.length) : ∀ part ∈ parts, ':' ∉ part := by
  obtain ⟨hto, -⟩ := mem_conditions h
  intro part hpart
  obtain ⟨i, hi, rfl⟩ := List.mem_iff_getElem.mp hpart
  by_cases hplace : 2 ≤ i
  · obtain ⟨c, -, hc⟩ := hto i hplace hi
    have hplain := (artifactCondition_spec hc).2.1
    rwa [List.getD_eq_getElem _ _ hi] at hplain
  · obtain ⟨c, -, hc⟩ := hto 2 (Nat.le_refl 2) (by omega)
    have hplain := (artifactCondition_spec hc).1
    have htake : parts[i] ∈ parts.take 2 := by
      rw [List.mem_take_iff_getElem]
      exact ⟨i, by omega, rfl⟩
    exact fun hmem => hplain (Nested.mem_of_label htake hmem)

end LockedArtifact

open LockedArtifact

section Returned

variable (a : LockedArtifact host) {l : LockRow} {locks : List LockRow}
  (hname : l.name = a.name)

include hname in
theorem condition_holds {group rest : List Text} {artifact : Text} {c : Condition}
    (hgroup : group.map host.lower = a.labels) (hartifact : host.key artifact = a.artifact)
    (hc : host.artifactCondition repository true (group ++ artifact :: rest) group.length = some c) :
    c.holds host l = true ↔ rest.headD [] = [] ∨ host.metadataFile (rest.headD []) = true ∨
      l.version = [] ∨ host.column l.version = host.key (rest.headD []) := by
  rw [a.condition_below hgroup hartifact hc, ← or_assoc]
  unfold Condition.holds
  dsimp only
  rw [hname]
  split_ifs with hnone
  · exact ⟨fun _ => Or.inl hnone, fun _ => by simp⟩
  · rw [or_iff_right hnone]
    simp

include hname in
theorem covers_mem (hrow : l ∈ db.mavenRows host) (hformat : l.format = .maven)
    (hrepository : l.repository = host.lower repository)
    (hversion : host.windows = true → ∀ c ∈ l.version, c.val < 128)
    (h : db.getMavenPathLocks host repository path true = some locks)
    (hcovers : a.Covers l.version path) : l ∈ locks := by
  obtain ⟨conditions, hconditions, hmem⟩ := getMavenPathLocks_mem h
  rw [hmem l hformat hrepository hrow]
  by_cases hroot : pathParts path = [[]]
  · right
    unfold Host.subtreeCondition
    rw [if_pos hroot]
    rfl
  generalize hlocked : a.dir ++ (if l.version = [] then [] else [host.key l.version]) = locked
  have hdir : a.dir <+: locked := hlocked ▸ List.prefix_append _ _
  have hcases : a.names path <+: locked ∨ locked <+: a.names path ∨
      ∃ file, host.metadataFile file = true ∧ a.names path = a.dir ++ [file] := by
    unfold LockedArtifact.Covers at hcovers
    dsimp only at hcovers
    rw [hlocked] at hcovers
    exact hcovers.resolve_left hroot
  have hlength := a.names_length path
  have hdirLength := a.dir_length
  by_cases hshort : (pathParts path).length ≤ a.labels.length
  · right
    apply a.subtree_above hname hroot _ (pathParts_ne path)
    rw [← a.names_of_short hshort]
    have hlabels : a.labels <+: locked := (List.prefix_append _ _).trans hdir
    rcases hcases with habove | hbelow | ⟨file, -, hfile⟩
    · exact List.prefix_of_prefix_length_le habove hlabels (by omega)
    · have hle := hdir.length_le.trans hbelow.length_le
      omega
    · rw [hfile, List.length_append] at hlength
      omega
  · left
    have hbelow : a.dir <+: a.names path := by
      rcases hcases with habove | hbelow | ⟨file, -, hfile⟩
      · exact List.prefix_of_prefix_length_le hdir habove (by omega)
      · exact hdir.trans hbelow
      · exact hfile ▸ List.prefix_append _ _
    obtain ⟨group, artifact, rest, hparts, hgroup, hartifact, hnames⟩ := a.parts_of_below hbelow
    have hplace : group.length = a.labels.length := by rw [← hgroup, List.length_map]
    have htwo := a.two_labels
    obtain ⟨c, hc, hcondition⟩ := (mem_conditions hconditions).1 group.length (by omega) (by
      rw [hparts, List.length_append, List.length_cons]
      omega)
    refine ⟨c, hc, ?_⟩
    rw [hparts] at hcondition
    rw [condition_holds a hname hgroup hartifact hcondition]
    cases rest with
    | nil => exact Or.inl rfl
    | cons next rest =>
      by_cases hwhole : l.version = []
      · exact Or.inr (Or.inr (Or.inl hwhole))
      rw [if_neg hwhole] at hlocked
      rw [hnames, ← hlocked, List.map_cons] at hcases
      rw [List.headD_cons, column_eq_key hversion]
      rcases hcases with habove | hbelow | ⟨file, hmetadata, hfile⟩
      · rw [List.prefix_append_right_inj, List.cons_prefix_cons] at habove
        exact Or.inr (Or.inr (Or.inr habove.1.symm))
      · rw [List.prefix_append_right_inj, List.cons_prefix_cons] at hbelow
        exact Or.inr (Or.inr (Or.inr hbelow.1))
      · have hnext := (List.cons.inj (List.append_cancel_left hfile)).1
        refine Or.inr (Or.inl ?_)
        unfold Host.metadataFile at hmetadata ⊢
        rwa [← hnext, lower_key] at hmetadata

include hname in
theorem apart_not_mem (hrow : l ∈ db.mavenRows host) (hformat : l.format = .maven)
    (hrepository : l.repository = host.lower repository)
    (h : db.getMavenPathLocks host repository path true = some locks)
    (hapart : a.Apart path) : l ∉ locks := by
  obtain ⟨conditions, hconditions, hmem⟩ := getMavenPathLocks_mem h
  rw [hmem l hformat hrepository hrow]
  have htwo := a.two_labels
  rintro (⟨c, hc, hholds⟩ | hsubtree)
  · obtain ⟨i, hi, hparts, hcondition⟩ := (mem_conditions hconditions).2 c hc
    obtain ⟨rfl, hgroup, hartifact⟩ :=
      a.condition_place hname hapart.no_dots hi hparts hcondition hholds
    rw [List.getD_eq_getElem _ _ hparts] at hartifact
    obtain ⟨hfirst, hlast⟩ :=
      trimSpace_trimmed (hapart.trimmed _ (List.getElem?_eq_getElem hparts))
    rw [hfirst, lower_joinDots] at hgroup
    rw [hlast] at hartifact
    have hlabels : ((pathParts path).take a.labels.length).map host.lower = a.labels := by
      have hdots : ∀ part ∈ ((pathParts path).take a.labels.length).map host.lower, '.' ∉ part := by
        intro part hpart
        obtain ⟨source, hsource, rfl⟩ := List.mem_map.mp hpart
        rw [mem_lower host.toLower_dot]
        exact hapart.no_dots source hsource
      have hne : ((pathParts path).take a.labels.length).map host.lower ≠ [] := by
        apply List.ne_nil_of_length_pos
        rw [List.length_map, List.length_take]
        omega
      unfold joinDots at hgroup
      rw [← List.splitOn_intercalate '.' hdots hne, hgroup,
        List.splitOn_intercalate '.' a.label_no_dot a.labels_ne]
    apply hapart.not_below
    unfold LockedArtifact.names Host.names LockedArtifact.dir
    rw [hlabels, List.drop_eq_getElem_cons hparts, List.map_cons, hartifact]
    exact ⟨_, List.append_assoc ..⟩
  · have hcolons : ∀ part ∈ pathParts path, ':' ∉ part := by
      by_cases hlong : 3 ≤ (pathParts path).length
      · exact no_colon_of_conditions hconditions hlong
      · obtain ⟨first, rest, hparts⟩ := List.exists_cons_of_ne_nil (pathParts_ne path)
        have hin : first ∈ (pathParts path).take a.labels.length := by
          rw [hparts, List.mem_take_iff_getElem]
          exact ⟨0, by rw [List.length_cons]; omega, rfl⟩
        have hroot := hapart.not_root
        rw [hparts] at hsubtree hlong hroot ⊢
        have hfirst := a.subtree_first hname hroot (hapart.no_dots first hin) hsubtree
        intro part hpart
        rcases List.mem_cons.mp hpart with rfl | hpart
        · exact hfirst
        · obtain ⟨second, rfl⟩ : ∃ second, rest = [second] := by
            rw [List.length_cons] at hlong
            have hpos := List.length_pos_of_mem hpart
            exact List.length_eq_one_iff.mp (by omega)
          rw [List.mem_singleton.mp hpart]
          exact hapart.no_colon first second hparts
    obtain ⟨hshort, hlabels⟩ :=
      a.subtree_length hname hapart.not_root (pathParts_ne path) hcolons hsubtree
    apply hapart.not_above
    rw [a.names_of_short hshort]
    refine (hlabels fun part hpart => hapart.no_dots part ?_).trans (List.prefix_append _ _)
    rwa [List.take_of_length_le hshort]

include hname in
theorem otherVersion_not_mem (hrow : l ∈ db.mavenRows host) (hformat : l.format = .maven)
    (hrepository : l.repository = host.lower repository)
    (hversion : host.windows = true → ∀ c ∈ l.version, c.val < 128)
    (h : db.getMavenPathLocks host repository path true = some locks)
    (hother : a.OtherVersion l.version path) : l ∉ locks := by
  obtain ⟨hlocked, other, after, hnames, hne, hplain⟩ := hother
  obtain ⟨conditions, hconditions, hmem⟩ := getMavenPathLocks_mem h
  rw [hmem l hformat hrepository hrow]
  have htwo := a.two_labels
  obtain ⟨group, artifact, rest, hparts, hgroup, hartifact, hrest⟩ :=
    a.parts_of_below (hnames ▸ List.prefix_append _ _)
  have hplace : group.length = a.labels.length := by rw [← hgroup, List.length_map]
  obtain ⟨next, rest, rfl, hnext, -⟩ :=
    List.map_eq_cons_iff.mp (List.append_cancel_left (hrest.symm.trans hnames))
  have hlength : (pathParts path).length = group.length + (rest.length + 1 + 1) := by
    rw [hparts, List.length_append, List.length_cons, List.length_cons]
  have hgiven : next ≠ [] := by
    obtain ⟨c, -, hc⟩ := (mem_conditions hconditions).1 (group.length + 1) (by omega) (by omega)
    have hat := (artifactCondition_spec hc).2.2.1
    rw [hparts, List.getD_append_right _ _ _ _ (Nat.le_add_right _ 1),
      Nat.add_sub_cancel_left] at hat
    exact hat
  rintro (⟨c, hc, hholds⟩ | hsubtree)
  · obtain ⟨i, hi, hin, hcondition⟩ := (mem_conditions hconditions).2 c hc
    have hdots : ∀ part ∈ (pathParts path).take a.labels.length, '.' ∉ part := by
      intro part hpart
      rw [hparts, ← hplace, List.take_left] at hpart
      have hlabel : host.lower part ∈ a.labels := hgroup ▸ List.mem_map_of_mem hpart
      exact fun hdot => a.label_no_dot _ hlabel ((mem_lower host.toLower_dot).mpr hdot)
    obtain ⟨rfl, -, -⟩ := a.condition_place hname hdots hi hin hcondition hholds
    rw [hparts, ← hplace] at hcondition
    rw [condition_holds a hname hgroup hartifact hcondition, List.headD_cons] at hholds
    rcases hholds with hnil | hmetadata | hwhole | hsame
    · exact hgiven hnil
    · unfold Host.metadataFile at hplain hmetadata
      rw [← hnext, lower_key, hmetadata] at hplain
      cases hplain
    · exact hlocked hwhole
    · rw [column_eq_key hversion, hnext] at hsame
      exact hne hsame.symm
  · have hcolons := no_colon_of_conditions hconditions (by omega)
    have hroot : pathParts path ≠ [[]] := by
      intro hroot
      rw [hroot, List.length_singleton] at hlength
      omega
    have hshort := (a.subtree_length hname hroot (pathParts_ne path) hcolons hsubtree).1
    omega

end Returned

/-- `GetMavenPathLocks` with descendants, and the calls that it stops. -/
theorem path_locks (a : LockedArtifact host) {l : LockRow} (hname : l.name = a.name)
    (hrow : l ∈ db.mavenRows host) (hformat : l.format = .maven)
    (hrepository : l.repository = host.lower repository)
    (hversion : host.windows = true → ∀ c ∈ l.version, c.val < 128) (path : Text) :
    (a.Covers l.version path →
      (∀ locks, db.getMavenPathLocks host repository path true = some locks → l ∈ locks) ∧
      ∀ check, db.ensurePathMutable host check repository path ≠ .ok ()) ∧
    (a.Apart path →
      ∀ locks, db.getMavenPathLocks host repository path true = some locks → l ∉ locks) ∧
    (a.OtherVersion l.version path →
      ∀ locks, db.getMavenPathLocks host repository path true = some locks → l ∉ locks) := by
  refine ⟨fun hcovers => ?_, fun hapart locks h => ?_, fun hother locks h => ?_⟩
  · have hmem : ∀ locks, db.getMavenPathLocks host repository path true = some locks → l ∈ locks :=
      fun locks h => covers_mem a hname hrow hformat hrepository hversion h hcovers
    refine ⟨hmem, fun check => ?_⟩
    unfold LockTables.ensurePathMutable
    split
    · exact nofun
    · rename_i hnone
      exact absurd (hmem [] hnone) List.not_mem_nil
    · exact nofun
  · exact apart_not_mem a hname hrow hformat hrepository h hapart
  · exact otherVersion_not_mem a hname hrow hformat hrepository hversion h hother

/-- `LOWER` of a database that knows the letters of ASCII only. -/
def lowerASCII (c : Char) : Char :=
  if 'A' ≤ c ∧ c ≤ 'Z' then Char.ofNat (c.toNat + 32) else c

/-- `unicode.ToLower` of ASCII and of one letter more. -/
def lowerLetter (c : Char) : Char := if c = 'É' then 'é' else lowerASCII c

theorem lowerLetter_other {c : Char} (h : ¬c.val < 128) (hne : c ≠ 'É') : lowerLetter c = c := by
  unfold lowerLetter lowerASCII
  rw [if_neg hne]
  apply if_neg
  rintro ⟨-, hle⟩
  have hval : c.val ≤ 90 := hle
  exact h (UInt32.lt_of_le_of_lt hval (by decide))

theorem lowerLetter_law {p : Char → Prop} (hascii : ∀ n < 128, p (Char.ofNat n)) (hletter : p 'É')
    (hother : ∀ c : Char, lowerLetter c = c → p c) (c : Char) : p c := by
  by_cases h : c.val < 128
  · obtain ⟨n, hn, rfl⟩ := Database.exists_ascii h
    exact hascii n hn
  · by_cases hne : c = 'É'
    · exact hne ▸ hletter
    · exact hother c (lowerLetter_other h hne)

theorem lowerASCII_self {c : Char} (h : lowerLetter c = c) : lowerASCII c = c := by
  unfold lowerLetter at h
  split_ifs at h with hletter
  · rw [hletter] at h
    exact absurd h (by decide)
  · exact h

def Host.sample (windows : Bool) : Host where
  windows := windows
  toLower := lowerLetter
  sqlLower := lowerASCII
  likeFold := lowerASCII
  toLower_toLower := lowerLetter_law (by decide +kernel) (by decide) fun c h => by rw [h, h]
  toLower_space := lowerLetter_law (by decide +kernel) (by decide) fun c h => by rw [h]
  toLower_dot := lowerLetter_law (by decide +kernel) (by decide) fun c h => by rw [h]
  toLower_colon := lowerLetter_law (by decide +kernel) (by decide) fun c h => by rw [h]
  toLower_slash := lowerLetter_law (by decide +kernel) (by decide) fun c h => by rw [h]
  sqlLower_ascii := fun c hc => by
    have hne : c ≠ 'É' := by
      rintro rfl
      exact absurd hc (by decide)
    exact (if_neg hne).symm
  likeFold_toLower := lowerLetter_law (by decide +kernel) (by decide) fun c h => by
    rw [h, lowerASCII_self h]
  likeFold_colon := lowerLetter_law (by decide +kernel) (by decide) fun c h => by
    rw [lowerASCII_self h]

def sampleArtifact : LockedArtifact (Host.sample false) where
  labels := [['a'], ['b']]
  artifact := "c.d".toList
  two_labels := by decide
  label_ok := by decide
  artifact_ok := by decide
  trimmed := by decide +kernel

def sampleLock (version : Text) : ResourceLock :=
  ⟨.manual, .maven, ['r'], "a.b:c.d".toList, version, .write, "hold".toList, [], 1⟩

def sampleLocks (version : Text) : LockTables := ⟨⟨∅, ∅, ∅, ∅⟩, [sampleLock version]⟩

theorem path_locks_sample :
    ((∀ locks, (sampleLocks ['1']).getMavenPathLocks (Host.sample false) ['R'] "a/B/c.d/1/f".toList
        true = some locks → ⟨sampleLock ['1'], false⟩ ∈ locks) ∧
      ∀ locks, (sampleLocks ['1']).getMavenPathLocks (Host.sample false) ['R'] "a/B/c.d/2/f".toList
        true = some locks → ⟨sampleLock ['1'], false⟩ ∉ locks) ∧
    ∀ locks, (sampleLocks ['1']).getMavenPathLocks (Host.sample false) ['R'] "a/b/c.x/1/f".toList
      true = some locks → ⟨sampleLock ['1'], false⟩ ∉ locks := by
  have hlocked := @path_locks (Host.sample false) (sampleLocks ['1']) ['R'] sampleArtifact
    ⟨sampleLock ['1'], false⟩ rfl (by decide) rfl (by decide) nofun
  refine ⟨⟨((hlocked "a/B/c.d/1/f".toList).1 ?_).1, (hlocked "a/B/c.d/2/f".toList).2.2 ?_⟩,
    (hlocked "a/b/c.x/1/f".toList).2.1 ?_⟩
  · exact Or.inr (Or.inr (Or.inl ⟨[['f']], by decide +kernel⟩))
  · exact ⟨by decide, ['2'], [['f']], by decide +kernel⟩
  · refine ⟨by decide, by decide +kernel, by decide +kernel, by decide +kernel, ?_, ?_⟩
    · intro part hpart
      have hthird : (pathParts "a/b/c.x/1/f".toList)[2]? = some "c.x".toList := by decide +kernel
      obtain rfl := Option.some.inj (hthird.symm.trans hpart)
      decide +kernel
    · intro first second hparts
      have hlength : (pathParts "a/b/c.x/1/f".toList).length = 5 := by decide +kernel
      rw [hparts] at hlength
      cases hlength

/-- A colon or white space in a path, a directory that begins as metadata does, and a version that
the database does not lower as Go does. -/
theorem locks_elsewhere :
    ((pathParts "a/b:c".toList = [['a'], "b:c".toList] ∧
      ¬sampleArtifact.names "a/b:c".toList <+: sampleArtifact.dir ∧
      ¬sampleArtifact.dir <+: sampleArtifact.names "a/b:c".toList) ∧
      (sampleLocks []).getMavenPathLocks (Host.sample false) ['r'] "a/b:c".toList true =
        some [⟨sampleLock [], false⟩]) ∧
    ((pathParts " a/b/c.d/1".toList = [" a".toList, ['b'], "c.d".toList, ['1']] ∧
      ¬sampleArtifact.names " a/b/c.d/1".toList <+: sampleArtifact.dir ∧
      ¬sampleArtifact.dir <+: sampleArtifact.names " a/b/c.d/1".toList) ∧
      (sampleLocks []).getMavenPathLocks (Host.sample false) ['r'] " a/b/c.d/1".toList true =
        some [⟨sampleLock [], false⟩]) ∧
    sampleArtifact.names "a/b/c.d/maven-metadata.xml-old/f".toList =
      sampleArtifact.dir ++ ["maven-metadata.xml-old".toList, ['f']] ∧
    (sampleLocks ['1']).getMavenPathLocks (Host.sample false) ['r']
      "a/b/c.d/maven-metadata.xml-old/f".toList true = some [⟨sampleLock ['1'], false⟩] ∧
    (sampleLocks ['É']).getMavenPathLocks (Host.sample true) ['r'] "a/b/c.d/É/f".toList true =
      some [] := by
  decide +kernel


end RenoP.Maven
