import Mathlib.Data.List.DropRight
import RenoP.Maven.Namespaces
import RenoP.Maven.PathLocks

/-!
# The names that locks are found under

A lock on an artifact is stored under the lower case of its group with the artifact behind a colon.
-/

namespace RenoP.Maven

open RenoP.Database (Text trimSpace isSpace)
open RenoP.Docker (validLockVersion)

variable {host : Host}

theorem isSpace_colon : isSpace ':' = false := by decide

theorem mem_lower {c : Char} {s : Text} (hc : ∀ d, host.toLower d = c ↔ d = c) :
    c ∈ host.lower s ↔ c ∈ s := by
  unfold Host.lower
  rw [List.mem_map]
  constructor
  · rintro ⟨d, hd, hdc⟩
    rwa [(hc d).mp hdc] at hd
  · exact fun h => ⟨c, h, (hc c).mpr rfl⟩

theorem lower_lower (s : Text) : host.lower (host.lower s) = host.lower s := by
  unfold Host.lower
  rw [List.map_map]
  exact List.map_congr_left fun c _ => host.toLower_toLower c

theorem count_lower {c : Char} (hc : ∀ d, host.toLower d = c ↔ d = c) (s : Text) :
    (host.lower s).count c = s.count c := by
  unfold Host.lower
  rw [List.count, List.countP_map]
  apply List.countP_congr
  intro d _
  simpa using hc d

theorem lower_joinDots (parts : List Text) :
    host.lower (joinDots parts) = joinDots (parts.map host.lower) := by
  unfold joinDots
  induction parts with
  | nil => rfl
  | cons part parts ih =>
    cases parts with
    | nil => simp
    | cons next parts =>
      rw [List.map_cons] at ih ⊢
      rw [List.map_cons, List.intercalate_cons_cons, List.intercalate_cons_cons, ← ih]
      unfold Host.lower
      rw [List.map_append, List.map_append, List.map_singleton, (host.toLower_dot '.').mpr rfl]

theorem key_cases (s : Text) : host.key s = host.lower s ∨ host.key s = s := by
  unfold Host.key
  split_ifs
  · exact Or.inl rfl
  · exact Or.inr rfl

theorem key_key (s : Text) : host.key (host.key s) = host.key s := by
  unfold Host.key
  split_ifs
  · exact lower_lower s
  · rfl

theorem lower_key (s : Text) : host.lower (host.key s) = host.lower s := by
  rcases @key_cases host s with h | h
  · rw [h, lower_lower]
  · rw [h]

theorem key_name (group artifact : Text) : host.key (host.lower group ++ ':' :: artifact) =
    host.lower group ++ ':' :: host.key artifact := by
  have hgroup : host.lower (host.lower group) = host.lower group := lower_lower group
  unfold Host.key
  split_ifs
  · unfold Host.lower at hgroup ⊢
    rw [List.map_append, hgroup, List.map_cons, (host.toLower_colon ':').mpr rfl]
  · rfl

theorem mem_key {c : Char} {s : Text} (hc : ∀ d, host.toLower d = c ↔ d = c) :
    c ∈ host.key s ↔ c ∈ s := by
  rcases @key_cases host s with h | h
  · rw [h, mem_lower hc]
  · rw [h]

theorem map_isSpace_lower (s : Text) : (host.lower s).map isSpace = s.map isSpace := by
  unfold Host.lower
  rw [List.map_map]
  exact List.map_congr_left fun c _ => host.toLower_space c

theorem map_isSpace_key (s : Text) : (host.key s).map isSpace = s.map isSpace := by
  rcases @key_cases host s with h | h
  · rw [h, map_isSpace_lower]
  · rw [h]

theorem column_eq_key {s : Text} (h : host.windows = true → ∀ c ∈ s, c.val < 128) :
    host.column s = host.key s := by
  unfold Host.column Host.key
  split_ifs with hwindows
  · exact List.map_congr_left fun c hc => host.sqlLower_ascii c (h hwindows c hc)
  · rfl

theorem dropWhile_congr {p : Char → Bool} {s t : Text} (h : s.map p = t.map p) :
    (s.dropWhile p).length = (t.dropWhile p).length := by
  induction s generalizing t with
  | nil =>
    rw [List.map_nil, eq_comm, List.map_eq_nil_iff] at h
    rw [h]
  | cons c s ih =>
    cases t with
    | nil => cases h
    | cons d t =>
      obtain ⟨hcd, hst⟩ := List.cons.inj h
      rw [List.dropWhile_cons, List.dropWhile_cons, hcd]
      split_ifs
      · exact ih hst
      · have hlength := congrArg List.length hst
        rw [List.length_map, List.length_map] at hlength
        rw [List.length_cons, List.length_cons, hlength]

theorem dropWhile_colon (group rest : Text) : (group ++ ':' :: rest).dropWhile isSpace =
    group.dropWhile isSpace ++ ':' :: rest := by
  rw [List.dropWhile_append]
  split_ifs with hempty
  · rw [List.isEmpty_iff.mp hempty, List.dropWhile_cons_of_neg]
    · rfl
    · rw [isSpace_colon]
      exact Bool.false_ne_true
  · rfl

theorem rdropWhile_colon (begin artifact : Text) : (begin ++ ':' :: artifact).rdropWhile isSpace =
    begin ++ ':' :: artifact.rdropWhile isSpace := by
  unfold List.rdropWhile
  rw [List.reverse_append, List.reverse_cons, List.append_assoc, List.singleton_append,
    dropWhile_colon]
  simp

theorem trimSpace_colon (group artifact : Text) : trimSpace (group ++ ':' :: artifact) =
    group.dropWhile isSpace ++ ':' :: artifact.rdropWhile isSpace := by
  unfold trimSpace
  rw [dropWhile_colon]
  exact rdropWhile_colon _ _

theorem dropWhile_self {p : Char → Bool} {s t : Text} (h : s.map p = t.map p)
    (hs : s.dropWhile p = s) : t.dropWhile p = t := by
  have hlength := congrArg List.length h
  rw [List.length_map, List.length_map] at hlength
  apply (List.dropWhile_sublist p).eq_of_length
  rw [← dropWhile_congr h, hs, hlength]

theorem rdropWhile_self {p : Char → Bool} {s t : Text} (h : s.map p = t.map p)
    (hs : s.rdropWhile p = s) : t.rdropWhile p = t := by
  have hreverse : s.reverse.map p = t.reverse.map p := by
    rw [List.map_reverse, List.map_reverse, h]
  unfold List.rdropWhile at hs ⊢
  rw [dropWhile_self hreverse (List.reverse_eq_iff.mp hs), List.reverse_reverse]

theorem trimSpace_trimmed {name group artifact : Text}
    (h : trimSpace name = group ++ ':' :: artifact) :
    group.dropWhile isSpace = group ∧ artifact.rdropWhile isSpace = artifact := by
  have htrim : trimSpace name = (name.dropWhile isSpace).rdropWhile isSpace := rfl
  constructor
  · cases group with
    | nil => rfl
    | cons c group =>
      have hbegin := List.rdropWhile_prefix isSpace (name.dropWhile isSpace)
      rw [← htrim, h] at hbegin
      obtain ⟨rest, hrest⟩ := hbegin
      have hhead := List.head?_dropWhile_not isSpace name
      rw [← hrest] at hhead
      exact List.dropWhile_cons_of_neg (by simpa using hhead)
  · have hlast : (group ++ ':' :: artifact).rdropWhile isSpace = group ++ ':' :: artifact := by
      rw [← h, htrim, List.rdropWhile_idempotent]
    rw [rdropWhile_colon] at hlast
    exact (List.cons.inj (List.append_cancel_left hlast)).2

theorem count_dropWhile {c : Char} (hc : isSpace c = false) (s : Text) :
    (s.dropWhile isSpace).count c = s.count c := by
  induction s with
  | nil => rfl
  | cons d s ih =>
    rw [List.dropWhile_cons]
    split_ifs with hspace
    · have hne : d ≠ c := by
        rintro rfl
        rw [hc] at hspace
        cases hspace
      rw [ih, List.count_cons_of_ne hne]
    · rfl

theorem count_rdropWhile {c : Char} (hc : isSpace c = false) (s : Text) :
    (s.rdropWhile isSpace).count c = s.count c := by
  unfold List.rdropWhile
  rw [List.count_reverse, count_dropWhile hc, List.count_reverse]

theorem mapM_mem {α β : Type} {f : α → Option β} {xs : List α} {ys : List β}
    (h : xs.mapM f = some ys) :
    (∀ x ∈ xs, ∃ y ∈ ys, f x = some y) ∧ ∀ y ∈ ys, ∃ x ∈ xs, f x = some y := by
  induction xs generalizing ys with
  | nil =>
    rw [List.mapM_nil] at h
    cases h
    exact ⟨nofun, nofun⟩
  | cons x xs ih =>
    rw [List.mapM_cons] at h
    obtain ⟨y, hy, h⟩ := Option.bind_eq_some_iff.mp h
    obtain ⟨rest, hrest, h⟩ := Option.bind_eq_some_iff.mp h
    cases h
    obtain ⟨hto, hof⟩ := ih hrest
    constructor
    · rintro z hz
      rcases List.mem_cons.mp hz with rfl | hz
      · exact ⟨y, List.mem_cons_self .., hy⟩
      · obtain ⟨w, hw, hzw⟩ := hto z hz
        exact ⟨w, List.mem_cons_of_mem y hw, hzw⟩
    · rintro w hw
      rcases List.mem_cons.mp hw with rfl | hw
      · exact ⟨x, List.mem_cons_self .., hy⟩
      · obtain ⟨z, hz, hzw⟩ := hof w hw
        exact ⟨z, List.mem_cons_of_mem x hz, hzw⟩

theorem cutColon_some {name group artifact : Text} (h : cutColon name = some (group, artifact)) :
    name = group ++ ':' :: artifact ∧ ':' ∉ group := by
  have hsplit : name.takeWhile (· ≠ ':') ++ name.dropWhile (· ≠ ':') = name :=
    List.takeWhile_append_dropWhile
  unfold cutColon at h
  cases hdrop : name.dropWhile (· ≠ ':') with
  | nil =>
    rw [hdrop] at h
    cases h
  | cons c rest =>
    have hcolon : c = ':' := by
      have hhead := List.head?_dropWhile_not (· ≠ ':') name
      rw [hdrop] at hhead
      simpa using hhead
    rw [hdrop] at h hsplit
    cases h
    rw [hcolon] at hsplit
    refine ⟨hsplit.symm, fun hmem => ?_⟩
    have hne := List.mem_takeWhile_imp hmem
    simp at hne

theorem normalize_spec {repository name version : Text} {target : MavenTarget}
    (h : normalizeResourceLockTarget host ⟨repository, name, version⟩ = some target) :
    ∃ group artifact, trimSpace name = group ++ ':' :: artifact ∧ ':' ∉ group ∧ ':' ∉ artifact ∧
      artifact ≠ [] ∧ target = ⟨host.lower (trimSpace repository),
        host.lower group ++ ':' :: host.key artifact, version⟩ := by
  unfold normalizeResourceLockTarget at h
  dsimp only at h
  by_cases hsize : host.lower (trimSpace repository) = [] ∨
      byteLength (host.lower (trimSpace repository)) > 255 ∨ trimSpace name = [] ∨
      byteLength (trimSpace name) > maxPackageDeprecationKeyBytes
  · rw [if_pos hsize] at h
    cases h
  · rw [if_neg hsize] at h
    split at h
    · cases h
    · rename_i group artifact hcut
      obtain ⟨hname, hgroup⟩ := cutColon_some hcut
      split_ifs at h with hbad
      obtain ⟨-, hbad⟩ := not_or.mp hbad
      obtain ⟨hne, hcolon⟩ := not_or.mp hbad
      refine ⟨group, artifact, hname, hgroup, hcolon, hne, ?_⟩
      rw [← Option.some.inj h, key_name]

theorem artifactCondition_spec {repository : Text} {descendants : Bool} {parts : List Text} {i : ℕ}
    {c : Condition} (h : host.artifactCondition repository descendants parts i = some c) :
    ':' ∉ joinDots (parts.take i) ∧ ':' ∉ parts.getD i [] ∧ parts.getD i [] ≠ [] ∧
      c = .artifact (host.lower ((joinDots (parts.take i)).dropWhile isSpace) ++
          ':' :: host.key ((parts.getD i []).rdropWhile isSpace))
        (if descendants = true ∧ parts.getD (i + 1) [] = [] ∨
            host.metadataFile (parts.getD (i + 1) []) = true then none
          else some (host.key (parts.getD (i + 1) []))) := by
  unfold Host.artifactCondition at h
  dsimp only at h
  split at h
  · cases h
  · rename_i target htarget
    obtain ⟨group, artifact, hname, hgroup, hartifact, hne, rfl⟩ := normalize_spec htarget
    rw [trimSpace_colon] at hname
    have hcount := congrArg (List.count ':') hname
    rw [List.count_append, List.count_append, List.count_cons_self, List.count_cons_self,
      count_dropWhile isSpace_colon, count_rdropWhile isSpace_colon,
      List.count_eq_zero_of_not_mem hgroup, List.count_eq_zero_of_not_mem hartifact] at hcount
    have hp : ':' ∉ joinDots (parts.take i) := List.count_eq_zero.mp (by omega)
    have hq : ':' ∉ parts.getD i [] := List.count_eq_zero.mp (by omega)
    have hp' : ':' ∉ (joinDots (parts.take i)).dropWhile isSpace :=
      fun hmem => hp ((List.dropWhile_sublist _).subset hmem)
    have hq' : ':' ∉ (parts.getD i []).rdropWhile isSpace :=
      fun hmem => hq ((List.rdropWhile_prefix _ _).subset hmem)
    obtain ⟨rfl, -, rfl⟩ := (List.append_cons_inj_of_notMem hp' hq').mp hname
    have hversioned (version : Text) :
        (!(descendants && decide (version = [])) && !host.metadataFile version) = true ↔
          ¬(descendants = true ∧ version = [] ∨ host.metadataFile version = true) := by
      cases descendants <;> simp
    refine ⟨hp, hq, fun hnil => hne (by rw [hnil]; rfl), ?_⟩
    by_cases hnone : descendants = true ∧ parts.getD (i + 1) [] = [] ∨
        host.metadataFile (parts.getD (i + 1) []) = true
    · rw [if_neg fun hgiven => (hversioned _).mp hgiven hnone] at h
      rw [if_pos hnone]
      exact (Option.some.inj h).symm
    · rw [if_pos ((hversioned _).mpr hnone)] at h
      rw [if_neg hnone]
      exact (Option.some.inj h).symm

end RenoP.Maven
