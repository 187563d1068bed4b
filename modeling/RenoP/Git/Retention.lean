import Mathlib.Data.List.Dedup
import RenoP.Git.MirrorAgreement
import RenoP.Index.Purge
import RenoP.Lib.RelativePath

/-!
# Retention of git mirrors (internal/service/storage/engine_git.go)

A fetched file is kept on disk and in the index, and then what is cached of other releases or
workflow runs of its repository is removed.
-/

namespace RenoP.Git

open SlashPath (Path Clean Under Names)
open RenoP.Index (FileIndex FileInfo newFileIndex)

structure GitCache where
  disk : List (List Text)
  index : FileIndex

/-- `root` is the path of the repository in the storage. -/
def pathStr (root : Path) (parts : List Text) : Path := root ++ '/' :: joinParts parts

/-- The entries of `os.ReadDir`, and which of them are directories. Their order does not matter. -/
def readDir (disk : List (List Text)) (dir : List Text) : List (Text × Bool) :=
  (disk.filterMap fun p =>
    if dir <+: p then
      match p.drop dir.length with
      | [] => none
      | name :: rest => some (name, decide (rest ≠ []))
    else none).dedup

namespace GitCache

variable (root : Path) (s : GitCache)

def store (parts : List Text) (info : FileInfo) : GitCache where
  disk := parts :: s.disk.filter (· ≠ parts)
  index := s.index.insertFile (pathStr root parts) info

/-- The walk below a directory, and `os.RemoveAll`. -/
def removeAll (target : List Text) : GitCache where
  disk := s.disk.filter fun p => ¬target <+: p
  index := (s.disk.filter fun p => target <+: p).foldl
    (fun idx p => idx.removeFile (pathStr root p)) s.index

def removeFile (target : List Text) : GitCache where
  disk := s.disk.filter (· ≠ target)
  index := s.index.removeFile (pathStr root target)

def removeEntry (dir : List Text) (entry : Text × Bool) : GitCache :=
  if entry.2 then s.removeAll root (dir ++ [entry.1]) else s.removeFile root (dir ++ [entry.1])

def pruneDir (dir : List Text) (drop : Text × Bool → Bool) : GitCache :=
  (readDir s.disk dir).foldl (fun s entry => if drop entry then s.removeEntry root dir entry else s) s

def pruneGitWorkflowRuns (owner upstreamRepo keepActionID : Text) : GitCache :=
  s.pruneDir root [owner, upstreamRepo, actions] fun (name, isDir) => isDir && name != keepActionID

def pruneGitReleases (owner upstreamRepo keepTag : Text) : GitCache :=
  s.pruneDir root [owner, upstreamRepo, releases] fun (name, _) =>
    stripArchive name != keepTag && name != keepTag

end GitCache

/-- `EffectiveRetainLatestWorkflowRuns` and `EffectiveRetainLatestReleases`. -/
structure Retention where
  workflowRuns : Bool
  releases : Bool

def Engine.persist (e : Engine) (root : Path) (retain : Retention) (s : GitCache) (relative : Text)
    (info : FileInfo) : GitCache :=
  match e.handle relative, requestParts relative with
  | .fetch _, owner :: upstreamRepo :: action :: remainder =>
    let actionType := action.map e.toLower
    let version := lockVersion actionType remainder
    let s := s.store root (owner :: upstreamRepo :: action :: remainder) info
    let s :=
      if actionType = actions ∧ retain.workflowRuns = true ∧ version ≠ [] then
        s.pruneGitWorkflowRuns root owner upstreamRepo version
      else s
    if actionType = releases ∧ retain.releases = true ∧ version ≠ [] then
      s.pruneGitReleases root owner upstreamRepo version
    else s
  | _, _ => s

def cachedVersion (toLower : Char → Char) : List Text → Text
  | _ :: _ :: action :: remainder => lockVersion (action.map toLower) remainder
  | _ => []

/-- The cached files of one kind, `releases` or `actions`, of an upstream repository. -/
def OfKind (toLower : Char → Char) (owner upstreamRepo kind : Text) (parts : List Text) : Prop :=
  ∃ action remainder, parts = owner :: upstreamRepo :: action :: remainder ∧
    action.map toLower = kind

structure Cached (root : Path) (s : GitCache) : Prop where
  names : ∀ p ∈ s.disk, Names p ∧ p ≠ []
  tree : ∀ p ∈ s.disk, ∀ q ∈ s.disk, p <+: q → p = q
  listed : ∀ p ∈ s.disk, s.index.hasFile (pathStr root p) = true
  index : ∃ ops, (∀ op ∈ ops, Clean (FileIndex.Op.path op)) ∧ s.index = newFileIndex.run ops

/-- A response is kept at the path of a request while the kind of the path is pruned. -/
structure Persisted (e : Engine) (root : Path) (retain : Retention) (s : GitCache)
    (relative owner upstreamRepo action : Text) (remainder : List Text) : Prop where
  place : Clean root ∧ root ≠ SlashPath.dot ∧ root ≠ ['/']
  cached : Cached root s
  fetched : ∃ url, e.handle relative = .fetch url
  parts : requestParts relative = owner :: upstreamRepo :: action :: remainder
  names : Names (owner :: upstreamRepo :: action :: remainder)
  /-- The renaming onto the path succeeds. -/
  fits : ∀ p ∈ s.disk, p <+: owner :: upstreamRepo :: action :: remainder ∨
    owner :: upstreamRepo :: action :: remainder <+: p →
    p = owner :: upstreamRepo :: action :: remainder
  enabled : retain.workflowRuns = true ∧ retain.releases = true

structure KeepsVersion (e : Engine) (root : Path) (s s' : GitCache)
    (owner upstreamRepo action : Text) (remainder : List Text) : Prop where
  fetched : owner :: upstreamRepo :: action :: remainder ∈ s'.disk ∧
    s'.index.hasFile (pathStr root (owner :: upstreamRepo :: action :: remainder)) = true
  kept : ∀ p ∈ s.disk, OfKind e.toLower owner upstreamRepo (action.map e.toLower) p →
    cachedVersion e.toLower p = lockVersion (action.map e.toLower) remainder →
    p ∈ s'.disk ∧ s'.index.hasFile (pathStr root p) = true
  gone : ∀ p ∈ s.disk, OfKind e.toLower owner upstreamRepo (action.map e.toLower) p →
    cachedVersion e.toLower p ≠ lockVersion (action.map e.toLower) remainder →
    p ∉ s'.disk ∧ s'.index.hasFile (pathStr root p) = false

/-- The names by which pruning for a version goes agree with the version of a path: it goes by the
first name below the lower-case `releases` or `actions`, with or without the suffix of an archive,
and keeps single files of `actions`. -/
def Told (kind version action : Text) (remainder : List Text) : Prop :=
  if version = [] ∨ action ≠ kind then lockVersion kind remainder = version
  else
    match remainder with
    | [] => False
    | [name] =>
      if kind = actions then name = version else name = version → stripArchive name = version
    | first :: second :: rest =>
      if kind = actions then True
      else if first = download ∨ first = Git.archive then
        (first = version ↔ lockVersion releases (first :: second :: rest) = version)
      else first = version → stripArchive first = version

variable {root : Path} {p q : List Text}

theorem joinParts_inj (hp : Names p) (hp' : p ≠ []) (hq : Names q) (hq' : q ≠ [])
    (h : joinParts p = joinParts q) : p = q := by
  have hsplit := congrArg (List.splitOn '/') h
  unfold joinParts at hsplit
  rwa [List.splitOn_intercalate '/' (fun x hx => (hp x hx).2.2.2) hp',
    List.splitOn_intercalate '/' (fun x hx => (hq x hx).2.2.2) hq'] at hsplit

theorem pathStr_inj (hp : Names p ∧ p ≠ []) (hq : Names q ∧ q ≠ [])
    (h : pathStr root p = pathStr root q) : p = q :=
  joinParts_inj hp.1 hp.2 hq.1 hq.2 (List.cons.inj (List.append_cancel_left h)).2

theorem clean_pathStr (hroot : Clean root ∧ root ≠ SlashPath.dot ∧ root ≠ ['/'])
    (hp : Names p) (hne : p ≠ []) : Clean (pathStr root p) := by
  induction p using List.reverseRecOn with
  | nil => exact absurd rfl hne
  | append_singleton p name ih =>
    obtain ⟨hname, hdot, hdotDot, hslash⟩ := hp name (List.mem_append_right _ (List.mem_singleton_self _))
    have hp' : Names p := fun c hc => hp c (List.mem_append_left _ hc)
    by_cases hnil : p = []
    · unfold pathStr joinParts
      rw [hnil, List.nil_append, List.intercalate_singleton]
      exact hroot.1.child hroot.2.1 hroot.2.2 hname hdot hdotDot hslash
    · have hsplit : pathStr root (p ++ [name]) = pathStr root p ++ '/' :: name := by
        unfold pathStr joinParts
        rw [Nested.labels_append hnil (List.cons_ne_nil name []), List.intercalate_singleton]
        simp
      rw [hsplit]
      refine (ih hp' hnil).child ?_ ?_ hname hdot hdotDot hslash
      · intro heq
        have hmem : '/' ∈ SlashPath.dot := heq ▸ List.mem_append_right root List.mem_cons_self
        revert hmem
        decide
      · intro heq
        have hlength := congrArg List.length heq
        obtain ⟨first, rest, rfl⟩ := List.exists_cons_of_ne_nil hnil
        have hfirst := (hp' first List.mem_cons_self).1
        unfold pathStr at hlength heq
        rw [List.length_append, List.length_cons, List.length_singleton] at hlength
        have hjoin : joinParts (first :: rest) = [] := List.length_eq_zero_iff.mp (by omega)
        obtain ⟨c, hc⟩ := List.exists_mem_of_ne_nil first hfirst
        have hmem : c ∈ joinParts (first :: rest) := Nested.mem_of_label List.mem_cons_self hc
        rw [hjoin] at hmem
        cases hmem

theorem prefix_of_under (hp : Names p ∧ p ≠ []) (hq : Names q)
    (h : Under (pathStr root p) (pathStr root q)) : p <+: q := by
  unfold Under pathStr at h
  rw [List.append_assoc, List.prefix_append_right_inj, List.cons_append,
    List.cons_prefix_cons] at h
  exact Nested.labels_of_begin (fun x hx => (hp.1 x hx).2.2.2) hp.2 (fun x hx => (hq x hx).2.2.2)
    h.2

def InStep (root : Path) (files : List (List Text)) (s : GitCache) : Prop :=
  ∀ p ∈ files, p ∈ s.disk ↔ s.index.hasFile (pathStr root p) = true

theorem hasFile_eq (idx : FileIndex) (p : Path) :
    idx.hasFile p = (!idx.isBlocked p && (idx.files.load p).isSome) := by
  unfold FileIndex.hasFile GoMap.has
  cases idx.isBlocked p with
  | true => rfl
  | false => rfl

theorem isBlocked_removeFile (idx : FileIndex) (p q : Path) :
    (idx.removeFile p).isBlocked q = idx.isBlocked q :=
  FileIndex.isBlocked_congr (FileIndex.dropFile_blocked idx p) q

theorem hasFile_removeFile (idx : FileIndex) (p q : Path) :
    (idx.removeFile p).hasFile q = (idx.hasFile q && !decide (q = p)) := by
  rw [hasFile_eq, hasFile_eq, isBlocked_removeFile]
  unfold FileIndex.removeFile
  rw [FileIndex.dropFile_load]
  by_cases hq : q = p
  · rw [if_pos hq, decide_eq_true hq]
    simp
  · rw [if_neg hq, decide_eq_false hq]
    simp

theorem removeFiles_spec (root : Path) (files : List (List Text)) (idx : FileIndex) (q : Path) :
    (files.foldl (fun idx p => idx.removeFile (pathStr root p)) idx).isBlocked q = idx.isBlocked q ∧
      ((files.foldl (fun idx p => idx.removeFile (pathStr root p)) idx).hasFile q = true ↔
        idx.hasFile q = true ∧ ∀ p ∈ files, q ≠ pathStr root p) := by
  induction files generalizing idx with
  | nil => exact ⟨rfl, fun h => ⟨h, fun p hp => absurd hp List.not_mem_nil⟩, fun h => h.1⟩
  | cons p files ih =>
    obtain ⟨hblocked, hfile⟩ := ih (idx.removeFile (pathStr root p))
    rw [List.foldl_cons]
    refine ⟨hblocked.trans (isBlocked_removeFile idx _ q), hfile.trans ?_⟩
    rw [hasFile_removeFile, Bool.and_eq_true, Bool.not_eq_true', decide_eq_false_iff_not,
      List.forall_mem_cons, and_assoc]

variable {s : GitCache} {files : List (List Text)}

theorem removeEntry_spec {dir : List Text} {entry : Text × Bool}
    (hfile : entry.2 = false → ∀ p ∈ s.disk, dir ++ [entry.1] <+: p → p = dir ++ [entry.1])
    (hnamed : Names (dir ++ [entry.1])) (hnames : ∀ p ∈ files, Names p ∧ p ≠ [])
    (hstored : ∀ p ∈ s.disk, Names p ∧ p ≠ []) (hstep : InStep root files s) :
    (∀ p, p ∈ (s.removeEntry root dir entry).disk ↔ p ∈ s.disk ∧ ¬dir ++ [entry.1] <+: p) ∧
      InStep root files (s.removeEntry root dir entry) ∧
      ∀ q, (s.removeEntry root dir entry).index.isBlocked q = s.index.isBlocked q := by
  unfold GitCache.removeEntry
  by_cases hdir : entry.2 = true
  · rw [if_pos hdir]
    have hdisk : ∀ p, p ∈ (s.removeAll root (dir ++ [entry.1])).disk ↔
        p ∈ s.disk ∧ ¬dir ++ [entry.1] <+: p := by
      intro p
      unfold GitCache.removeAll
      rw [List.mem_filter, decide_eq_true_eq]
    refine ⟨hdisk, fun p hp => ?_, fun q => (removeFiles_spec root _ _ q).1⟩
    rw [hdisk p]
    refine Iff.trans ?_ (removeFiles_spec root _ _ _).2.symm
    rw [← hstep p hp]
    refine and_congr_right fun hmem => ?_
    constructor
    · intro hnot t ht heq
      obtain ⟨htdisk, htbelow⟩ := List.mem_filter.mp ht
      rw [← pathStr_inj (hnames p hp) (hstored t htdisk) heq] at htbelow
      exact hnot (of_decide_eq_true htbelow)
    · intro hall hbelow
      exact hall p (List.mem_filter.mpr ⟨hmem, decide_eq_true hbelow⟩) rfl
  · rw [if_neg hdir]
    have hsame : ∀ p ∈ s.disk, dir ++ [entry.1] <+: p ↔ p = dir ++ [entry.1] := fun p hp =>
      ⟨hfile (Bool.not_eq_true _ ▸ hdir) p hp, fun heq => heq ▸ List.prefix_refl _⟩
    have hdisk : ∀ p, p ∈ (s.removeFile root (dir ++ [entry.1])).disk ↔
        p ∈ s.disk ∧ ¬dir ++ [entry.1] <+: p := by
      intro p
      unfold GitCache.removeFile
      rw [List.mem_filter, decide_eq_true_eq]
      exact and_congr_right fun hp => not_congr (hsame p hp).symm
    refine ⟨hdisk, fun p hp => ?_, fun q => isBlocked_removeFile _ _ q⟩
    rw [hdisk p]
    unfold GitCache.removeFile
    rw [hasFile_removeFile, Bool.and_eq_true, ← hstep p hp, Bool.not_eq_true',
      decide_eq_false_iff_not]
    refine and_congr_right fun hmem => not_congr ((hsame p hmem).trans ⟨fun heq => by rw [heq], ?_⟩)
    exact pathStr_inj (hnames p hp) ⟨hnamed, List.append_ne_nil_of_right_ne_nil _ (List.cons_ne_nil _ _)⟩

theorem prune_spec {dir : List Text} (drop : Text × Bool → Bool) (entries : List (Text × Bool))
    (hnamed : ∀ entry ∈ entries, Names (dir ++ [entry.1])) (hnames : ∀ p ∈ files, Names p ∧ p ≠ []) :
    ∀ {s : GitCache},
      (∀ entry ∈ entries, entry.2 = false →
        ∀ p ∈ s.disk, dir ++ [entry.1] <+: p → p = dir ++ [entry.1]) →
      (∀ p ∈ s.disk, Names p ∧ p ≠ []) → InStep root files s →
      let s' := entries.foldl
        (fun s entry => if drop entry then s.removeEntry root dir entry else s) s
      (∀ p, p ∈ s'.disk ↔
        p ∈ s.disk ∧ ∀ entry ∈ entries, drop entry = true → ¬dir ++ [entry.1] <+: p) ∧
      InStep root files s' ∧ ∀ q, s'.index.isBlocked q = s.index.isBlocked q := by
  induction entries with
  | nil =>
    intro s _ _ hstep
    exact ⟨fun p => ⟨fun h => ⟨h, fun e he => absurd he List.not_mem_nil⟩, fun h => h.1⟩, hstep,
      fun _ => rfl⟩
  | cons entry entries ih =>
    intro s hfile hstored hstep
    have hrest := fun e he => hnamed e (List.mem_cons_of_mem entry he)
    rw [List.foldl_cons]
    by_cases hdrop : drop entry = true
    · rw [if_pos hdrop]
      obtain ⟨hdisk, hstep', hblocked⟩ := removeEntry_spec (hfile entry List.mem_cons_self)
        (hnamed entry List.mem_cons_self) hnames hstored hstep
      obtain ⟨hdisk', hstep'', hblocked'⟩ := ih hrest
        (fun e he hf p hp => hfile e (List.mem_cons_of_mem entry he) hf p ((hdisk p).mp hp).1)
        (fun p hp => hstored p ((hdisk p).mp hp).1) hstep'
      refine ⟨fun p => ?_, hstep'', fun q => (hblocked' q).trans (hblocked q)⟩
      rw [hdisk' p, hdisk p, List.forall_mem_cons, and_assoc]
      exact and_congr_right fun _ => and_congr_left fun _ => ⟨fun h _ => h, fun h => h hdrop⟩
    · rw [if_neg hdrop]
      obtain ⟨hdisk', hstep'', hblocked'⟩ := ih hrest
        (fun e he => hfile e (List.mem_cons_of_mem entry he)) hstored hstep
      refine ⟨fun p => ?_, hstep'', hblocked'⟩
      rw [hdisk' p, List.forall_mem_cons]
      exact and_congr_right fun _ => ⟨fun h => ⟨fun h' => absurd h' hdrop, h⟩, fun h => h.2⟩

theorem mem_readDir {disk : List (List Text)} {dir : List Text} {name : Text} {isDir : Bool} :
    (name, isDir) ∈ readDir disk dir ↔
      ∃ rest, dir ++ name :: rest ∈ disk ∧ isDir = decide (rest ≠ []) := by
  unfold readDir
  rw [List.mem_dedup, List.mem_filterMap]
  constructor
  · rintro ⟨p, hp, hentry⟩
    by_cases hbelow : dir <+: p
    · rw [if_pos hbelow] at hentry
      obtain ⟨rest, rfl⟩ := hbelow
      rw [List.drop_left] at hentry
      cases rest with
      | nil => cases hentry
      | cons first rest =>
        cases hentry
        exact ⟨rest, hp, rfl⟩
    · rw [if_neg hbelow] at hentry
      cases hentry
  · rintro ⟨rest, hmem, rfl⟩
    refine ⟨_, hmem, ?_⟩
    rw [if_pos (List.prefix_append _ _), List.drop_left]

theorem pruneDir_spec (dir : List Text) (drop : Text × Bool → Bool)
    (hstored : ∀ p ∈ s.disk, Names p ∧ p ≠ []) (htree : ∀ p ∈ s.disk, ∀ q ∈ s.disk, p <+: q → p = q)
    (hnames : ∀ p ∈ files, Names p ∧ p ≠ []) (hstep : InStep root files s) :
    (∀ p, p ∈ (s.pruneDir root dir drop).disk ↔
      p ∈ s.disk ∧ ∀ name rest, p = dir ++ name :: rest → drop (name, decide (rest ≠ [])) = false) ∧
      InStep root files (s.pruneDir root dir drop) ∧
      ∀ q, (s.pruneDir root dir drop).index.isBlocked q = s.index.isBlocked q := by
  have hfile : ∀ entry ∈ readDir s.disk dir, entry.2 = false →
      ∀ p ∈ s.disk, dir ++ [entry.1] <+: p → p = dir ++ [entry.1] := by
    rintro ⟨name, isDir⟩ hentry hnot p hp hbelow
    obtain ⟨rest, hmem, hdir⟩ := mem_readDir.mp hentry
    dsimp only at hnot hbelow ⊢
    rw [hnot] at hdir
    have hnil : rest = [] := by
      by_contra hne
      exact absurd (of_decide_eq_false hdir.symm) (not_not_intro hne)
    rw [hnil] at hmem
    exact (htree _ hmem p hp hbelow).symm
  have hnamed : ∀ entry ∈ readDir s.disk dir, Names (dir ++ [entry.1]) := by
    rintro ⟨name, isDir⟩ hentry c hc
    obtain ⟨rest, hmem, -⟩ := mem_readDir.mp hentry
    refine (hstored _ hmem).1 c ?_
    rw [List.append_cons]
    exact List.mem_append_left rest hc
  obtain ⟨hdisk, hstep', hblocked⟩ :=
    prune_spec drop (readDir s.disk dir) hnamed hnames hfile hstored hstep
  refine ⟨fun p => (hdisk p).trans (and_congr_right fun hp => ?_), hstep', hblocked⟩
  constructor
  · intro hall name rest heq
    rw [heq] at hp
    by_contra hdrop
    refine hall (name, decide (rest ≠ [])) (mem_readDir.mpr ⟨rest, hp, rfl⟩)
      (Bool.not_eq_false _ ▸ hdrop) ?_
    exact ⟨rest, by rw [heq, List.append_assoc, List.singleton_append]⟩
  · rintro hall ⟨name, isDir⟩ hentry hdrop ⟨rest, heq⟩
    obtain ⟨rest', hmem, hdir⟩ := mem_readDir.mp hentry
    dsimp only at heq
    rw [List.append_assoc, List.singleton_append] at heq
    have hkept := hall name rest heq.symm
    -- The entry is a directory for one path exactly if it is one for the other.
    have hsame : (rest ≠ []) ↔ (rest' ≠ []) := by
      rw [← heq] at hp
      constructor
      · rintro hne rfl
        have hpaths := htree _ hmem _ hp (List.prefix_append_right_inj dir |>.mpr
          (List.cons_prefix_cons.mpr ⟨rfl, List.nil_prefix⟩))
        exact hne (List.cons.inj (List.append_cancel_left hpaths)).2.symm
      · rintro hne rfl
        have hpaths := htree _ hp _ hmem (List.prefix_append_right_inj dir |>.mpr
          (List.cons_prefix_cons.mpr ⟨rfl, List.nil_prefix⟩))
        exact hne (List.cons.inj (List.append_cancel_left hpaths)).2.symm
    rw [hdir, ← decide_eq_decide.mpr hsame, hkept] at hdrop
    cases hdrop

theorem store_spec {parts : List Text} (info : FileInfo) (hc : Cached root s)
    (hroot : Clean root ∧ root ≠ SlashPath.dot ∧ root ≠ ['/']) (hnames : Names parts)
    (hne : parts ≠ []) (hfits : ∀ p ∈ s.disk, p <+: parts ∨ parts <+: p → p = parts) :
    (∀ p, p ∈ (s.store root parts info).disk ↔ p = parts ∨ p ∈ s.disk) ∧
      (∀ p ∈ (s.store root parts info).disk, Names p ∧ p ≠ []) ∧
      (∀ p ∈ (s.store root parts info).disk, ∀ q ∈ (s.store root parts info).disk,
        p <+: q → p = q) ∧
      (∀ q, (s.store root parts info).index.isBlocked q = s.index.isBlocked q) ∧
      (s.index.isBlocked (pathStr root parts) = false →
        InStep root (s.store root parts info).disk (s.store root parts info)) := by
  have hdisk : ∀ p, p ∈ (s.store root parts info).disk ↔ p = parts ∨ p ∈ s.disk := by
    intro p
    unfold GitCache.store
    rw [List.mem_cons, List.mem_filter, decide_eq_true_eq]
    constructor
    · rintro (h | h)
      · exact Or.inl h
      · exact Or.inr h.1
    · rintro (h | h)
      · exact Or.inl h
      · by_cases heq : p = parts
        · exact Or.inl heq
        · exact Or.inr ⟨h, heq⟩
  have hall : ∀ p ∈ (s.store root parts info).disk, Names p ∧ p ≠ [] := by
    intro p hp
    rcases (hdisk p).mp hp with rfl | hp
    · exact ⟨hnames, hne⟩
    · exact hc.names p hp
  have hblocked : ∀ q, (s.store root parts info).index.isBlocked q = s.index.isBlocked q :=
    fun q => FileIndex.isBlocked_congr (FileIndex.insertFile_blocked _ _ _) q
  refine ⟨hdisk, hall, fun p hp q hq hbelow => ?_, hblocked, fun hopen p hp => ?_⟩
  · rcases (hdisk p).mp hp with rfl | hp'
    · rcases (hdisk q).mp hq with rfl | hq'
      · rfl
      · exact (hfits q hq' (Or.inr hbelow)).symm
    · rcases (hdisk q).mp hq with rfl | hq'
      · exact hfits p hp' (Or.inl hbelow)
      · exact hc.tree p hp' q hq' hbelow
  · refine iff_of_true hp ?_
    rw [hasFile_eq, hblocked]
    by_cases heq : p = parts
    · unfold GitCache.store
      rw [heq, hopen, FileIndex.insertFile_load_self info hopen]
      rfl
    · have hp' := ((hdisk p).mp hp).resolve_left heq
      obtain ⟨ops, hops, hindex⟩ := hc.index
      have htidy : FileIndex.Tidy s.index := by
        rw [hindex]
        exact FileIndex.run_tidy ops (FileIndex.newFileIndex_exact _ _) hops
      have hkept := FileIndex.insertFile_load_kept info (clean_pathStr hroot hnames hne) htidy
        (q := pathStr root p)
        (fun h => heq (pathStr_inj (hc.names p hp') ⟨hnames, hne⟩ h))
        (fun h => heq (hfits p hp' (Or.inr (prefix_of_under ⟨hnames, hne⟩ (hc.names p hp').1 h))))
      have hlisted := hc.listed p hp'
      rw [hasFile_eq] at hlisted
      unfold GitCache.store
      rw [hkept]
      exact hlisted

variable {version action name owner upstreamRepo : Text} {remainder : List Text}

theorem stripArchive_words : stripArchive download = download ∧
    stripArchive Git.archive = Git.archive := by decide +kernel

theorem told_actions (hversion : version ≠ []) :
    ((∀ name rest, action :: remainder = actions :: name :: rest →
        (decide (rest ≠ []) && name != version) = false) ↔
      lockVersion actions remainder = version) ↔ Told actions version action remainder := by
  unfold Told
  by_cases haction : action = actions
  · rw [if_neg fun h => h.elim hversion fun h => h haction]
    cases remainder with
    | nil =>
      refine iff_of_false (fun h => hversion ?_) id
      exact (h.mp fun name rest heq => by cases heq).symm
    | cons first rest =>
      have hread : lockVersion actions (first :: rest) = first := by
        have hkinds : actions ≠ releases := by decide
        unfold lockVersion
        dsimp only
        rw [if_neg hkinds, if_pos rfl]
      have hnames : (∀ name rest', action :: first :: rest = actions :: name :: rest' →
          (decide (rest' ≠ []) && name != version) = false) ↔
          (decide (rest ≠ []) && first != version) = false := by
        rw [haction]
        constructor
        · exact fun h => h first rest rfl
        · intro h name rest' heq
          cases heq
          exact h
      rw [hnames, hread]
      cases rest with
      | nil => simp
      | cons second rest => simp
  · rw [if_pos (Or.inr haction)]
    refine ⟨fun h => h.mp fun name rest heq => absurd (List.cons.inj heq).1 haction,
      fun h => iff_of_true (fun name rest heq => absurd (List.cons.inj heq).1 haction) h⟩

theorem told_releases (hversion : version ≠ []) :
    ((∀ name rest, action :: remainder = releases :: name :: rest →
        (stripArchive name != version && name != version) = false) ↔
      lockVersion releases remainder = version) ↔ Told releases version action remainder := by
  have hkinds : releases ≠ actions := by decide
  have hplain : ∀ first : Text, ((stripArchive first = version ∨ first = version) ↔
      stripArchive first = version) ↔ (first = version → stripArchive first = version) :=
    fun first => ⟨fun h heq => h.mp (Or.inr heq), fun h => ⟨fun hor => hor.elim id h, Or.inl⟩⟩
  unfold Told
  by_cases haction : action = releases
  · rw [if_neg fun h => h.elim hversion fun h => h haction]
    cases remainder with
    | nil =>
      refine iff_of_false (fun h => hversion ?_) id
      exact (h.mp fun name rest heq => by cases heq).symm
    | cons first rest =>
      have hnames : (∀ name rest', action :: first :: rest = releases :: name :: rest' →
          (stripArchive name != version && name != version) = false) ↔
          stripArchive first = version ∨ first = version := by
        rw [haction]
        constructor
        · intro h
          have hfirst := h first rest rfl
          simpa [or_iff_not_imp_left] using hfirst
        · intro h name rest' heq
          cases heq
          simpa [or_iff_not_imp_left] using h
      rw [hnames]
      cases rest with
      | nil =>
        dsimp only
        rw [if_neg hkinds]
        exact hplain first
      | cons second rest =>
        dsimp only
        rw [if_neg hkinds]
        by_cases hnested : first = download ∨ first = Git.archive
        · rw [if_pos hnested]
          have hstrip : stripArchive first = first := by
            rcases hnested with rfl | rfl
            · exact stripArchive_words.1
            · exact stripArchive_words.2
          rw [hstrip, or_self]
        · rw [if_neg hnested]
          have hread : lockVersion releases (first :: second :: rest) = stripArchive first := by
            unfold lockVersion
            dsimp only
            rw [if_pos rfl]
            rw [if_neg fun h => hnested (Or.inl h), if_neg fun h => hnested (Or.inr h)]
          rw [hread]
          exact hplain first
  · rw [if_pos (Or.inr haction)]
    refine ⟨fun h => h.mp fun name rest heq => absurd (List.cons.inj heq).1 haction,
      fun h => iff_of_true (fun name rest heq => absurd (List.cons.inj heq).1 haction) h⟩

theorem handle_kind {e : Engine} {relative url : Text} (h : e.handle relative = .fetch url)
    (hparts : requestParts relative = owner :: upstreamRepo :: action :: remainder) :
    action.map e.toLower = releases ∨ action.map e.toLower = actions := by
  unfold Engine.handle at h
  rw [hparts] at h
  dsimp only at h
  by_contra hneither
  rw [if_pos (not_or.mp hneither)] at h
  cases h

variable {e : Engine} {retain : Retention} {relative : Text} {info : FileInfo}

theorem told_unpruned (kind action : Text) (remainder : List Text) :
    (True ↔ lockVersion kind remainder = []) ↔ Told kind [] action remainder := by
  unfold Told
  rw [if_pos (Or.inl rfl), true_iff]

/-- What is left of the files of a kind, and how the index follows. -/
structure Remains (e : Engine) (root : Path) (s s' : GitCache)
    (owner upstreamRepo action : Text) (remainder : List Text) : Prop where
  left : ∀ action' remainder', action'.map e.toLower = action.map e.toLower →
    (owner :: upstreamRepo :: action' :: remainder' =
        owner :: upstreamRepo :: action :: remainder ∨
      owner :: upstreamRepo :: action' :: remainder' ∈ s.disk) →
    ((owner :: upstreamRepo :: action' :: remainder' ∈ s'.disk ↔
        lockVersion (action.map e.toLower) remainder' =
          lockVersion (action.map e.toLower) remainder) ↔
      Told (action.map e.toLower) (lockVersion (action.map e.toLower) remainder) action' remainder')
  blocked : ∀ q, s'.index.isBlocked q = s.index.isBlocked q
  step : s.index.isBlocked (pathStr root (owner :: upstreamRepo :: action :: remainder)) = false →
    ∀ p, p = owner :: upstreamRepo :: action :: remainder ∨ p ∈ s.disk →
      (p ∈ s'.disk ↔ s'.index.hasFile (pathStr root p) = true)

theorem remains_pruneDir {kind : Text} {drop : Text × Bool → Bool} (info : FileInfo)
    (h : Persisted e root retain s relative owner upstreamRepo action remainder)
    (hkind : action.map e.toLower = kind)
    (htold : ∀ action' remainder',
      ((∀ name rest, action' :: remainder' = kind :: name :: rest →
          drop (name, decide (rest ≠ [])) = false) ↔
        lockVersion kind remainder' = lockVersion kind remainder) ↔
      Told kind (lockVersion kind remainder) action' remainder') :
    Remains e root s
      ((s.store root (owner :: upstreamRepo :: action :: remainder) info).pruneDir root
        [owner, upstreamRepo, kind] drop) owner upstreamRepo action remainder := by
  obtain ⟨hdisk, hnames, htree, hblocked, hstep⟩ := store_spec info h.cached h.place
    h.names (List.cons_ne_nil _ _) h.fits
  have hnothing : InStep root []
      (s.store root (owner :: upstreamRepo :: action :: remainder) info) :=
    fun p hp => absurd hp List.not_mem_nil
  rw [← hkind] at htold ⊢
  refine ⟨fun action' remainder' haction' hp => ?_, fun q => ?_, fun hopen p hp => ?_⟩
  · have hspec := (pruneDir_spec [owner, upstreamRepo, action.map e.toLower] drop hnames
      htree (fun p hp => absurd hp List.not_mem_nil) hnothing).1
      (owner :: upstreamRepo :: action' :: remainder')
    rw [← htold action' remainder']
    refine iff_congr (hspec.trans ?_) Iff.rfl
    rw [and_iff_right ((hdisk _).mpr hp)]
    refine forall₂_congr fun name rest => ?_
    rw [List.cons_append, List.cons_append, List.cons_append, List.nil_append, List.cons.injEq,
      List.cons.injEq, and_iff_right rfl, and_iff_right rfl]
  · exact ((pruneDir_spec [owner, upstreamRepo, action.map e.toLower] drop hnames htree
      (fun p hp => absurd hp List.not_mem_nil) hnothing).2.2 q).trans (hblocked q)
  · exact (pruneDir_spec _ drop hnames htree hnames (hstep hopen)).2.1 p ((hdisk p).mpr hp)

theorem remains_persist (info : FileInfo)
    (h : Persisted e root retain s relative owner upstreamRepo action remainder) :
    Remains e root s (e.persist root retain s relative info) owner upstreamRepo action remainder := by
  obtain ⟨url, hfetch⟩ := h.fetched
  have hkinds : releases ≠ actions := by decide
  unfold Engine.persist
  rw [hfetch, h.parts]
  dsimp only
  by_cases hnone : lockVersion (action.map e.toLower) remainder = []
  · obtain ⟨hdisk, -, -, hblocked, hstep⟩ := store_spec info h.cached h.place
      h.names (List.cons_ne_nil _ _) h.fits
    rw [if_neg (fun h => h.2.2 hnone), if_neg (fun h => h.2.2 hnone)]
    refine ⟨fun action' remainder' haction' hp => ?_, hblocked, fun hopen p hp =>
      hstep hopen p ((hdisk p).mpr hp)⟩
    rw [hnone, ← told_unpruned]
    exact iff_congr (iff_of_true ((hdisk _).mpr hp) trivial) Iff.rfl
  · rcases handle_kind hfetch h.parts with hkind | hkind
    · have hother : ¬(action.map e.toLower = actions ∧ retain.workflowRuns = true ∧
          lockVersion (action.map e.toLower) remainder ≠ []) :=
        fun h => hkinds (hkind.symm.trans h.1)
      rw [if_neg hother, if_pos ⟨hkind, h.enabled.2, hnone⟩]
      rw [hkind] at hnone ⊢
      exact remains_pruneDir info h hkind fun _ _ => told_releases hnone
    · have hother : ¬(action.map e.toLower = releases ∧ retain.releases = true ∧
          lockVersion (action.map e.toLower) remainder ≠ []) :=
        fun h => hkinds (h.1.symm.trans hkind)
      rw [if_neg hother, if_pos ⟨hkind, h.enabled.1, hnone⟩]
      rw [hkind] at hnone ⊢
      exact remains_pruneDir info h hkind fun _ _ => told_actions hnone

/-- After a fetch the files of its version are what is left of the kind exactly where the path may be
indexed and the names tell the version, for the path and for all that is cached of the kind. -/
theorem keepsVersion_iff (info : FileInfo)
    (h : Persisted e root retain s relative owner upstreamRepo action remainder) :
    KeepsVersion e root s (e.persist root retain s relative info) owner upstreamRepo action
        remainder ↔
      s.index.isBlocked (pathStr root (owner :: upstreamRepo :: action :: remainder)) = false ∧
        Told (action.map e.toLower) (lockVersion (action.map e.toLower) remainder) action
          remainder ∧
        ∀ action' remainder', action'.map e.toLower = action.map e.toLower →
          owner :: upstreamRepo :: action' :: remainder' ∈ s.disk →
          Told (action.map e.toLower) (lockVersion (action.map e.toLower) remainder) action'
            remainder' := by
  have hr := remains_persist info h
  have hversion : ∀ action' remainder', action'.map e.toLower = action.map e.toLower →
      cachedVersion e.toLower (owner :: upstreamRepo :: action' :: remainder') =
        lockVersion (action.map e.toLower) remainder' := by
    intro action' remainder' haction'
    unfold cachedVersion
    dsimp only
    rw [haction']
  constructor
  · intro hk
    refine ⟨?_, ?_, fun action' remainder' haction' hp => ?_⟩
    · have hfile := hk.fetched.2
      rw [hasFile_eq, hr.blocked, Bool.and_eq_true, Bool.not_eq_true'] at hfile
      exact hfile.1
    · exact (hr.left action remainder rfl (Or.inl rfl)).mp
        ⟨fun _ => rfl, fun _ => hk.fetched.1⟩
    · refine (hr.left action' remainder' haction' (Or.inr hp)).mp ⟨fun hleft => ?_, fun heq => ?_⟩
      · by_contra hother
        rw [← hversion action' remainder' haction'] at hother
        exact (hk.gone _ hp ⟨action', remainder', rfl, haction'⟩ hother).1 hleft
      · rw [← hversion action' remainder' haction'] at heq
        exact (hk.kept _ hp ⟨action', remainder', rfl, haction'⟩ heq).1
  · rintro ⟨hopen, htold, hall⟩
    have hstep := hr.step hopen
    have hfetched := ((hr.left action remainder rfl (Or.inl rfl)).mpr htold).mpr rfl
    refine ⟨⟨hfetched, (hstep _ (Or.inl rfl)).mp hfetched⟩, ?_, ?_⟩
    · rintro p hp ⟨action', remainder', rfl, haction'⟩ heq
      rw [hversion action' remainder' haction'] at heq
      have hleft := ((hr.left action' remainder' haction' (Or.inr hp)).mpr
        (hall action' remainder' haction' hp)).mpr heq
      exact ⟨hleft, (hstep _ (Or.inr hp)).mp hleft⟩
    · rintro p hp ⟨action', remainder', rfl, haction'⟩ hother
      rw [hversion action' remainder' haction'] at hother
      have hgone : owner :: upstreamRepo :: action' :: remainder' ∉
          (e.persist root retain s relative info).disk := fun hleft =>
        hother (((hr.left action' remainder' haction' (Or.inr hp)).mpr
          (hall action' remainder' haction' hp)).mp hleft)
      exact ⟨hgone, Bool.eq_false_iff.mpr fun hfile => hgone ((hstep _ (Or.inr hp)).mpr hfile)⟩

instance (parts : List Text) : Decidable (Names parts) :=
  inferInstanceAs (Decidable (∀ c ∈ parts, c ≠ [] ∧ c ≠ SlashPath.dot ∧ c ≠ SlashPath.dotDot ∧
    '/' ∉ c))

def olderRelease : GitCache where
  disk := [[['o'], ['r'], releases, "v1".toList, "app.jar".toList]]
  index := newFileIndex.run
    [.insertFile (pathStr ['s'] [['o'], ['r'], releases, "v1".toList, "app.jar".toList]) {}]

/-- The asset of a download path is removed by the fetch that has stored it. -/
theorem download_removed :
    Persisted (.sample .github) ['s'] ⟨true, true⟩ ⟨[], newFileIndex⟩
        "o/r/releases/download/v1/app.jar".toList ['o'] ['r'] releases
        [download, "v1".toList, "app.jar".toList] ∧
      ¬KeepsVersion (.sample .github) ['s'] ⟨[], newFileIndex⟩
        ((Engine.sample .github).persist ['s'] ⟨true, true⟩ ⟨[], newFileIndex⟩
          "o/r/releases/download/v1/app.jar".toList {}) ['o'] ['r'] releases
        [download, "v1".toList, "app.jar".toList] := by
  have hcached : Cached ['s'] ⟨[], newFileIndex⟩ :=
    ⟨by decide, by decide, by decide, [], by decide, rfl⟩
  have hparts : requestParts "o/r/releases/download/v1/app.jar".toList =
      [['o'], ['r'], releases, download, "v1".toList, "app.jar".toList] := by decide +kernel
  refine ⟨⟨by decide +kernel, hcached, ⟨_, by rfl⟩, hparts, by decide +kernel, by decide, rfl, rfl⟩,
    fun h => ?_⟩
  have hfetched := h.fetched.1
  revert hfetched
  decide +kernel

theorem keepsVersion_newer : KeepsVersion (.sample .github) ['s'] olderRelease
      ((Engine.sample .github).persist ['s'] ⟨true, true⟩ olderRelease
        "o/r/releases/v2/app.jar".toList {}) ['o'] ['r'] releases
      ["v2".toList, "app.jar".toList] ↔
    olderRelease.index.isBlocked
        (pathStr ['s'] (['o'] :: ['r'] :: releases :: ["v2".toList, "app.jar".toList])) = false ∧
      Told releases (lockVersion releases ["v2".toList, "app.jar".toList]) releases
        ["v2".toList, "app.jar".toList] ∧
      ∀ action' remainder', action'.map Char.toLower = releases →
        ['o'] :: ['r'] :: action' :: remainder' ∈ olderRelease.disk →
        Told releases (lockVersion releases ["v2".toList, "app.jar".toList]) action' remainder' := by
  have hcached : Cached ['s'] olderRelease :=
    ⟨by decide +kernel, by decide +kernel, by decide +kernel, _, by decide +kernel, rfl⟩
  have hparts : requestParts "o/r/releases/v2/app.jar".toList =
      [['o'], ['r'], releases, "v2".toList, "app.jar".toList] := by decide +kernel
  have hlower : releases.map (Engine.sample .github).toLower = releases := by decide +kernel
  have hiff := keepsVersion_iff {}
    (⟨by decide +kernel, hcached, ⟨_, by rfl⟩, hparts, by decide +kernel, by decide +kernel, rfl, rfl⟩ :
      Persisted (.sample .github) ['s'] ⟨true, true⟩ olderRelease "o/r/releases/v2/app.jar".toList
        ['o'] ['r'] releases ["v2".toList, "app.jar".toList])
  rw [hlower] at hiff
  exact hiff

end RenoP.Git
