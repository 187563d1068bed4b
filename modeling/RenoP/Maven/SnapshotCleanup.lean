import RenoP.Maven.SnapshotNames

/-!
# The cleanup of superseded snapshots

`cleanupSupersededUniqueSnapshots` of `internal/service/storage/snapshot.go` in a directory of
snapshots of one base version. The files that are removed are listed; the removal of one may fail,
which ends the loop.
-/

namespace RenoP.Maven

def lowerByte (c : UInt8) : UInt8 := if 0x41 ≤ c ∧ c ≤ 0x5A then c + 0x20 else c

def signature : Bytes := [0x2E, 0x61, 0x73, 0x63]

def checksums : List Bytes :=
  [[0x2E, 0x6D, 0x64, 0x35], [0x2E, 0x73, 0x68, 0x61, 0x31],
    [0x2E, 0x73, 0x68, 0x61, 0x32, 0x35, 0x36], [0x2E, 0x73, 0x68, 0x61, 0x35, 0x31, 0x32]]

def artifactCompanionExts : List Bytes :=
  checksums.map (signature ++ ·) ++ checksums ++ [signature]

def companionSuffix (name : Bytes) : Option Bytes :=
  artifactCompanionExts.find? (·.isSuffixOf (name.map lowerByte))

def isArtifactCompanionPath (path : Bytes) : Bool := (companionSuffix path).isSome

def stripArtifactCompanionSuffix (name : Bytes) : Bytes :=
  match companionSuffix name with
  | some ext => name.take (name.length - ext.length)
  | none => name

def metadataText : Bytes :=
  [0x6D, 0x61, 0x76, 0x65, 0x6E, 0x2D, 0x6D, 0x65, 0x74, 0x61, 0x64, 0x61, 0x74, 0x61]

section

variable (removeIndexedFile : Bytes → Bool)

def removeSuperseded (baseName : Bytes) (parts : UniqueSnapshotParts) : List Bytes → List Bytes
  | [] => []
  | child :: children =>
    if child = baseName then removeSuperseded baseName parts children
    else if metadataText.isPrefixOf child then removeSuperseded baseName parts children
    else
      match parseUniqueSnapshotBaseName (stripArtifactCompanionSuffix child) with
      | none => removeSuperseded baseName parts children
      | some other =>
        if other.namePrefix ≠ parts.namePrefix then removeSuperseded baseName parts children
        else if other.uniqueVer = parts.uniqueVer then removeSuperseded baseName parts children
        else if removeIndexedFile child then child :: removeSuperseded baseName parts children
        else []

def children (entriesFromIndex : List Bytes) (readDir : Option (List Bytes)) : List Bytes :=
  (entriesFromIndex ++ readDir.getD []).foldl
    (fun seen child => if child ∈ seen then seen else seen ++ [child]) []

/-- `readDir` is nothing for a repository in S3 and where the directory cannot be read. -/
def cleanupSupersededUniqueSnapshots (baseName dirName : Bytes) (entriesFromIndex : List Bytes)
    (readDir : Option (List Bytes)) : List Bytes :=
  if isArtifactCompanionPath baseName then []
  else
    match parseUniqueSnapshotBaseName baseName with
    | none => []
    | some parts =>
      if !isSnapshot dirName then []
      else removeSuperseded removeIndexedFile baseName parts (children entriesFromIndex readDir)

end

def Superseded (baseName child : Bytes) : Prop :=
  isArtifactCompanionPath baseName = false ∧ metadataText.isPrefixOf child = false ∧
    ∃ parts other, parseUniqueSnapshotBaseName baseName = some parts ∧
      parseUniqueSnapshotBaseName (stripArtifactCompanionSuffix child) = some other ∧
      other.namePrefix = parts.namePrefix ∧ other.uniqueVer ≠ parts.uniqueVer

theorem mem_children (entriesFromIndex : List Bytes) (readDir : Option (List Bytes))
    (child : Bytes) : child ∈ children entriesFromIndex readDir ↔
      child ∈ entriesFromIndex ++ readDir.getD [] := by
  have hloop : ∀ l seen : List Bytes, child ∈ l.foldl
      (fun seen child => if child ∈ seen then seen else seen ++ [child]) seen ↔
        child ∈ seen ∨ child ∈ l := by
    intro l
    induction l with
    | nil => simp
    | cons c l ih =>
      intro seen
      rw [List.foldl_cons, ih]
      split_ifs with hc
      · rw [List.mem_cons]
        constructor
        · rintro (hmem | hmem)
          · exact .inl hmem
          · exact .inr (.inr hmem)
        · rintro (hmem | rfl | hmem)
          · exact .inl hmem
          · exact .inl hc
          · exact .inr hmem
      · rw [List.mem_append, List.mem_singleton, List.mem_cons, or_assoc]
  rw [children, hloop]
  simp

section

variable {removeIndexedFile : Bytes → Bool} {baseName child : Bytes} {parts : UniqueSnapshotParts}

theorem mem_removeSuperseded {l : List Bytes}
    (h : child ∈ removeSuperseded removeIndexedFile baseName parts l) :
    child ∈ l ∧ metadataText.isPrefixOf child = false ∧ ∃ other,
      parseUniqueSnapshotBaseName (stripArtifactCompanionSuffix child) = some other ∧
      other.namePrefix = parts.namePrefix ∧ other.uniqueVer ≠ parts.uniqueVer := by
  fun_induction removeSuperseded removeIndexedFile baseName parts l with
  | case1 => cases h
  | case2 _ ih => exact (ih h).imp_left (List.mem_cons_of_mem _)
  | case3 _ _ _ _ ih => exact (ih h).imp_left (List.mem_cons_of_mem _)
  | case4 _ _ _ _ _ ih => exact (ih h).imp_left (List.mem_cons_of_mem _)
  | case5 _ _ _ _ _ _ _ ih => exact (ih h).imp_left (List.mem_cons_of_mem _)
  | case6 _ _ _ _ _ _ _ _ ih => exact (ih h).imp_left (List.mem_cons_of_mem _)
  | case7 c l _ hmeta other hread hpre hver _ ih =>
    rcases List.mem_cons.mp h with rfl | h
    · exact ⟨List.mem_cons_self .., Bool.not_eq_true _ ▸ hmeta, other, hread, not_not.mp hpre, hver⟩
    · exact (ih h).imp_left (List.mem_cons_of_mem _)
  | case8 => cases h

theorem removeSuperseded_mem {l : List Bytes} (hmem : child ∈ l) (hbase : child ≠ baseName)
    (hmeta : metadataText.isPrefixOf child = false) {other : UniqueSnapshotParts}
    (hread : parseUniqueSnapshotBaseName (stripArtifactCompanionSuffix child) = some other)
    (hpre : other.namePrefix = parts.namePrefix) (hver : other.uniqueVer ≠ parts.uniqueVer) :
    child ∈ removeSuperseded (fun _ => true) baseName parts l := by
  fun_induction removeSuperseded (fun _ => true) baseName parts l with
  | case1 => cases hmem
  | case2 _ ih => exact ih ((List.mem_cons.mp hmem).resolve_left hbase)
  | case3 c _ _ hc ih =>
    refine ih ((List.mem_cons.mp hmem).resolve_left ?_)
    rintro rfl
    rw [hmeta] at hc
    cases hc
  | case4 c _ _ _ hnone ih =>
    refine ih ((List.mem_cons.mp hmem).resolve_left ?_)
    rintro rfl
    rw [hread] at hnone
    cases hnone
  | case5 c _ _ _ other' hread' hpre' ih =>
    refine ih ((List.mem_cons.mp hmem).resolve_left ?_)
    rintro rfl
    rw [hread] at hread'
    cases hread'
    exact hpre' hpre
  | case6 c _ _ _ other' hread' _ hver' ih =>
    refine ih ((List.mem_cons.mp hmem).resolve_left ?_)
    rintro rfl
    rw [hread] at hread'
    cases hread'
    exact hver hver'
  | case7 c _ _ _ _ _ _ _ _ ih =>
    rcases List.mem_cons.mp hmem with rfl | hmem
    · exact List.mem_cons_self ..
    · exact List.mem_cons_of_mem c (ih hmem)
  | case8 _ _ _ _ _ _ _ _ hfails => exact absurd rfl hfails

end

theorem companions_dash : ∀ ext ∈ artifactCompanionExts, dash ∉ ext := by decide

theorem companions_point {ext x y : Bytes} {c : UInt8} (hext : ext ∈ artifactCompanionExts)
    (h : ext = x ++ c :: point :: y) : c = 0x63 := by
  have hall : (artifactCompanionExts.all fun ext =>
      (ext.zip ext.tail).all fun p => p.2 != point || p.1 == 0x63) = true := by decide
  have hpairs : (c, point) ∈ ext.zip ext.tail := by
    rw [h]
    cases x with
    | nil => simp
    | cons d x =>
      have hlength : (d :: x).length = (x ++ [c]).length := by simp
      have hsplit : (d :: x ++ c :: point :: y).zip (x ++ [c] ++ point :: y) =
          (d :: x).zip (x ++ [c]) ++ (c :: point :: y).zip (point :: y) :=
        List.zip_append hlength
      have htail : (d :: x ++ c :: point :: y).tail = x ++ [c] ++ point :: y := by simp
      rw [htail, hsplit]
      simp
  have hchar := List.all_eq_true.mp (List.all_eq_true.mp hall ext hext) _ hpairs
  simpa using hchar

theorem Qualifier.last {q : Bytes} (h : Qualifier q) :
    ∃ q' c, q = q' ++ [c] ∧ lowerByte c ≠ 0x63 := by
  have hdigits : ∀ b, Digits b → ∃ b' c, b = b' ++ [c] ∧ lowerByte c ≠ 0x63 := by
    rintro b ⟨hne, hall⟩
    obtain ⟨b', c, rfl⟩ := (List.eq_nil_or_concat b).resolve_left hne
    rw [List.concat_eq_append] at hall ⊢
    refine ⟨b', c, rfl, ?_⟩
    have hc := hall c (by simp)
    unfold isDigit at hc
    unfold lowerByte
    intro hsame
    split_ifs at hsame with hcap
    · have h39 := UInt8.le_iff_toNat_le.mp (of_decide_eq_true (Bool.and_eq_true_iff.mp hc).2)
      have h41 := UInt8.le_iff_toNat_le.mp hcap.1
      exact absurd (h41.trans h39) (by decide)
    · rw [hsame] at hc
      exact absurd hc (by decide)
  cases h with
  | snapshot => exact ⟨snapshotText.dropLast, 0x54, by decide, by decide⟩
  | build hb => exact hdigits q hb
  | timestamp ht =>
    obtain ⟨start, build, rfl, -, -, hbuild, -⟩ := ht.split
    obtain ⟨b', c, rfl, hc⟩ := hdigits build hbuild
    exact ⟨start ++ dash :: b', c, by simp, hc⟩

theorem strip_cases (name : Bytes) : stripArtifactCompanionSuffix name = name ∨
    ∃ x, name = stripArtifactCompanionSuffix name ++ x ∧ x.map lowerByte ∈ artifactCompanionExts := by
  unfold stripArtifactCompanionSuffix
  cases hext : companionSuffix name with
  | none => exact .inl rfl
  | some ext =>
    right
    have hmem : ext ∈ artifactCompanionExts := List.mem_of_find?_eq_some hext
    have hsuffix := List.find?_some hext
    obtain ⟨start, hstart⟩ := List.isSuffixOf_iff_suffix.mp hsuffix
    have hlength := congrArg List.length hstart
    rw [List.length_append, List.length_map] at hlength
    refine ⟨name.drop (name.length - ext.length), (List.take_append_drop _ _).symm, ?_⟩
    have hstart' : name.length - ext.length = start.length := by omega
    rw [List.map_drop, ← hstart, hstart', List.drop_left]
    exact hmem

theorem strip_tail {d q t : Bytes} (hq : Qualifier q) (ht : Tail t) (hne : t ≠ []) :
    ∃ t', stripArtifactCompanionSuffix (d ++ dash :: (q ++ t)) = d ++ dash :: (q ++ t') ∧
      Tail t' := by
  rcases strip_cases (d ++ dash :: (q ++ t)) with hsame | ⟨x, hx, hext⟩
  · exact ⟨t, hsame, ht⟩
  have hdash : dash ∉ x := by
    intro hmem
    exact companions_dash _ hext (List.mem_map.mpr ⟨dash, hmem, by decide⟩)
  have happend : d ++ dash :: (q ++ t) = (d ++ dash :: q) ++ t := by simp
  rw [happend] at hx
  rcases List.append_eq_append_iff.mp hx with ⟨t', hstrip, rfl⟩ | ⟨cut, hcut, hrest⟩
  · refine ⟨t', by simpa using hstrip, ?_⟩
    cases t' with
    | nil => exact .inl rfl
    | cons c t' =>
      rcases ht with hnil | ⟨y, hy⟩ | ⟨e, he, hdash'⟩
      · cases hnil
      · exact .inr (.inl ⟨t', by rw [(List.cons.inj hy).1]⟩)
      · refine .inr (.inr ⟨t', by rw [(List.cons.inj he).1], fun hmem => hdash' ?_⟩)
        rw [← (List.cons.inj he).2]
        exact List.mem_append_left _ hmem
  · rcases List.eq_nil_or_concat cut with rfl | ⟨cut', c, rfl⟩
    · exact ⟨[], by simpa using hcut.symm, .inl rfl⟩
    · -- the suffix would begin in the qualifier
      obtain ⟨q', last, rfl, hlast⟩ := hq.last
      rw [List.concat_eq_append] at hcut hrest
      have hc : last = c := by
        have hends : (d ++ dash :: q') ++ [last] =
            (stripArtifactCompanionSuffix (d ++ dash :: (q' ++ [last] ++ t)) ++ cut') ++ [c] := by
          simpa using hcut
        exact (List.cons.inj (List.append_inj' hends rfl).2).1
      exfalso
      rcases ht with rfl | ⟨y, rfl⟩ | ⟨e, rfl, -⟩
      · exact hne rfl
      · exact hdash (by rw [hrest]; simp)
      · refine hlast (companions_point hext (x := cut'.map lowerByte) (y := e.map lowerByte) ?_)
        rw [hrest, hc]
        simp [lowerByte, point]

/-- `artifactId-baseVersion-Q[-classifier].ext` -/
structure SnapshotFile where
  artifactId : Bytes
  qualifier : Bytes
  isQualifier : Qualifier qualifier
  classifier : Option Bytes
  ext : Bytes
  plainExt : dash ∉ ext

/-- A file of an artifact, alone or with its companion suffix, or one of `maven-metadata`. -/
inductive Sibling where
  | file (file : SnapshotFile) (companion : Bytes)
      (isCompanion : companion = [] ∨ companion ∈ artifactCompanionExts)
  | metadata (rest : Bytes)

def SnapshotFile.tail (f : SnapshotFile) : Bytes :=
  match f.classifier with
  | none => point :: f.ext
  | some classifier => dash :: (classifier ++ point :: f.ext)

section

variable (baseVersion : Bytes)

def SnapshotFile.stem (f : SnapshotFile) : Bytes := f.artifactId ++ dash :: baseVersion

def SnapshotFile.name (f : SnapshotFile) : Bytes :=
  f.stem baseVersion ++ dash :: (f.qualifier ++ f.tail)

def Sibling.name : Sibling → Bytes
  | .file f companion _ => f.stem baseVersion ++ dash :: (f.qualifier ++ (f.tail ++ companion))
  | .metadata rest => metadataText ++ rest

def Sibling.Kept (stored : SnapshotFile) : Sibling → Prop
  | .file f _ _ => f.artifactId ≠ stored.artifactId ∨ f.qualifier = snapshotText ∨
      f.qualifier = stored.qualifier
  | .metadata _ => True

/-- The version is read in the artifact's name or in the classifier, not in the qualifier. -/
def SnapshotFile.Displaced (f : SnapshotFile) (namePrefix : Bytes) : Prop :=
  (∃ rest, f.stem baseVersion = namePrefix ++ dash :: rest) ∨
    ∃ before, namePrefix = f.stem baseVersion ++ dash :: (f.qualifier ++ before)

/-- Both files are read as versions of one artifact, and one of the versions is displaced. With
files of the same artifact, both have one qualifier and their versions stand in the classifiers. -/
def Sibling.Confused (stored : SnapshotFile) : Sibling → Prop
  | .file f companion h => ∃ parts other,
      parseUniqueSnapshotBaseName (stored.name baseVersion) = some parts ∧
      parseUniqueSnapshotBaseName (stripArtifactCompanionSuffix
        ((Sibling.file f companion h).name baseVersion)) = some other ∧
      other.namePrefix = parts.namePrefix ∧ other.uniqueVer ≠ parts.uniqueVer ∧
      isArtifactCompanionPath (stored.name baseVersion) = false ∧
      metadataText.isPrefixOf ((Sibling.file f companion h).name baseVersion) = false ∧
      (stored.Displaced baseVersion parts.namePrefix ∨ f.Displaced baseVersion other.namePrefix) ∧
      (f.artifactId = stored.artifactId → f.qualifier = stored.qualifier ∧
        ∃ before, parts.namePrefix =
          stored.stem baseVersion ++ dash :: (stored.qualifier ++ before))
  | .metadata _ => False

theorem SnapshotFile.tail_tail (f : SnapshotFile) : Tail f.tail := by
  unfold SnapshotFile.tail
  cases f.classifier with
  | none => exact .inr (.inr ⟨f.ext, rfl, f.plainExt⟩)
  | some classifier => exact .inr (.inl ⟨_, rfl⟩)

theorem SnapshotFile.companion_tail (f : SnapshotFile) {companion : Bytes}
    (h : companion = [] ∨ companion ∈ artifactCompanionExts) :
    Tail (f.tail ++ companion) ∧ f.tail ++ companion ≠ [] := by
  have hdash : dash ∉ companion := by
    rcases h with rfl | h
    · exact List.not_mem_nil
    · exact companions_dash companion h
  unfold SnapshotFile.tail
  cases f.classifier with
  | none =>
    refine ⟨.inr (.inr ⟨f.ext ++ companion, rfl, ?_⟩), List.cons_ne_nil _ _⟩
    intro hmem
    rcases List.mem_append.mp hmem with hm | hm
    · exact f.plainExt hm
    · exact hdash hm
  | some classifier => exact ⟨.inr (.inl ⟨_, rfl⟩), List.cons_ne_nil _ _⟩

theorem SnapshotFile.stem_ne_nil (f : SnapshotFile) : f.stem baseVersion ≠ [] := by
  simp [SnapshotFile.stem]

theorem isSnapshot_directory : isSnapshot (baseVersion ++ dash :: snapshotText) = true := by
  rw [isSnapshot_within]
  fun_induction toUpper baseVersion with
  | case1 => exact ⟨[dash], [], rfl⟩
  | case2 s ih =>
    obtain ⟨x, y, h⟩ := ih
    exact ⟨0x53 :: x, y, by simpa [toUpper] using h⟩
  | case3 c s hother ih =>
    obtain ⟨x, y, h⟩ := ih
    have hfirst : ∀ rest, c = 0xC5 → s ++ dash :: snapshotText = 0xBF :: rest → False := by
      intro rest hc hs
      cases s with
      | nil => exact absurd (List.cons.inj hs).1 (by decide)
      | cons d s => exact hother s hc (by rw [(List.cons.inj hs).1])
    rw [List.cons_append, toUpper.eq_3 _ _ hfirst, ← h]
    exact ⟨_ :: x, y, rfl⟩

theorem superseded_iff (stored : SnapshotFile) (s : Sibling) (hkept : s.Kept stored) :
    Superseded (stored.name baseVersion) (s.name baseVersion) ↔ s.Confused baseVersion stored := by
  cases s with
  | metadata rest =>
    refine ⟨fun h => ?_, False.elim⟩
    have hpre : metadataText.isPrefixOf (metadataText ++ rest) = true :=
      List.isPrefixOf_iff_prefix.mpr (List.prefix_append ..)
    rw [show (Sibling.metadata rest).name baseVersion = metadataText ++ rest from rfl] at h
    rw [h.2.1] at hpre
    cases hpre
  | file f companion hcompanion =>
    obtain ⟨htail, hne⟩ := f.companion_tail hcompanion
    constructor
    · rintro ⟨hbase, hmeta, parts, other, hparts, hother, hpre, hver⟩
      refine ⟨parts, other, hparts, hother, hpre, hver, hbase, hmeta, ?_⟩
      obtain ⟨t, hstrip, ht⟩ := strip_tail (d := f.stem baseVersion) f.isQualifier htail hne
      have hread := parse_reading hparts
      have hread' := parse_reading (hstrip ▸ hother)
      rw [hpre] at hread' ⊢
      by_cases hsame : f.artifactId = stored.artifactId
      · have hstem : f.stem baseVersion = stored.stem baseVersion := by
          rw [SnapshotFile.stem, hsame, SnapshotFile.stem]
        rw [hstem] at hread'
        have hqualifier : f.qualifier = stored.qualifier ∨ f.qualifier = snapshotText :=
          (hkept.resolve_left (not_not.mpr hsame)).symm
        obtain ⟨hq, before, hbefore⟩ := reading_classifier (stored.stem_ne_nil baseVersion)
          stored.isQualifier stored.tail_tail hqualifier ht hread hread' hver.symm
        exact ⟨.inl (.inr ⟨before, hbefore⟩), fun _ => ⟨hq, before, hbefore⟩⟩
      · refine ⟨?_, fun hfalse => absurd hfalse hsame⟩
        rcases reading_place (stored.stem_ne_nil baseVersion) stored.isQualifier stored.tail_tail
          hread with hstem | hplace
        · right
          refine (reading_place (f.stem_ne_nil baseVersion) f.isQualifier ht hread').resolve_left ?_
          intro hstem'
          exact hsame (List.append_cancel_right (hstem'.symm.trans hstem))
        · exact .inl hplace
    · rintro ⟨parts, other, hparts, hother, hpre, hver, hbase, hmeta, -⟩
      exact ⟨hbase, hmeta, parts, other, hparts, hother, hpre, hver⟩

theorem mem_cleanup {removeIndexedFile : Bytes → Bool} {baseName dirName child : Bytes}
    {entriesFromIndex : List Bytes} {readDir : Option (List Bytes)}
    (h : child ∈ cleanupSupersededUniqueSnapshots removeIndexedFile baseName dirName
      entriesFromIndex readDir) :
    child ∈ entriesFromIndex ++ readDir.getD [] ∧ Superseded baseName child := by
  unfold cleanupSupersededUniqueSnapshots at h
  cases hbase : isArtifactCompanionPath baseName with
  | true =>
    rw [hbase] at h
    cases h
  | false =>
    cases hparts : parseUniqueSnapshotBaseName baseName with
    | none =>
      rw [hbase, hparts] at h
      cases h
    | some parts =>
      cases hdir : isSnapshot dirName with
      | false =>
        rw [hbase, hparts, hdir] at h
        cases h
      | true =>
        rw [hbase, hparts, hdir] at h
        obtain ⟨hmem, hmeta, other, hother⟩ := mem_removeSuperseded h
        exact ⟨(mem_children ..).mp hmem, hbase, hmeta, parts, other, hparts, hother⟩

theorem cleanup_mem {baseName dirName child : Bytes} {entriesFromIndex : List Bytes}
    {readDir : Option (List Bytes)} (hdir : isSnapshot dirName = true)
    (hmem : child ∈ entriesFromIndex ++ readDir.getD []) (h : Superseded baseName child)
    (hbase : child ≠ baseName) :
    child ∈ cleanupSupersededUniqueSnapshots (fun _ => true) baseName dirName entriesFromIndex
      readDir := by
  obtain ⟨hcompanion, hmeta, parts, other, hparts, hother, hpre, hver⟩ := h
  unfold cleanupSupersededUniqueSnapshots
  rw [hcompanion, hparts, hdir]
  exact removeSuperseded_mem ((mem_children ..).mpr hmem) hbase hmeta hother hpre hver

theorem superseded_ne {baseName child : Bytes} (h : Superseded baseName child) :
    child ≠ baseName := by
  obtain ⟨hcompanion, -, parts, other, hparts, hother, -, hver⟩ := h
  rintro rfl
  have hplain : stripArtifactCompanionSuffix child = child := by
    unfold isArtifactCompanionPath at hcompanion
    unfold stripArtifactCompanionSuffix
    rw [Option.isSome_eq_false_iff, Option.isNone_iff_eq_none] at hcompanion
    rw [hcompanion]
  rw [hplain, hparts] at hother
  cases hother
  exact hver rfl

/-- The cleanup spares what it has to, whichever removals fail, exactly where nothing of it is
confused with the stored file. -/
theorem snapshot_cleanup_iff (stored : SnapshotFile) (entriesFromIndex : List Sibling)
    (readDir : Option (List Sibling)) :
    (∀ removeIndexedFile, ∀ s ∈ entriesFromIndex ++ readDir.getD [], s.Kept stored →
      s.name baseVersion ∉ cleanupSupersededUniqueSnapshots removeIndexedFile
        (stored.name baseVersion) (baseVersion ++ dash :: snapshotText)
        (entriesFromIndex.map (·.name baseVersion))
        (readDir.map fun l => l.map (·.name baseVersion))) ↔
      ∀ s ∈ entriesFromIndex ++ readDir.getD [], s.Kept stored →
        ¬s.Confused baseVersion stored := by
  constructor
  · intro h s hs hkept hconfused
    have hsuperseded := (superseded_iff baseVersion stored s hkept).mpr hconfused
    refine h (fun _ => true) s hs hkept (cleanup_mem (isSnapshot_directory baseVersion) ?_
      hsuperseded (superseded_ne hsuperseded))
    rcases List.mem_append.mp hs with hs | hs
    · exact List.mem_append_left _ (List.mem_map_of_mem hs)
    · refine List.mem_append_right _ ?_
      cases readDir with
      | none => cases hs
      | some l => exact List.mem_map_of_mem hs
  · intro h removeIndexedFile s hs hkept hmem
    exact h s hs hkept ((superseded_iff baseVersion stored s hkept).mp (mem_cleanup hmem).2)

end

/-- `demo-SNAPSHOT-linux-<bits>.jar` -/
def linuxJar (bits : Bytes) : SnapshotFile where
  artifactId := [0x64, 0x65, 0x6D, 0x6F]
  qualifier := snapshotText
  isQualifier := .snapshot
  classifier := some ([0x6C, 0x69, 0x6E, 0x75, 0x78] ++ dash :: bits)
  ext := [0x6A, 0x61, 0x72]
  plainExt := by decide

/-- The jar of `demo` 1.0 with the classifier `linux-32` removes the one with `linux-64`. -/
theorem classifier_removed : ¬∀ removeIndexedFile,
    ∀ s ∈ [Sibling.file (linuxJar [0x36, 0x34]) [] (.inl rfl)],
      s.Kept (linuxJar [0x33, 0x32]) →
      s.name [0x31, 0x2E, 0x30] ∉ cleanupSupersededUniqueSnapshots removeIndexedFile
        ((linuxJar [0x33, 0x32]).name [0x31, 0x2E, 0x30])
        ([0x31, 0x2E, 0x30] ++ dash :: snapshotText)
        ([Sibling.file (linuxJar [0x36, 0x34]) [] (.inl rfl)].map (·.name [0x31, 0x2E, 0x30]))
        none := by
  intro h
  exact absurd (h (fun _ => true) _ (List.mem_singleton_self _) (.inr (.inl rfl)))
    (by decide +kernel)

end RenoP.Maven
